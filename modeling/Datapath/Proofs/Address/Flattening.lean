import Datapath.Proofs.Address.Answers
import Mathlib.Logic.Relation

/-!
# Flattening an index

What `Kernel.operations` lists can be said without the walk that lists it. Arithmetic *computes
from* what its operands are when a cast is looked through. The operations of an index are all
arithmetic that the index is computed from in the end, itself included, and they are listed *bottom
up*: an operation comes after whatever arithmetic it computes from.

An index is refused if it is computed from an instruction that neither is arithmetic nor loads a
value. Of several such instructions the *first* one is named, in the order in which operands stand.

The two parts rest on the same three equations, one for each sort of value that the walk tells
apart: `flatten_of_isArithmetic`, `flatten_of_misplaced` and `flatten_of_leaf`.
-/

namespace Datapath.Kernel

open Relation (ReflTransGen)

variable {k : Kernel} {v w o p : ValueId} {i : Instruction} {fault : Fault}

/-! ## What an index is computed from -/

def IsArithmetic (k : Kernel) (v : ValueId) : Prop :=
  ∃ i, k.instruction? v = some i ∧ i.opcode.isArithmetic = true

/-- The value is an instruction that has no place in an index. -/
def Misplaced (k : Kernel) (v : ValueId) : Prop :=
  ∃ i, k.instruction? v = some i ∧ i.opcode.isArithmetic = false ∧ i.opcode ≠ .load

/-- An operand of the arithmetic instruction `v` is `o`, when a cast is looked through. -/
def ComputesFrom (k : Kernel) (v o : ValueId) : Prop :=
  ∃ i, k.instruction? v = some i ∧ i.opcode.isArithmetic = true ∧
    ∃ x ∈ i.operands, k.underlying x = o

/-- Going down from `v`, depth first and in the order of operands, `w` is the first value that has
no place in an index. -/
inductive FirstMisplaced (k : Kernel) : ValueId → ValueId → Prop
  | here {v : ValueId} (misplaced : k.Misplaced v) : FirstMisplaced k v v
  | operand {v w x : ValueId} {i : Instruction} {before after : List ValueId}
      (known : k.instruction? v = some i) (arithmetic : i.opcode.isArithmetic = true)
      (split : i.operands = before ++ x :: after)
      (fine : ∀ y ∈ before, ∀ u, ReflTransGen k.ComputesFrom (k.underlying y) u → ¬ k.Misplaced u)
      (rest : FirstMisplaced k (k.underlying x) w) : FirstMisplaced k v w

theorem isArithmetic_iff (hi : k.instruction? v = some i) :
    k.IsArithmetic v ↔ i.opcode.isArithmetic = true := by
  simp [IsArithmetic, hi]

theorem misplaced_iff (hi : k.instruction? v = some i) :
    k.Misplaced v ↔ i.opcode.isArithmetic = false ∧ i.opcode ≠ .load := by
  simp [Misplaced, hi]

/-- Nothing is computed from but by arithmetic. -/
theorem computed_iff_of_not_isArithmetic (h : ¬ k.IsArithmetic v) :
    ReflTransGen k.ComputesFrom v o ↔ o = v := by
  constructor
  · intro chain
    rcases chain.cases_head with rfl | ⟨u, ⟨i, hi, arithmetic, -⟩, -⟩
    · rfl
    · exact absurd ⟨i, hi, arithmetic⟩ h
  · rintro rfl
    exact .refl

/-- Arithmetic is computed from itself and from whatever its operands are computed from. -/
theorem computed_iff_of_isArithmetic (hi : k.instruction? v = some i)
    (arithmetic : i.opcode.isArithmetic = true) : ReflTransGen k.ComputesFrom v o ↔
      o = v ∨ ∃ x ∈ i.operands, ReflTransGen k.ComputesFrom (k.underlying x) o := by
  constructor
  · intro chain
    rcases chain.cases_head with rfl | ⟨u, ⟨j, hj, -, x, hx, rfl⟩, rest⟩
    · exact .inl rfl
    · obtain rfl := Option.some.inj (hi.symm.trans hj)
      exact .inr ⟨x, hx, rest⟩
  · rintro (rfl | ⟨x, hx, rest⟩)
    · exact .refl
    · exact .head ⟨i, hi, arithmetic, x, hx, rfl⟩ rest

/-! ## Flattening, by sorts of values -/

/-- The operands are flattened one after the other, and the value itself is listed last. -/
theorem flatten_of_isArithmetic (wf : k.WellFormed) (hi : k.instruction? v = some i)
    (arithmetic : i.opcode.isArithmetic = true) : k.flatten v = do
      let earlier ← i.operands.mapM fun x => k.flatten (k.underlying x)
      return earlier.flatten ++ [v] := by
  rcases flatten_cases hi with ⟨-, heq⟩ | ⟨hload, -⟩ | ⟨hother, -⟩
  · rw [heq, Outcome.mapM_congr fun x hx => dif_pos (wf.underlying_lt hi hx)]
  · rw [hload] at arithmetic
    cases arithmetic
  · rw [hother] at arithmetic
    cases arithmetic

theorem flatten_of_misplaced (hi : k.instruction? v = some i) (misplaced : k.Misplaced v) :
    k.flatten v = .error (.rejected (.unsupportedOpcode k.name v i.opcode)) := by
  obtain ⟨hother, hload⟩ := (misplaced_iff hi).mp misplaced
  rcases flatten_cases hi with ⟨arithmetic, -⟩ | ⟨load, -⟩ | ⟨-, -, heq⟩
  · rw [hother] at arithmetic
    cases arithmetic
  · exact absurd load hload
  · exact heq

/-- What is flattened is there. -/
theorem lt_size_of_flatten_eq_ok {os : List ValueId} (h : k.flatten v = .ok os) :
    v.index < k.size := by
  rw [flatten] at h
  cases hx : k.value? v with
  | none =>
      rw [hx] at h
      cases h
  | some x => exact value?_lt hx

theorem flatten_of_leaf (hv : v.index < k.size) (data : ¬ k.IsArithmetic v)
    (fine : ¬ k.Misplaced v) : k.flatten v = .ok [] := by
  cases hi : k.instruction? v with
  | none => exact flatten_of_instruction?_eq_none hv hi
  | some i =>
      rcases flatten_cases hi with ⟨arithmetic, -⟩ | ⟨-, heq⟩ | ⟨hother, hload, -⟩
      · exact absurd ⟨i, hi, arithmetic⟩ data
      · exact heq
      · exact absurd ⟨i, hi, hother, hload⟩ fine

theorem eq_nil_of_flatten (data : ¬ k.IsArithmetic v) (fine : ¬ k.Misplaced v)
    {os : List ValueId} (h : k.flatten v = .ok os) : os = [] :=
  Except.ok.inj (h.symm.trans (flatten_of_leaf (lt_size_of_flatten_eq_ok h) data fine))

/-- The sorts of values that flattening tells apart. -/
theorem arithmetic_or_misplaced_or_leaf (k : Kernel) (v : ValueId) :
    (∃ i, k.instruction? v = some i ∧ i.opcode.isArithmetic = true) ∨
      (∃ i, k.instruction? v = some i ∧ k.Misplaced v) ∨
        ¬ k.IsArithmetic v ∧ ¬ k.Misplaced v := by
  by_cases arithmetic : k.IsArithmetic v
  · exact .inl arithmetic
  · by_cases misplaced : k.Misplaced v
    · obtain ⟨i, hi, other⟩ := misplaced
      exact .inr (.inl ⟨i, hi, i, hi, other⟩)
    · exact .inr (.inr ⟨arithmetic, misplaced⟩)

/-! ## What is listed -/

/-- **An index is flattened into the arithmetic that it is computed from.** -/
theorem mem_flatten (wf : k.WellFormed) {v : ValueId} {os : List ValueId}
    (h : k.flatten v = .ok os) : o ∈ os ↔ ReflTransGen k.ComputesFrom v o ∧ k.IsArithmetic o := by
  rcases k.arithmetic_or_misplaced_or_leaf v with ⟨i, hi, arithmetic⟩ | ⟨i, hi, misplaced⟩ |
    ⟨data, fine⟩
  · -- arithmetic: each operand has its part of the list, and the value itself comes last
    rw [flatten_of_isArithmetic wf hi arithmetic] at h
    obtain ⟨parts, hparts, h⟩ := Outcome.bind_eq_ok.mp h
    obtain rfl := Outcome.pure_eq_ok.mp h
    have below {x : ValueId} (hx : x ∈ i.operands) {part : List ValueId}
        (hpart : k.flatten (k.underlying x) = .ok part) :
        o ∈ part ↔ ReflTransGen k.ComputesFrom (k.underlying x) o ∧ k.IsArithmetic o :=
      have hlt := wf.underlying_lt hi hx
      mem_flatten wf hpart
    rw [List.mem_append, List.mem_flatten, List.mem_singleton,
      computed_iff_of_isArithmetic hi arithmetic]
    constructor
    · rintro (⟨part, hmem, ho⟩ | rfl)
      · obtain ⟨x, hx, hpart⟩ := Outcome.exists_of_mem_mapM hparts part hmem
        obtain ⟨chain, harith⟩ := (below hx hpart).mp ho
        exact ⟨.inr ⟨x, hx, chain⟩, harith⟩
      · exact ⟨.inl rfl, i, hi, arithmetic⟩
    · rintro ⟨rfl | ⟨x, hx, chain⟩, harith⟩
      · exact .inr rfl
      · obtain ⟨part, hpart⟩ := Outcome.exists_of_mapM_eq_ok hparts x hx
        exact .inl ⟨part, Outcome.mem_of_mapM hparts hx hpart, (below hx hpart).mpr ⟨chain, harith⟩⟩
  · -- misplaced: refused, so there is no list
    cases (flatten_of_misplaced hi misplaced).symm.trans h
  · -- a leaf: nothing is listed, and the leaf is no arithmetic
    obtain rfl := eq_nil_of_flatten data fine h
    rw [computed_iff_of_not_isArithmetic data]
    constructor
    · nofun
    · rintro ⟨rfl, harith⟩
      exact absurd harith data
termination_by v.index

/-! ## In which order -/

/-- An operation is listed after whatever arithmetic it computes from. -/
inductive BottomUp (k : Kernel) : List ValueId → Prop
  | nil : BottomUp k []
  | concat {os : List ValueId} {v : ValueId} (earlier : BottomUp k os)
      (listed : ∀ p, k.ComputesFrom v p → k.IsArithmetic p → p ∈ os) : BottomUp k (os ++ [v])

theorem BottomUp.append {os ps : List ValueId} (hos : k.BottomUp os) (hps : k.BottomUp ps) :
    k.BottomUp (os ++ ps) := by
  induction hps with
  | nil => rwa [List.append_nil]
  | concat _ listed ih =>
      rw [← List.append_assoc]
      exact ih.concat fun p hp harith => List.mem_append_right os (listed p hp harith)

/-- Lists that are bottom up each are so one after the other, since an operation looks at its own
list only. -/
theorem BottomUp.flatten {parts : List (List ValueId)} (h : ∀ part ∈ parts, k.BottomUp part) :
    k.BottomUp parts.flatten := by
  induction parts with
  | nil => exact .nil
  | cons part parts ih =>
      obtain ⟨hpart, hparts⟩ := List.forall_mem_cons.mp h
      exact hpart.append (ih hparts)

/-- Whatever arithmetic an operation computes from stands at a smaller position. -/
theorem BottomUp.exists_lt {os : List ValueId} (h : k.BottomUp os) {n : Nat}
    (ho : os[n]? = some o) (hp : k.ComputesFrom o p) (arithmetic : k.IsArithmetic p) :
    ∃ m < n, os[m]? = some p := by
  induction h with
  | nil => cases ho
  | @concat os v _ listed ih =>
      by_cases hn : n < os.length
      · rw [List.getElem?_append_left hn] at ho
        obtain ⟨m, hm, hget⟩ := ih ho
        exact ⟨m, hm, by rwa [List.getElem?_append_left (Nat.lt_trans hm hn)]⟩
      · -- only the last operation stands there, and what it computes from is among the others
        obtain ⟨hlast, rfl⟩ : n = os.length ∧ o = v := by
          rw [List.getElem?_append_right (by omega)] at ho
          have hlt := (List.getElem?_eq_some_iff.mp ho).1
          rw [List.length_singleton] at hlt
          have hzero : n - os.length = 0 := by omega
          rw [hzero] at ho
          exact ⟨by omega, (Option.some.inj ho).symm⟩
        obtain ⟨m, hm⟩ := List.mem_iff_getElem?.mp (listed p hp arithmetic)
        have hlt := (List.getElem?_eq_some_iff.mp hm).1
        exact ⟨m, by omega, by rwa [List.getElem?_append_left hlt]⟩

/-- **Operations are listed bottom up.** -/
theorem bottomUp_flatten (wf : k.WellFormed) {v : ValueId} {os : List ValueId}
    (h : k.flatten v = .ok os) : k.BottomUp os := by
  rcases k.arithmetic_or_misplaced_or_leaf v with ⟨i, hi, arithmetic⟩ | ⟨i, hi, misplaced⟩ |
    ⟨data, fine⟩
  · rw [flatten_of_isArithmetic wf hi arithmetic] at h
    obtain ⟨parts, hparts, h⟩ := Outcome.bind_eq_ok.mp h
    obtain rfl := Outcome.pure_eq_ok.mp h
    apply BottomUp.concat
    · apply BottomUp.flatten
      intro part hmem
      obtain ⟨x, hx, hpart⟩ := Outcome.exists_of_mem_mapM hparts part hmem
      have hlt := wf.underlying_lt hi hx
      exact bottomUp_flatten wf hpart
    · -- what the value computes from is last in the part of its operand
      rintro p ⟨j, hj, -, x, hx, rfl⟩ harith
      obtain rfl := Option.some.inj (hi.symm.trans hj)
      obtain ⟨part, hpart⟩ := Outcome.exists_of_mapM_eq_ok hparts x hx
      have hself := (mem_flatten wf hpart).mpr ⟨.refl, harith⟩
      exact List.mem_flatten.mpr ⟨part, Outcome.mem_of_mapM hparts hx hpart, hself⟩
  · cases (flatten_of_misplaced hi misplaced).symm.trans h
  · obtain rfl := eq_nil_of_flatten data fine h
    exact .nil
termination_by v.index

/-- Arithmetic is listed last itself, and other values leave no trace. -/
theorem getLast?_flatten (wf : k.WellFormed) {os : List ValueId} (h : k.flatten v = .ok os) :
    (os = [] ↔ ¬ k.IsArithmetic v) ∧ (k.IsArithmetic v → os.getLast? = some v) := by
  rcases k.arithmetic_or_misplaced_or_leaf v with ⟨i, hi, arithmetic⟩ | ⟨i, hi, misplaced⟩ |
    ⟨data, fine⟩
  · rw [flatten_of_isArithmetic wf hi arithmetic] at h
    obtain ⟨parts, -, h⟩ := Outcome.bind_eq_ok.mp h
    obtain rfl := Outcome.pure_eq_ok.mp h
    have harith : k.IsArithmetic v := ⟨i, hi, arithmetic⟩
    simp [harith]
  · cases (flatten_of_misplaced hi misplaced).symm.trans h
  · obtain rfl := eq_nil_of_flatten data fine h
    simp [data]

/-! ## What is refused -/

/-- **An index is flattened if nothing that it is computed from is misplaced.** -/
theorem exists_flatten_iff (wf : k.WellFormed) {v : ValueId} (hv : v.index < k.size) :
    (∃ os, k.flatten v = .ok os) ↔ ∀ u, ReflTransGen k.ComputesFrom v u → ¬ k.Misplaced u := by
  rcases k.arithmetic_or_misplaced_or_leaf v with ⟨i, hi, arithmetic⟩ | ⟨i, hi, misplaced⟩ |
    ⟨data, fine⟩
  · have below {x : ValueId} (hx : x ∈ i.operands) :
        (∃ os, k.flatten (k.underlying x) = .ok os) ↔ _ :=
      have hlt := wf.underlying_lt hi hx
      exists_flatten_iff wf (Nat.lt_trans hlt hv)
    have hself : ¬ k.Misplaced v := by simp [misplaced_iff hi, arithmetic]
    rw [flatten_of_isArithmetic wf hi arithmetic]
    constructor
    · -- a list for the value has a part for each operand, and the induction speaks of the parts
      rintro ⟨os, h⟩ u chain
      obtain ⟨parts, hparts, -⟩ := Outcome.bind_eq_ok.mp h
      rcases (computed_iff_of_isArithmetic hi arithmetic).mp chain with rfl | ⟨x, hx, chain⟩
      · exact hself
      · exact (below hx).mp (Outcome.exists_of_mapM_eq_ok hparts x hx) u chain
    · intro h
      obtain ⟨parts, hparts⟩ := Outcome.exists_mapM_eq_ok
        (f := fun x => k.flatten (k.underlying x)) (l := i.operands) fun x hx =>
          (below hx).mpr fun u chain =>
            h u ((computed_iff_of_isArithmetic hi arithmetic).mpr (.inr ⟨x, hx, chain⟩))
      exact ⟨parts.flatten ++ [v], by rw [hparts]; rfl⟩
  · rw [flatten_of_misplaced hi misplaced]
    constructor
    · nofun
    · intro h
      exact absurd misplaced (h v .refl)
  · rw [flatten_of_leaf hv data fine]
    constructor
    · intro _ u chain
      obtain rfl := (computed_iff_of_not_isArithmetic data).mp chain
      exact fine
    · exact fun _ => ⟨[], rfl⟩
termination_by v.index

/-- Arithmetic is fine itself, so one of its operands leads to the misplaced value. -/
theorem firstMisplaced_iff_of_isArithmetic (hi : k.instruction? v = some i)
    (arithmetic : i.opcode.isArithmetic = true) : k.FirstMisplaced v w ↔
      ∃ before x after, i.operands = before ++ x :: after ∧
        (∀ y ∈ before, ∀ u, ReflTransGen k.ComputesFrom (k.underlying y) u → ¬ k.Misplaced u) ∧
        k.FirstMisplaced (k.underlying x) w := by
  constructor
  · intro h
    cases h with
    | here misplaced => simp [misplaced_iff hi, arithmetic] at misplaced
    | operand known _ split fine rest =>
        obtain rfl := Option.some.inj (hi.symm.trans known)
        exact ⟨_, _, _, split, fine, rest⟩
  · rintro ⟨before, x, after, split, fine, rest⟩
    exact .operand hi arithmetic split fine rest

theorem firstMisplaced_iff_of_not_isArithmetic (data : ¬ k.IsArithmetic v) :
    k.FirstMisplaced v w ↔ w = v ∧ k.Misplaced v := by
  constructor
  · intro h
    cases h with
    | here misplaced => exact ⟨rfl, misplaced⟩
    | operand known arithmetic => exact absurd ⟨_, known, arithmetic⟩ data
  · rintro ⟨rfl, misplaced⟩
    exact .here misplaced

/-- **A refusal names the first misplaced value.** -/
theorem flatten_eq_error_iff (wf : k.WellFormed) {v : ValueId} (hv : v.index < k.size) :
    k.flatten v = .error fault ↔ ∃ w i, k.FirstMisplaced v w ∧ k.instruction? w = some i ∧
      fault = .rejected (.unsupportedOpcode k.name w i.opcode) := by
  rcases k.arithmetic_or_misplaced_or_leaf v with ⟨i, hi, arithmetic⟩ | ⟨i, hi, misplaced⟩ |
    ⟨data, fine⟩
  · have hlt {x : ValueId} (hx : x ∈ i.operands) : (k.underlying x).index < k.size :=
      Nat.lt_trans (wf.underlying_lt hi hx) hv
    have hmap : k.flatten v = .error fault ↔
        i.operands.mapM (fun x => k.flatten (k.underlying x)) = .error fault := by
      rw [flatten_of_isArithmetic wf hi arithmetic, Outcome.bind_eq_error]
      exact ⟨fun h => h.resolve_right nofun, .inl⟩
    rw [hmap, Outcome.mapM_eq_error_iff]
    constructor
    · -- the operands before the refused one have lists, so nothing misplaced is met there
      rintro ⟨before, x, after, hsplit, hbefore, hx⟩
      have hmem : x ∈ i.operands := by simp [hsplit]
      obtain ⟨w, j, hfirst, hj, hfault⟩ := (flatten_eq_error_iff wf (hlt hmem)).mp hx
      refine ⟨w, j, .operand hi arithmetic hsplit (fun y hy => ?_) hfirst, hj, hfault⟩
      exact (exists_flatten_iff wf (hlt (by simp [hsplit, hy]))).mp (hbefore y hy)
    · rintro ⟨w, j, hfirst, hj, hfault⟩
      obtain ⟨before, x, after, hsplit, hbefore, hx⟩ :=
        (firstMisplaced_iff_of_isArithmetic hi arithmetic).mp hfirst
      have hmem : x ∈ i.operands := by simp [hsplit]
      refine ⟨before, x, after, hsplit, fun y hy => ?_,
        (flatten_eq_error_iff wf (hlt hmem)).mpr ⟨w, j, hx, hj, hfault⟩⟩
      exact (exists_flatten_iff wf (hlt (by simp [hsplit, hy]))).mpr (hbefore y hy)
  · -- misplaced: going down stops at the value itself
    have data : ¬ k.IsArithmetic v := by
      simp [isArithmetic_iff hi, ((misplaced_iff hi).mp misplaced).1]
    rw [flatten_of_misplaced hi misplaced]
    constructor
    · intro h
      exact ⟨v, i, .here misplaced, hi, (Except.error.inj h).symm⟩
    · rintro ⟨w, j, hfirst, hj, rfl⟩
      obtain ⟨rfl, -⟩ := (firstMisplaced_iff_of_not_isArithmetic data).mp hfirst
      obtain rfl := Option.some.inj (hi.symm.trans hj)
      rfl
  · rw [flatten_of_leaf hv data fine]
    constructor
    · nofun
    · rintro ⟨w, j, hfirst, -⟩
      exact absurd ((firstMisplaced_iff_of_not_isArithmetic data).mp hfirst).2 fine
termination_by v.index
decreasing_by
  all_goals exact wf.underlying_lt hi hmem

/-! ## The operations of an index -/

/-- **Flattening an index.** Its operations are the arithmetic that it is computed from, bottom up,
and the last one is the index itself; there are none if the index is no arithmetic. It is refused
exactly if it is computed from something misplaced, and the first such value is named. -/
theorem operations_flatten {name : String} {script : List Step} {k : Kernel}
    (built : Kernel.ofScript? name script = some k) {v : ValueId} (hv : v.index < k.size) :
    (∀ os, k.operations v = .ok os →
      (∀ o, o ∈ os ↔ ReflTransGen k.ComputesFrom (k.underlying v) o ∧ k.IsArithmetic o) ∧
      (∀ (n : Nat) (o p : ValueId), os[n]? = some o → k.ComputesFrom o p → k.IsArithmetic p →
        ∃ m < n, os[m]? = some p) ∧
      (os = [] ↔ ¬ k.IsArithmetic (k.underlying v)) ∧
      (k.IsArithmetic (k.underlying v) → os.getLast? = some (k.underlying v))) ∧
    ((∃ fault, k.operations v = .error fault) ↔
      ∃ u, ReflTransGen k.ComputesFrom (k.underlying v) u ∧ k.Misplaced u) ∧
    ∀ fault, k.operations v = .error fault ↔
      ∃ w i, k.FirstMisplaced (k.underlying v) w ∧ k.instruction? w = some i ∧
        fault = .rejected (.unsupportedOpcode k.name w i.opcode) := by
  have wf := ofScript?_wellFormed built
  have hlt := wf.underlying_lt_size hv
  refine ⟨fun os h => ?_, ?_, fun fault => flatten_eq_error_iff wf hlt⟩
  · obtain ⟨hempty, hlast⟩ := getLast?_flatten wf h
    refine ⟨fun o => mem_flatten wf h, fun n o p ho hp harith => ?_, hempty, hlast⟩
    exact (bottomUp_flatten wf h).exists_lt ho hp harith
  · have hflatten := exists_flatten_iff wf hlt
    rw [Outcome.exists_eq_ok_iff] at hflatten
    show (∃ fault, k.flatten (k.underlying v) = .error fault) ↔ _
    rw [← not_iff_not, not_exists, hflatten]
    simp

/-- A row of cells is found by a sum that takes a product twice over, and is widened. Behind it, a
comparison is added in two places. -/
def rowScript : List Step :=
  [.param "i" (.int 32), .param "j" (.int 32), .constant 16 32, .block "entry", .moveTo ⟨0⟩,
    .binary .mul ⟨0⟩ ⟨2⟩ "row", .binary .add ⟨3⟩ ⟨1⟩ "cell", .binary .add ⟨4⟩ ⟨3⟩ "next",
    .cast .zext ⟨5⟩ 64 "wide", .compare .slt ⟨4⟩ ⟨1⟩ "less", .compare .sgt ⟨4⟩ ⟨1⟩ "more",
    .binary .add ⟨3⟩ ⟨7⟩ "low", .binary .add ⟨9⟩ ⟨8⟩ "high", .ret none]

def row : Kernel := (Kernel.ofScript? "row" rowScript).getD (.empty "row")

/-- The product is listed for each way to it, and before each sum that takes it. Of the two
comparisons the one is named that is met first. -/
theorem operations_flatten_row : Kernel.ofScript? "row" rowScript = some row ∧
    row.operations ⟨6⟩ = .ok [⟨3⟩, ⟨4⟩, ⟨3⟩, ⟨5⟩] ∧ row.ComputesFrom ⟨5⟩ ⟨4⟩ ∧
    (∃ m < 3, ([⟨3⟩, ⟨4⟩, ⟨3⟩, ⟨5⟩] : List ValueId)[m]? = some ⟨4⟩) ∧
    row.operations ⟨10⟩ = .error (.rejected (.unsupportedOpcode "row" ⟨7⟩ .icmp)) := by
  have built : Kernel.ofScript? "row" rowScript = some row := rfl
  have hnext : row.instruction? ⟨5⟩ = some ⟨.add, [⟨4⟩, ⟨3⟩], none, []⟩ := by decide +kernel
  have hcell : row.instruction? ⟨4⟩ = some ⟨.add, [⟨3⟩, ⟨1⟩], none, []⟩ := by decide +kernel
  have hhigh : row.instruction? ⟨10⟩ = some ⟨.add, [⟨9⟩, ⟨8⟩], none, []⟩ := by decide +kernel
  have hlow : row.instruction? ⟨9⟩ = some ⟨.add, [⟨3⟩, ⟨7⟩], none, []⟩ := by decide +kernel
  have hless : row.instruction? ⟨7⟩ = some ⟨.icmp, [⟨4⟩, ⟨1⟩], some .slt, []⟩ := by decide +kernel
  have hwide : row.operations ⟨6⟩ = .ok [⟨3⟩, ⟨4⟩, ⟨3⟩, ⟨5⟩] := by
    rw [← Outcome.toOption_eq_some]
    decide +kernel
  have hproduct : row.flatten ⟨3⟩ = .ok [⟨3⟩] := by
    rw [← Outcome.toOption_eq_some]
    decide +kernel
  have takes : row.ComputesFrom ⟨5⟩ ⟨4⟩ := ⟨_, hnext, rfl, ⟨4⟩, by decide, by decide +kernel⟩
  have first : row.FirstMisplaced ⟨10⟩ ⟨7⟩ := by
    have outer : ([⟨9⟩, ⟨8⟩] : List ValueId) = [] ++ ⟨9⟩ :: [⟨8⟩] := rfl
    have inner : ([⟨3⟩, ⟨7⟩] : List ValueId) = [⟨3⟩] ++ ⟨7⟩ :: [] := rfl
    apply FirstMisplaced.operand hhigh rfl outer nofun
    apply FirstMisplaced.operand hlow rfl inner
    · intro y hy
      obtain rfl := List.mem_singleton.mp hy
      exact (exists_flatten_iff (ofScript?_wellFormed built) (by decide +kernel)).mp ⟨_, hproduct⟩
    · exact .here ⟨_, hless, rfl, by decide⟩
  obtain ⟨hlisted, -⟩ := operations_flatten built (v := ⟨6⟩) (by decide +kernel)
  obtain ⟨-, -, hrefused⟩ := operations_flatten built (v := ⟨10⟩) (by decide +kernel)
  obtain ⟨-, horder, -⟩ := hlisted _ hwide
  exact ⟨built, hwide, takes, horder 3 ⟨5⟩ ⟨4⟩ rfl takes ⟨_, hcell, rfl⟩,
    (hrefused _).mpr ⟨⟨7⟩, _, first, hless, rfl⟩⟩

end Datapath.Kernel
