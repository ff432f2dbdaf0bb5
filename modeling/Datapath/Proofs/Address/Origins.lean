import Datapath.Proofs.Address.Answers
import Datapath.Proofs.Address.Roots
import Mathlib.Logic.Relation

/-!
# Where an address comes from

The bases of an address expression are the arguments and globals that one comes to by going from
value to operand: from an address computation to its base and its indices, from a load to its
address, and from arithmetic to its operands. An index, the address of a load and an operand of
arithmetic are looked through if they are casts (`SeenAs`). A base is not, and of casts that stand
on each other only the outermost is.

`bases_listed_once` says that the bases are just these and that none is listed twice. An index that
is cast twice hides what it comes from, which `bases_incomplete_recast` shows.
-/

namespace Datapath.Kernel

open Relation (ReflTransGen)

variable {k : Kernel} {v o x b : ValueId}

/-! ## Looking through a cast -/

/-- `x` is a cast of `o`, or a branch on the condition `o`. -/
def StandsFor (k : Kernel) (x o : ValueId) : Prop :=
  ∃ i, k.instruction? x = some i ∧ (i.opcode = .trunc ∨ i.opcode = .zext ∨ i.opcode = .condBr) ∧
    i.operands[0]? = some o

/-- `x` is seen as what it stands for, or as itself if it stands for nothing else. -/
inductive SeenAs (k : Kernel) (x : ValueId) : ValueId → Prop
  | through {o : ValueId} (cast : k.StandsFor x o) : SeenAs k x o
  | plain (solid : ∀ o, ¬ k.StandsFor x o) : SeenAs k x x

/-- What a value stands for is what is underneath it. -/
theorem underlying_of_standsFor (h : k.StandsFor x o) : k.underlying x = o := by
  obtain ⟨i, hi, hop, hfirst⟩ := h
  unfold underlying
  rcases hop with hop | hop | hop <;>
    simp [hi, hop, Opcode.isCast, Instruction.condition?, Instruction.operand?, hfirst]

theorem underlying_eq_self_or_standsFor (k : Kernel) (x : ValueId) :
    k.underlying x = x ∨ k.StandsFor x (k.underlying x) := by
  rcases k.underlying_cases x with hself | ⟨i, hi, hfirst, hcast | hbranch⟩
  · exact .inl hself
  · refine .inr ⟨i, hi, ?_, hfirst⟩
    cases hop : i.opcode <;> simp [hop, Opcode.isCast] at hcast ⊢
  · exact .inr ⟨i, hi, .inr (.inr hbranch), hfirst⟩

/-- A value is seen as what is underneath. -/
theorem seenAs_iff : k.SeenAs x o ↔ k.underlying x = o := by
  constructor
  · intro h
    cases h with
    | through cast => exact underlying_of_standsFor cast
    | plain solid => exact (k.underlying_eq_self_or_standsFor _).resolve_right (solid _)
  · rintro rfl
    -- what is underneath is the value itself unless it stands for another
    by_cases cast : ∃ o, k.StandsFor x o
    · obtain ⟨o, ho⟩ := cast
      rw [underlying_of_standsFor ho]
      exact .through ho
    · have solid (o : ValueId) : ¬ k.StandsFor x o := fun h => cast ⟨o, h⟩
      rw [(k.underlying_eq_self_or_standsFor x).resolve_right (solid _)]
      exact .plain solid

/-! ## Steps down -/

/-- One step down from the address expression `v`. -/
inductive StepsTo (k : Kernel) (v : ValueId) : ValueId → Prop
  | base {i : Instruction} {o : ValueId} (known : k.instruction? v = some i)
      (opcode : i.opcode = .getElementPtr) (first : i.operands[0]? = some o) : StepsTo k v o
  | index {i : Instruction} {n : Nat} {x o : ValueId} (known : k.instruction? v = some i)
      (opcode : i.opcode = .getElementPtr) (later : i.operands[n + 1]? = some x)
      (seen : k.SeenAs x o) : StepsTo k v o
  | address {i : Instruction} {x o : ValueId} (known : k.instruction? v = some i)
      (opcode : i.opcode = .load) (first : i.operands[0]? = some x) (seen : k.SeenAs x o) :
      StepsTo k v o
  | operand {i : Instruction} {x o : ValueId} (known : k.instruction? v = some i)
      (arithmetic : i.opcode.isArithmetic = true) (operand : x ∈ i.operands)
      (seen : k.SeenAs x o) : StepsTo k v o

/-- The steps down are those to the inputs of an address. -/
theorem stepsTo_iff : k.StepsTo v o ↔ ∃ i, k.instruction? v = some i ∧ o ∈ k.addressInputs i := by
  constructor
  · intro h
    cases h with
    | @base i _ known opcode first =>
        exact ⟨i, known, by simp [addressInputs, opcode, Instruction.address?,
          Instruction.operand?, first]⟩
    | @index i n x _ known opcode later seen =>
        refine ⟨i, known, ?_⟩
        -- the indices are the operands behind the first one
        have hx : x ∈ i.indices := by
          rw [Instruction.indices, opcode]
          exact List.mem_of_getElem? (by rwa [List.getElem?_drop, Nat.add_comm])
        rw [← seenAs_iff.mp seen]
        simp only [addressInputs, opcode, List.mem_append]
        exact .inr (List.mem_map_of_mem hx)
    | @address i x _ known opcode first seen =>
        exact ⟨i, known, by simp [addressInputs, opcode, Instruction.address?,
          Instruction.operand?, first, seenAs_iff.mp seen]⟩
    | @operand i x _ known arithmetic operand seen =>
        refine ⟨i, known, ?_⟩
        rw [← seenAs_iff.mp seen]
        cases hop : i.opcode <;> simp [hop, Opcode.isArithmetic] at arithmetic <;>
          simpa [addressInputs, hop] using ⟨x, operand, rfl⟩
  · rintro ⟨i, hi, ho⟩
    cases hop : i.opcode with
    | getElementPtr =>
        simp only [addressInputs, hop, List.mem_append, Option.mem_toList, List.mem_map] at ho
        rcases ho with ho | ⟨x, hx, rfl⟩
        · exact .base hi hop (by simpa [Instruction.address?, Instruction.operand?, hop] using ho)
        · rw [Instruction.indices, hop] at hx
          obtain ⟨n, hn⟩ := List.mem_iff_getElem?.mp hx
          rw [List.getElem?_drop, Nat.add_comm] at hn
          exact .index hi hop hn (seenAs_iff.mpr rfl)
    | load =>
        simp only [addressInputs, hop, List.mem_map, Option.mem_toList] at ho
        obtain ⟨x, hx, rfl⟩ := ho
        refine .address hi hop ?_ (seenAs_iff.mpr rfl)
        simpa [Instruction.address?, Instruction.operand?, hop] using hx
    | add | sub | mul | sdiv | udiv | ashr =>
        simp only [addressInputs, hop, List.mem_map] at ho
        obtain ⟨x, hx, rfl⟩ := ho
        exact .operand hi (by rw [hop]; rfl) hx (seenAs_iff.mpr rfl)
    | _ => simp [addressInputs, hop] at ho

/-- Roots are the arguments and globals that steps down lead to. -/
theorem rootedIn_iff : k.RootedIn v b ↔
    ReflTransGen k.StepsTo v b ∧ ∃ x, k.value? b = some x ∧ x.isBase = true := by
  constructor
  · intro h
    refine ⟨?_, h.isBase⟩
    induction h with
    | base => exact .refl
    | step known input _ ih => exact .head (stepsTo_iff.mpr ⟨_, known, input⟩) ih
  · rintro ⟨way, x, hx, base⟩
    induction way using ReflTransGen.head_induction_on with
    | refl => exact .base hx base
    | head step _ ih =>
        obtain ⟨i, known, input⟩ := stepsTo_iff.mp step
        exact .step known input ih

/-! ## Collecting -/

/-- A base is added if it is not there yet. -/
theorem nodup_addBase {found : List ValueId} (h : found.Nodup) (v : ValueId) :
    (addBase found v).Nodup := by
  unfold addBase
  split
  · exact h
  · next hv => exact List.nodup_append.mpr ⟨h, List.nodup_singleton v, by grind⟩

/-- Nothing is collected twice. -/
theorem nodup_collectBases {v : ValueId} {found l : List ValueId} (hfound : found.Nodup)
    (h : k.collectBases found v = .ok l) : l.Nodup := by
  rw [collectBases] at h
  split at h
  · cases h
  · next x hx =>
    cases hk : x.kind with
    | constant =>
        simp only [hk] at h
        rwa [← Outcome.pure_eq_ok.mp h]
    | argument | global =>
        simp only [hk] at h
        rw [← Outcome.pure_eq_ok.mp h]
        exact nodup_addBase hfound v
    | instruction i block =>
        simp only [hk] at h
        -- the bases of the inputs are collected one after the other, into the same list
        refine Outcome.foldlM_induction (motive := List.Nodup) (fun found o l hnodup ho => ?_)
          hfound h
        split at ho
        · exact nodup_collectBases hnodup ho
        · cases ho
termination_by v.index

/-- **The bases of an address** can be collected. None is listed twice, and they are the arguments
and globals that steps down lead to. -/
theorem bases_listed_once {name : String} {script : List Step} {k : Kernel}
    (built : Kernel.ofScript? name script = some k) {v : ValueId} (hv : v.index < k.size) :
    ∃ l, k.bases v = .ok l ∧ l.Nodup ∧ ∀ b, b ∈ l ↔
      ReflTransGen k.StepsTo v b ∧ ∃ x, k.value? b = some x ∧ x.isBase = true := by
  obtain ⟨l, hl⟩ := exists_bases (ofScript?_wellFormed built) hv
  refine ⟨l, hl, nodup_collectBases List.nodup_nil hl, fun b => ?_⟩
  rw [mem_bases hl, rootedIn_iff]

/-- The index of an element is loaded from a table and multiplied by that of the entry. -/
def nestedScript : List Step :=
  [.param "a" (.pointer (.int 32)), .param "table" (.pointer (.int 32)), .param "i" (.int 8),
    .block "entry", .moveTo ⟨0⟩, .cast .zext ⟨2⟩ 32 "wide", .elementPointer ⟨1⟩ [⟨3⟩] "entry",
    .load ⟨4⟩ "j", .binary .mul ⟨5⟩ ⟨3⟩ "offset", .elementPointer ⟨0⟩ [⟨6⟩] "element", .ret none]

def nested : Kernel := (Kernel.ofScript? "nested" nestedScript).getD (.empty "nested")

/-- The index of the entry is come to in two ways, through a cast each time. -/
theorem bases_listed_once_nested : Kernel.ofScript? "nested" nestedScript = some nested ∧
    nested.bases ⟨7⟩ = .ok [⟨0⟩, ⟨1⟩, ⟨2⟩] ∧ ReflTransGen nested.StepsTo ⟨7⟩ ⟨2⟩ := by
  have built : Kernel.ofScript? "nested" nestedScript = some nested := rfl
  have hbases : nested.bases ⟨7⟩ = .ok [⟨0⟩, ⟨1⟩, ⟨2⟩] := by
    rw [← Outcome.toOption_eq_some]
    decide +kernel
  obtain ⟨l, hl, -, hmem⟩ := bases_listed_once built (v := ⟨7⟩) (by decide +kernel)
  obtain rfl := Except.ok.inj (hbases.symm.trans hl)
  exact ⟨built, hbases, ((hmem ⟨2⟩).mp (by decide)).1⟩

/-! ## Casts on casts -/

/-- One operand further from `v`, through address computations, arithmetic and any cast, and from a
load to its address. -/
inductive LeansOn (k : Kernel) (v : ValueId) : ValueId → Prop
  | operand {i : Instruction} {o : ValueId} (known : k.instruction? v = some i)
      (passes : i.opcode = .getElementPtr ∨ i.opcode.isArithmetic = true ∨ i.opcode.isCast = true)
      (operand : o ∈ i.operands) : LeansOn k v o
  | address {i : Instruction} {o : ValueId} (known : k.instruction? v = some i)
      (opcode : i.opcode = .load) (address : i.address? = some o) : LeansOn k v o

/-- An index is widened and made narrow again. -/
def recastScript : List Step :=
  [.param "p" (.pointer (.int 8)), .param "i" (.int 8), .block "entry", .moveTo ⟨0⟩,
    .cast .zext ⟨1⟩ 16 "wide", .cast .trunc ⟨2⟩ 8 "narrow", .elementPointer ⟨0⟩ [⟨3⟩] "element",
    .ret none]

def recast : Kernel := (Kernel.ofScript? "recast" recastScript).getD (.empty "recast")

/-- The element depends on `i`, but `i` is not among the bases of its address. It is not even among
those of the cast that it stands under. -/
theorem bases_incomplete_recast : Kernel.ofScript? "recast" recastScript = some recast ∧
    ∀ v ∈ [(⟨2⟩ : ValueId), ⟨4⟩], ∃ l, recast.bases v = .ok l ∧ ¬ ∀ b, b ∈ l ↔
      ReflTransGen recast.LeansOn v b ∧ ∃ x, recast.value? b = some x ∧ x.isBase = true := by
  have hwide : recast.instruction? ⟨2⟩ = some ⟨.zext, [⟨1⟩], none, []⟩ := by decide +kernel
  have hnarrow : recast.instruction? ⟨3⟩ = some ⟨.trunc, [⟨2⟩], none, []⟩ := by decide +kernel
  have helement : recast.instruction? ⟨4⟩ = some ⟨.getElementPtr, [⟨0⟩, ⟨3⟩], none, []⟩ := by
    decide +kernel
  have cast : recast.LeansOn ⟨2⟩ ⟨1⟩ := .operand hwide (.inr (.inr rfl)) (by decide)
  -- `i` is an argument, and a way leads to it
  have missed {v : ValueId} {l : List ValueId} (way : ReflTransGen recast.LeansOn v ⟨1⟩)
      (hnot : ⟨1⟩ ∉ l) : ¬ ∀ b, b ∈ l ↔
        ReflTransGen recast.LeansOn v b ∧ ∃ x, recast.value? b = some x ∧ x.isBase = true :=
    fun h => hnot ((h ⟨1⟩).mpr ⟨way, _, rfl, rfl⟩)
  refine ⟨rfl, List.forall_mem_cons.mpr ⟨⟨[], ?_, missed (.single cast) (by decide)⟩,
    List.forall_mem_singleton.mpr ⟨[⟨0⟩], ?_, missed ?_ (by decide)⟩⟩⟩
  · rw [← Outcome.toOption_eq_some]
    decide +kernel
  · rw [← Outcome.toOption_eq_some]
    decide +kernel
  · -- from the element to the index, and through both casts to `i`
    apply ReflTransGen.head (b := ⟨3⟩) (.operand helement (.inl rfl) (by decide))
    apply ReflTransGen.head (b := ⟨2⟩) (.operand hnarrow (.inr (.inr rfl)) (by decide))
    exact .single cast

end Datapath.Kernel
