import Datapath.Width.Inference
import Datapath.Proofs.Kernel.WellFormed
import Datapath.Proofs.Width.Order

/-!
# Handling values, as a relation

`Handles k vs p c q` says that handling the values `vs` one after the other leads from progress `p`
to progress `q`, and that `c` is the answer whether this counted as a change. It has one constructor
for each way in which a single value can be handled, and none for handling that fails.

`Handles.iff_visitAll` is the agreement with `Infer.process`. Everything that inference preserves is
an induction over `Handles`, and none of these opens the monad again.
-/

namespace Datapath

/-! ## Progress -/

namespace Progress

def width? (p : Progress) (v : ValueId) : Option Nat := p.widths.width? v

def mark (p : Progress) (v : ValueId) : Progress := { p with visited := v :: p.visited }

def raise (p : Progress) (v : ValueId) (bits : Nat) : Progress :=
  { p with widths := (p.widths.raise v bits).2 }

def grows (p : Progress) (v : ValueId) (bits : Nat) : Bool := (p.widths.raise v bits).1

@[simp] theorem width?_mark (p : Progress) (v u : ValueId) : (p.mark v).width? u = p.width? u := rfl

@[simp] theorem visited_mark (p : Progress) (v : ValueId) :
    (p.mark v).visited = v :: p.visited := rfl

@[simp] theorem visited_raise (p : Progress) (v : ValueId) (bits : Nat) :
    (p.raise v bits).visited = p.visited := rfl

theorem le_raise (p : Progress) (v : ValueId) (bits : Nat) (u : ValueId) :
    p.width? u ≤ (p.raise v bits).width? u :=
  p.widths.le_raise v bits u

theorem le_raise_self (p : Progress) (v : ValueId) (bits : Nat) :
    some bits ≤ (p.raise v bits).width? v :=
  p.widths.le_raise_self v bits

theorem raise_le {p : Progress} {v : ValueId} {bits : Nat} {w : ValueId → Option Nat}
    (below : ∀ u, p.width? u ≤ w u) (room : some bits ≤ w v) (u : ValueId) :
    (p.raise v bits).width? u ≤ w u :=
  Widths.raise_le below room u

theorem width?_raise_self (p : Progress) (v : ValueId) (bits : Nat) :
    (p.raise v bits).width? v = Width.join (p.width? v) (some bits) :=
  (p.widths.width?_raise v v bits).trans (if_pos rfl)

theorem width?_raise_of_ne {p : Progress} {v u : ValueId} {bits : Nat} (h : v ≠ u) :
    (p.raise v bits).width? u = p.width? u :=
  Widths.width?_raise_of_ne h

/-- Raising gives a width to one value at most. -/
theorem isSome_width?_raise {p : Progress} {v u : ValueId} {bits : Nat}
    (h : ((p.raise v bits).width? u).isSome) : (p.width? u).isSome ∨ u = v := by
  by_cases e : v = u
  · exact .inr e.symm
  · rw [width?_raise_of_ne e] at h
    exact .inl h

theorem raise_eq_self {p : Progress} {v : ValueId} {bits : Nat} (h : p.grows v bits = false) :
    p.raise v bits = p := by
  unfold raise
  rw [Widths.raise_eq_self h]

theorem grows_eq_false {p : Progress} {v : ValueId} {bits : Nat} :
    p.grows v bits = false ↔ some bits ≤ p.width? v :=
  Widths.raise_fst_eq_false

end Progress

/-! ## The relation -/

/-- Handling values one after the other. The premises of a rule are in the order in which the rule
goes about it: an operand is handled before its width is read, and the width of the left operand of
arithmetic is read before the right operand is handled. -/
inductive Handles (k : Kernel) : List ValueId → Progress → Bool → Progress → Prop
  | nil (p : Progress) : Handles k [] p false p
  | cons {v w : ValueId} {vs : List ValueId} {p q r : Progress} {here later : Bool}
      (first : Handles k [v] p here q) (rest : Handles k (w :: vs) q later r) :
      Handles k (v :: w :: vs) p (here || later) r
  /-- A value that was handled in this pass is not handled again. -/
  | visited {v : ValueId} {p : Progress} {x : Value} (known : k.value? v = some x)
      (old : v ∈ p.visited) : Handles k [v] p false p
  /-- An argument or a global keeps the width it has. -/
  | seeded {v : ValueId} {p : Progress} {x : Value} (known : k.value? v = some x)
      (new : v ∉ p.visited) (base : x.isBase = true) (has : (p.width? v).isSome) :
      Handles k [v] p false (p.mark v)
  /-- An argument or a global without a width gets that of its type. -/
  | natural {v : ValueId} {p : Progress} {x : Value} {bits : Nat} (known : k.value? v = some x)
      (new : v ∉ p.visited) (base : x.isBase = true) (missing : p.width? v = none)
      (type : x.type.naturalWidth? = some bits) :
      Handles k [v] p ((p.mark v).grows v bits) ((p.mark v).raise v bits)
  | constant {v : ValueId} {p : Progress} {x : Value} {c : Int} (known : k.value? v = some x)
      (new : v ∉ p.visited) (kind : x.kind = .constant c) :
      Handles k [v] p ((p.mark v).grows v (Width.ofConstant c))
        ((p.mark v).raise v (Width.ofConstant c))
  | arithmetic {v l r : ValueId} {i : Instruction} {p q s : Progress} {c d : Bool} {a b : Nat}
      (known : k.instruction? v = some i) (new : v ∉ p.visited)
      (opcode : i.opcode.isArithmetic = true) (left : i.operand? 0 = some l)
      (handled : Handles k [l] (p.mark v) c q) (width : q.width? l = some a)
      (right : i.operand? 1 = some r) (handled' : Handles k [r] q d s)
      (width' : s.width? r = some b) :
      Handles k [v] p (s.grows v (max a b)) (s.raise v (max a b))
  | comparison {v l r : ValueId} {i : Instruction} {p q s : Progress} {c d : Bool}
      (known : k.instruction? v = some i) (new : v ∉ p.visited) (opcode : i.opcode = .icmp)
      (left : i.operand? 0 = some l) (handled : Handles k [l] (p.mark v) c q)
      (right : i.operand? 1 = some r) (handled' : Handles k [r] q d s) :
      Handles k [v] p (s.grows v 1) (s.raise v 1)
  | elementPointer {v base : ValueId} {i : Instruction} {p q s : Progress} {c : Bool} {a bits : Nat}
      (known : k.instruction? v = some i) (new : v ∉ p.visited)
      (opcode : i.opcode = .getElementPtr) (start : i.operand? 0 = some base)
      (handled : Handles k (base :: i.indices) (p.mark v) c q) (width : q.width? base = some a)
      (wider : bits = max a ((q.width? v).getD 0)) (raised : s = q.raise v bits) :
      Handles k [v] p (c || q.grows v bits || s.grows base bits) (s.raise base bits)
  /-- Loads, casts and returns of a value. -/
  | copy {v o : ValueId} {i : Instruction} {p q : Progress} {c : Bool} {a : Nat}
      (known : k.instruction? v = some i) (new : v ∉ p.visited)
      (opcode : i.opcode ∈ [.load, .trunc, .zext, .ret]) (operand : i.operand? 0 = some o)
      (handled : Handles k [o] (p.mark v) c q) (width : q.width? o = some a) :
      Handles k [v] p (q.grows v a) (q.raise v a)
  | store {v stored address : ValueId} {i : Instruction} {p q s t : Progress} {c d : Bool} {a : Nat}
      (known : k.instruction? v = some i) (new : v ∉ p.visited) (opcode : i.opcode = .store)
      (data : i.operand? 0 = some stored) (handled : Handles k [stored] (p.mark v) c q)
      (width : q.width? stored = some a) (target : i.operand? 1 = some address)
      (handled' : Handles k [address] q d s) (raised : t = s.raise address a) :
      Handles k [v] p (d || s.grows address a || t.grows v a) (t.raise v a)
  | returnVoid {v : ValueId} {i : Instruction} {p : Progress} (known : k.instruction? v = some i)
      (new : v ∉ p.visited) (opcode : i.opcode = .ret) (bare : i.operand? 0 = .none) :
      Handles k [v] p false (p.mark v)
  | jump {v : ValueId} {i : Instruction} {p : Progress} (known : k.instruction? v = some i)
      (new : v ∉ p.visited) (opcode : i.opcode = .br) :
      Handles k [v] p ((p.mark v).grows v 0) ((p.mark v).raise v 0)
  | branch {v condition : ValueId} {i : Instruction} {p q : Progress} {c : Bool}
      (known : k.instruction? v = some i) (new : v ∉ p.visited) (opcode : i.opcode = .condBr)
      (operand : i.operand? 0 = some condition) (handled : Handles k [condition] (p.mark v) c q) :
      Handles k [v] p (c || q.grows v 0) (q.raise v 0)

/-! ## Parts of the rules -/

namespace Infer

@[simp] theorem raise_eq_ok {v : ValueId} {bits : Nat} {p q : Progress} {c : Bool} :
    raise v bits p = .ok c q ↔ p.grows v bits = c ∧ p.raise v bits = q := by
  unfold raise
  rw [Run.modifyGet_eq_ok, Prod.mk.injEq]
  exact Iff.rfl

@[simp] theorem width_eq_ok {v : ValueId} {p q : Progress} {bits : Nat} :
    width v p = .ok bits q ↔ p.width? v = some bits ∧ p = q := by
  unfold width
  rw [Run.bind_eq_ok]
  simp [Widths.width_eq_ok, Progress.width?, and_comm]

@[simp] theorem operand_eq_ok {v o : ValueId} {i : Instruction} {n : Nat} {p q : Progress} :
    operand v i n p = .ok o q ↔ i.operand? n = some o ∧ p = q := by
  unfold operand
  cases i.operand? n <;> simp

variable {visit : ValueId → Infer Bool} {v : ValueId} {i : Instruction} {p q : Progress} {c : Bool}

/-- The width of an operand is read once it was visited. -/
theorem widthOf_eq_ok {o : ValueId} {bits : Nat} :
    widthOf visit o p = .ok bits q ↔ ∃ c, visit o p = .ok c q ∧ q.width? o = some bits := by
  unfold widthOf
  simp [Run.bind_eq_ok]

/-- Visits follow one another, and one change among them is a change. -/
theorem visitAll_cons_eq_ok {o : ValueId} {rest : List ValueId} :
    visitAll visit (o :: rest) p = .ok c q ↔
      ∃ here later r, visit o p = .ok here r ∧ visitAll visit rest r = .ok later q ∧
        (here || later) = c := by
  rw [visitAll]
  simp only [Run.bind_eq_ok, Run.pure_eq_ok]
  grind

theorem visitAll_singleton_eq_ok {o : ValueId} :
    visitAll visit [o] p = .ok c q ↔ visit o p = .ok c q := by
  rw [visitAll_cons_eq_ok]
  simp [visitAll]

theorem arithmeticRule_eq_ok :
    arithmeticRule visit v i p = .ok c q ↔
      ∃ l r s t d e a b, i.operand? 0 = some l ∧ visit l p = .ok d s ∧ s.width? l = some a ∧
        i.operand? 1 = some r ∧ visit r s = .ok e t ∧ t.width? r = some b ∧
        t.grows v (max a b) = c ∧ t.raise v (max a b) = q := by
  unfold arithmeticRule
  simp only [Run.bind_eq_ok, operand_eq_ok, widthOf_eq_ok, raise_eq_ok]
  grind

theorem comparisonRule_eq_ok :
    comparisonRule visit v i p = .ok c q ↔
      ∃ l r s t d e, i.operand? 0 = some l ∧ visit l p = .ok d s ∧
        i.operand? 1 = some r ∧ visit r s = .ok e t ∧ t.grows v 1 = c ∧ t.raise v 1 = q := by
  unfold comparisonRule
  simp only [Run.bind_eq_ok, operand_eq_ok, raise_eq_ok]
  grind

theorem elementPointerRule_eq_ok :
    elementPointerRule visit v i p = .ok c q ↔
      ∃ base s d a bits, i.operand? 0 = some base ∧
        visitAll visit (base :: i.indices) p = .ok d s ∧ s.width? base = some a ∧
        bits = max a ((s.width? v).getD 0) ∧
        (d || s.grows v bits || (s.raise v bits).grows base bits) = c ∧
        (s.raise v bits).raise base bits = q := by
  unfold elementPointerRule
  simp only [Run.bind_eq_ok, Run.pure_eq_ok, Run.get_eq_ok, operand_eq_ok, width_eq_ok, raise_eq_ok]
  constructor
  · rintro ⟨base, _, ⟨hbase, rfl⟩, d, s, hvisit, a, _, ⟨ha, rfl⟩, _, _, ⟨rfl, rfl⟩, _, _,
      ⟨rfl, rfl⟩, _, _, ⟨rfl, rfl⟩, hc, hq⟩
    exact ⟨base, s, d, a, _, hbase, hvisit, ha, rfl, hc, hq⟩
  · rintro ⟨base, s, d, a, _, hbase, hvisit, ha, rfl, hc, hq⟩
    exact ⟨base, _, ⟨hbase, rfl⟩, d, s, hvisit, a, _, ⟨ha, rfl⟩, _, _, ⟨rfl, rfl⟩, _, _,
      ⟨rfl, rfl⟩, _, _, ⟨rfl, rfl⟩, hc, hq⟩

/-- A copy takes on the width of its operand. -/
theorem copyRule_eq_ok {o : ValueId} :
    copyRule visit v o p = .ok c q ↔
      ∃ s d a, visit o p = .ok d s ∧ s.width? o = some a ∧ s.grows v a = c ∧
        s.raise v a = q := by
  unfold copyRule
  simp only [Run.bind_eq_ok, widthOf_eq_ok, raise_eq_ok]
  grind

/-- A store raises its address and itself to the width of what is stored. The answer of the visit of
the data is dropped. -/
theorem storeRule_eq_ok :
    storeRule visit v i p = .ok c q ↔
      ∃ stored address s t d e a, i.operand? 0 = some stored ∧ visit stored p = .ok d s ∧
        s.width? stored = some a ∧ i.operand? 1 = some address ∧ visit address s = .ok e t ∧
        (e || t.grows address a || (t.raise address a).grows v a) = c ∧
        (t.raise address a).raise v a = q := by
  unfold storeRule
  simp only [Run.bind_eq_ok, Run.pure_eq_ok, operand_eq_ok, widthOf_eq_ok, raise_eq_ok]
  grind

theorem branchRule_eq_ok :
    branchRule visit v i p = .ok c q ↔
      ∃ condition s d, i.operand? 0 = some condition ∧ visit condition p = .ok d s ∧
        (d || s.grows v 0) = c ∧ s.raise v 0 = q := by
  unfold branchRule
  simp only [Run.bind_eq_ok, Run.pure_eq_ok, operand_eq_ok, raise_eq_ok]
  grind

/-- A width that is there is left alone, and one that is missing comes from the type. -/
theorem seedMissing_eq_ok {type : Ty} :
    seedMissing v type p = .ok c q ↔
      (p.width? v).isSome ∧ c = false ∧ q = p ∨
        p.width? v = none ∧ ∃ bits, type.naturalWidth? = some bits ∧ p.grows v bits = c ∧
          p.raise v bits = q := by
  unfold seedMissing naturalWidth
  simp only [Run.bind_eq_ok, Run.get_eq_ok]
  have hhas : p.widths.has v = (p.width? v).isSome := rfl
  cases hw : p.width? v with
  | some bits => simp [hhas, hw, eq_comm]
  | none => cases type.naturalWidth? <;> simp [hhas, hw, Run.bind_eq_ok]

variable {k : Kernel} {block : BlockId}

theorem rule_of_isArithmetic (h : i.opcode.isArithmetic = true) :
    rule visit k v i block = arithmeticRule visit v i := by
  cases ho : i.opcode <;> simp_all [rule, Opcode.isArithmetic]

/-- A value that counts as handled is passed over. -/
theorem process_visited {x : Value} (known : k.value? v = some x) (old : v ∈ p.visited) :
    process k v p = .ok false p := by
  have hget : isVisited v p = .ok true p := by
    show EStateM.Result.ok (decide (v ∈ p.visited)) p = _
    rw [decide_eq_true old]
  rw [process, known]
  show EStateM.bind _ _ p = _
  unfold EStateM.bind
  rw [hget]
  rfl

/-- Any other counts as handled from then on, and its rule is applied. -/
theorem process_new {x : Value} (known : k.value? v = some x) (new : v ∉ p.visited) :
    process k v p =
      (match x.kind with
      | .argument _ => seedMissing v x.type
      | .global => seedMissing v x.type
      | .constant c => raise v (Width.ofConstant c)
      | .instruction i block =>
        rule (fun o => if o.index < v.index then process k o else throw (Fault.outOfRange o.index))
          k v i block)
      (p.mark v) := by
  have hget : isVisited v p = .ok false p := by
    show EStateM.Result.ok (decide (v ∈ p.visited)) p = _
    rw [decide_eq_false new]
  rw [process, known]
  show EStateM.bind _ _ p = _
  unfold EStateM.bind
  rw [hget]
  rfl

/-- Only what is visited matters. -/
theorem visitAll_congr {visit' : ValueId → Infer Bool} {vs : List ValueId}
    (h : ∀ o ∈ vs, visit o = visit' o) : visitAll visit vs = visitAll visit' vs := by
  induction vs with
  | nil => rfl
  | cons o rest ih =>
      rw [visitAll, visitAll, h o List.mem_cons_self]
      rw [ih fun u hu => h u (List.mem_cons_of_mem o hu)]

/-- In a well-formed kernel the operands of an instruction are within reach of `process`, so a run
of the instruction's rule is a run of `process` as long as `visit` agrees with it on them. -/
theorem visitAll_process_of_rule (wf : k.WellFormed) (known : k.instruction? v = some i)
    (new : v ∉ p.visited)
    (h : ∀ visit block, (∀ o ∈ i.operands, visit o = process k o) →
      rule visit k v i block (p.mark v) = .ok c q) :
    visitAll (process k) [v] p = .ok c q := by
  obtain ⟨x, hx, hxi⟩ := Option.bind_eq_some_iff.mp known
  rw [visitAll_singleton_eq_ok, process_new hx new]
  cases hk : x.kind with
  | instruction j block =>
      obtain rfl : j = i := by simpa [Value.instruction?, hk] using hxi
      apply h
      intro o ho
      exact if_pos (wf.operand_lt known ho)
  | _ => simp [Value.instruction?, hk] at hxi

end Infer

/-! ## Agreement -/

namespace Handles

open Infer

variable {k : Kernel} {v : ValueId} {vs : List ValueId} {p q : Progress} {c : Bool}

/-- A derivation for a list is one for its head and one for its tail. -/
theorem cons_iff : Handles k (v :: vs) p c q ↔
    ∃ here later r, Handles k [v] p here r ∧ Handles k vs r later q ∧ (here || later) = c := by
  cases vs with
  | nil =>
      constructor
      · intro h
        exact ⟨c, false, q, h, .nil q, Bool.or_false c⟩
      · rintro ⟨here, later, r, h, hnil, rfl⟩
        cases hnil
        rwa [Bool.or_false]
  | cons w vs =>
      constructor
      · intro h
        cases h with
        | cons first rest => exact ⟨_, _, _, first, rest, rfl⟩
      · rintro ⟨here, later, r, first, rest, rfl⟩
        exact .cons first rest

/-- Visits in a row are a derivation for the list, if each of them is one for its value. -/
theorem of_visitAll {visit : ValueId → Infer Bool}
    (hv : ∀ {o p c q}, visit o p = .ok c q → Handles k [o] p c q)
    (h : visitAll visit vs p = .ok c q) : Handles k vs p c q := by
  induction vs generalizing p c with
  | nil =>
      obtain ⟨rfl, rfl⟩ := Run.pure_eq_ok.mp h
      exact .nil p
  | cons o rest ih =>
      obtain ⟨here, later, r, ho, hrest, rfl⟩ := visitAll_cons_eq_ok.mp h
      exact cons_iff.mpr ⟨here, later, r, hv ho, ih hrest, rfl⟩

/-- A rule takes a value from where it counts as handled to where it is handled, as long as `visit`
handles operands. -/
theorem of_rule {visit : ValueId → Infer Bool} {i : Instruction} {block : BlockId}
    (hv : ∀ {o p c q}, visit o p = .ok c q → Handles k [o] p c q)
    (known : k.instruction? v = some i) (new : v ∉ p.visited)
    (h : rule visit k v i block (p.mark v) = .ok c q) : Handles k [v] p c q := by
  by_cases harith : i.opcode.isArithmetic = true
  · rw [rule_of_isArithmetic harith, arithmeticRule_eq_ok] at h
    obtain ⟨l, r, s, t, d, e, a, b, hl, hvl, ha, hr, hvr, hb, rfl, rfl⟩ := h
    exact .arithmetic known new harith hl (hv hvl) ha hr (hv hvr) hb
  · cases ho : i.opcode with
    | add | sub | mul | sdiv | udiv | ashr => simp [ho, Opcode.isArithmetic] at harith
    | icmp =>
        simp only [rule, ho, comparisonRule_eq_ok] at h
        obtain ⟨l, r, s, t, d, e, hl, hvl, hr, hvr, rfl, rfl⟩ := h
        exact .comparison known new ho hl (hv hvl) hr (hv hvr)
    | getElementPtr =>
        simp only [rule, ho, elementPointerRule_eq_ok] at h
        obtain ⟨base, s, d, a, bits, hbase, hvs, ha, hbits, rfl, rfl⟩ := h
        exact .elementPointer known new ho hbase (of_visitAll hv hvs) ha hbits rfl
    | load | trunc | zext =>
        simp only [rule, ho, Run.bind_eq_ok, operand_eq_ok, copyRule_eq_ok] at h
        obtain ⟨o, _, ⟨hop, rfl⟩, s, d, a, hvo, ha, rfl, rfl⟩ := h
        exact .copy known new (by simp [ho]) hop (hv hvo) ha
    | store =>
        simp only [rule, ho, storeRule_eq_ok] at h
        obtain ⟨stored, address, s, t, d, e, a, hs, hvs, ha, hd, hvd, rfl, rfl⟩ := h
        exact .store known new ho hs (hv hvs) ha hd (hv hvd) rfl
    | ret =>
        -- a return may have no operand
        cases hop : i.operand? 0 with
        | none =>
            simp only [rule, ho, hop, Run.pure_eq_ok] at h
            obtain ⟨rfl, rfl⟩ := h
            exact .returnVoid known new ho hop
        | some o =>
            simp only [rule, ho, hop, copyRule_eq_ok] at h
            obtain ⟨s, d, a, hvo, ha, rfl, rfl⟩ := h
            exact .copy known new (by simp [ho]) hop (hv hvo) ha
    | br =>
        simp only [rule, ho, raise_eq_ok] at h
        obtain ⟨rfl, rfl⟩ := h
        exact .jump known new ho
    | condBr =>
        simp only [rule, ho, branchRule_eq_ok] at h
        obtain ⟨condition, s, d, hop, hvc, rfl, rfl⟩ := h
        exact .branch known new ho hop (hv hvc)
    | switch => simp [rule, ho, Run.bind_eq_ok] at h
    | phi | call | and | or | xor | shl | lshr | sext | select => simp [rule, ho] at h

theorem isBase_of_kind {x : Value} {n : Nat} (h : x.kind = .argument n ∨ x.kind = .global) :
    x.isBase = true := by
  rcases h with h | h <;> simp [Value.isBase, Value.isArgument, Value.isGlobal, h]

/-- Every run of `process` is a derivation. The recursion is that of `process`, down the numbers of
the values. -/
theorem of_process {v : ValueId} {p q : Progress} {c : Bool} (h : process k v p = .ok c q) :
    Handles k [v] p c q := by
  cases hx : k.value? v with
  | none =>
      rw [process, hx] at h
      exact absurd h Run.throw_eq_ok
  | some x =>
      by_cases old : v ∈ p.visited
      · rw [process_visited hx old] at h
        cases h
        exact .visited hx old
      · rw [process_new hx old] at h
        -- the two sorts of bases are handled alike
        have hseed (hb : x.isBase = true) (h : seedMissing v x.type (p.mark v) = .ok c q) :
            Handles k [v] p c q := by
          rcases seedMissing_eq_ok.mp h with ⟨has, rfl, rfl⟩ | ⟨missing, bits, type, rfl, rfl⟩
          · exact .seeded hx old hb has
          · exact .natural hx old hb missing type
        cases hk : x.kind with
        | argument n =>
            rw [hk] at h
            exact hseed (isBase_of_kind (.inl hk)) h
        | global =>
            rw [hk] at h
            exact hseed (isBase_of_kind (n := 0) (.inr hk)) h
        | constant value =>
            rw [hk] at h
            obtain ⟨rfl, rfl⟩ := raise_eq_ok.mp h
            exact .constant hx old hk
        | instruction i block =>
            rw [hk] at h
            have hi : k.instruction? v = some i := by
              simp [Kernel.instruction?, hx, Value.instruction?, hk]
            apply of_rule _ hi old h
            -- only operands with smaller numbers are visited, so the recursion is founded
            intro o r d s ho
            split at ho
            · exact of_process ho
            · exact absurd ho Run.throw_eq_ok
termination_by v.index

/-- Every derivation is a run. -/
theorem visitAll_eq_ok (wf : k.WellFormed) (h : Handles k vs p c q) :
    visitAll (process k) vs p = .ok c q := by
  induction h with
  | nil p => exact Run.pure_eq_ok.mpr ⟨rfl, rfl⟩
  | cons _ _ ihf ihr =>
      rw [visitAll_singleton_eq_ok] at ihf
      exact visitAll_cons_eq_ok.mpr ⟨_, _, _, ihf, ihr, rfl⟩
  | visited known old =>
      rw [visitAll_singleton_eq_ok, process_visited known old]
  | @seeded v p x known new base has =>
      rw [visitAll_singleton_eq_ok, process_new known new]
      have hseed : seedMissing v x.type (p.mark v) = .ok false (p.mark v) :=
        seedMissing_eq_ok.mpr (.inl ⟨has, rfl, rfl⟩)
      cases hk : x.kind <;> simp_all [Value.isBase, Value.isArgument, Value.isGlobal]
  | @natural v p x bits known new base missing type =>
      rw [visitAll_singleton_eq_ok, process_new known new]
      have hseed : seedMissing v x.type (p.mark v) = .ok _ ((p.mark v).raise v bits) :=
        seedMissing_eq_ok.mpr (.inr ⟨missing, bits, type, rfl, rfl⟩)
      cases hk : x.kind <;> simp_all [Value.isBase, Value.isArgument, Value.isGlobal]
  | constant known new kind =>
      rw [visitAll_singleton_eq_ok, process_new known new, kind]
      exact raise_eq_ok.mpr ⟨rfl, rfl⟩
  | arithmetic known new opcode left _ width right _ width' ih ih' =>
      rw [visitAll_singleton_eq_ok] at ih ih'
      apply visitAll_process_of_rule wf known new
      intro visit block hvisit
      rw [← hvisit _ (Instruction.mem_operands_of_operand? left)] at ih
      rw [← hvisit _ (Instruction.mem_operands_of_operand? right)] at ih'
      rw [rule_of_isArithmetic opcode, arithmeticRule_eq_ok]
      exact ⟨_, _, _, _, _, _, _, _, left, ih, width, right, ih', width', rfl, rfl⟩
  | comparison known new opcode left _ right _ ih ih' =>
      rw [visitAll_singleton_eq_ok] at ih ih'
      apply visitAll_process_of_rule wf known new
      intro visit block hvisit
      rw [← hvisit _ (Instruction.mem_operands_of_operand? left)] at ih
      rw [← hvisit _ (Instruction.mem_operands_of_operand? right)] at ih'
      simp only [rule, opcode, comparisonRule_eq_ok]
      exact ⟨_, _, _, _, _, _, left, ih, right, ih', rfl, rfl⟩
  | @elementPointer v base i p q s c a bits known new opcode start _ width wider raised ih =>
      apply visitAll_process_of_rule wf known new
      intro visit block hvisit
      -- the base is the first operand, and the indices are the others
      have hall : ∀ o ∈ base :: i.indices, visit o = process k o := by
        intro o ho
        rcases List.mem_cons.mp ho with rfl | ho
        · exact hvisit _ (Instruction.mem_operands_of_operand? start)
        · exact hvisit _ (Instruction.mem_operands_of_mem_indices ho)
      rw [← visitAll_congr hall] at ih
      simp only [rule, opcode, elementPointerRule_eq_ok]
      exact ⟨_, _, _, _, _, start, ih, width, wider, by rw [raised], by rw [raised]⟩
  | @copy v o i p q c a known new opcode operand _ width ih =>
      rw [visitAll_singleton_eq_ok] at ih
      apply visitAll_process_of_rule wf known new
      intro visit block hvisit
      rw [← hvisit _ (Instruction.mem_operands_of_operand? operand)] at ih
      have hcopy : copyRule visit v o (p.mark v) = .ok _ (q.raise v a) :=
        copyRule_eq_ok.mpr ⟨_, _, _, ih, width, rfl, rfl⟩
      -- a return looks whether it has an operand, the others ask for it
      simp only [List.mem_cons, List.not_mem_nil, or_false] at opcode
      rcases opcode with ho | ho | ho | ho <;> simp only [rule, ho]
      · exact Run.bind_eq_ok.mpr ⟨_, _, operand_eq_ok.mpr ⟨operand, rfl⟩, hcopy⟩
      · exact Run.bind_eq_ok.mpr ⟨_, _, operand_eq_ok.mpr ⟨operand, rfl⟩, hcopy⟩
      · exact Run.bind_eq_ok.mpr ⟨_, _, operand_eq_ok.mpr ⟨operand, rfl⟩, hcopy⟩
      · rw [operand]
        exact hcopy
  | store known new opcode data _ width target _ raised ih ih' =>
      rw [visitAll_singleton_eq_ok] at ih ih'
      apply visitAll_process_of_rule wf known new
      intro visit block hvisit
      rw [← hvisit _ (Instruction.mem_operands_of_operand? data)] at ih
      rw [← hvisit _ (Instruction.mem_operands_of_operand? target)] at ih'
      simp only [rule, opcode, storeRule_eq_ok]
      exact ⟨_, _, _, _, _, _, _, data, ih, width, target, ih', by rw [raised], by rw [raised]⟩
  | returnVoid known new opcode bare =>
      apply visitAll_process_of_rule wf known new
      intro visit block _
      simp only [rule, opcode, bare, Run.pure_eq_ok, and_self]
  | jump known new opcode =>
      apply visitAll_process_of_rule wf known new
      intro visit block _
      simp only [rule, opcode, raise_eq_ok, and_self]
  | branch known new opcode operand _ ih =>
      rw [visitAll_singleton_eq_ok] at ih
      apply visitAll_process_of_rule wf known new
      intro visit block hvisit
      rw [← hvisit _ (Instruction.mem_operands_of_operand? operand)] at ih
      simp only [rule, opcode, branchRule_eq_ok]
      exact ⟨_, _, _, operand, ih, rfl, rfl⟩

/-- **Agreement**: in a well-formed kernel, handling is what `process` does, value after value. -/
theorem iff_visitAll (wf : k.WellFormed) :
    Handles k vs p c q ↔ visitAll (process k) vs p = .ok c q :=
  ⟨visitAll_eq_ok wf, of_visitAll of_process⟩

end Handles

end Datapath
