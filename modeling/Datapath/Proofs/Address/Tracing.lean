import Datapath.Proofs.Address.Accessing
import Datapath.Proofs.Address.Answers
import Datapath.Proofs.Address.Roots

/-!
# The trace of an address

`Kernel.basePointer` goes from an address expression down to one pointer, along its *trace*: from an
address computation to its base, and from a sum, a difference or a product to the first operand that
leads to a pointer.

The same way is taken in the other direction when accesses through that pointer are looked for, with
one exception. From an address computation the walk goes on to further address computations only, so
a trace is followed back if it is *unbroken*: no arithmetic stands on an address computation.
-/

namespace Datapath.Kernel

open Relation (ReflTransGen)

variable {k : Kernel} {p u v o a : ValueId} {i : Instruction}

/-! ## Traces -/

/-- The trace of an address expression goes on from `v` to `o`. -/
inductive TracesOn (k : Kernel) (v : ValueId) : ValueId → Prop
  | element {i : Instruction} {o : ValueId} (known : k.instruction? v = some i)
      (opcode : i.opcode = .getElementPtr) (base : i.address? = some o) : TracesOn k v o
  | operand {i : Instruction} {before after : List ValueId} {x p : ValueId}
      (known : k.instruction? v = some i)
      (opcode : i.opcode = .add ∨ i.opcode = .sub ∨ i.opcode = .mul)
      (split : i.operands = before ++ x :: after)
      (skipped : ∀ y ∈ before, k.findBasePointer (k.underlying y) = .ok none)
      (found : k.findBasePointer (k.underlying x) = .ok (some p)) : TracesOn k v (k.underlying x)

/-- Nowhere on the trace of `a` does arithmetic stand on an address computation. -/
def Unbroken (k : Kernel) (a : ValueId) : Prop :=
  ∀ v o, ReflTransGen k.TracesOn a v → k.TracesOn v o → k.opcode? o = some .getElementPtr →
    k.opcode? v = some .getElementPtr

/-- What is found for a value is the value itself, or it is found for the one that the trace goes on
to. -/
theorem eq_or_tracesOn_of_findBasePointer (h : k.findBasePointer v = .ok (some p)) :
    (v = p ∧ ∃ x, k.value? p = some x ∧ x.isBase = true ∧ x.type.isPointer = true) ∨
      ∃ o, o.index < v.index ∧ k.TracesOn v o ∧ k.findBasePointer o = .ok (some p) := by
  obtain ⟨x, hx⟩ : ∃ x, k.value? v = some x := by
    cases hx : k.value? v with
    | some x => exact ⟨x, rfl⟩
    | none =>
        rw [findBasePointer, hx] at h
        cases h
  cases hxi : x.instruction? with
  | none =>
      rcases findBasePointer_of_instruction?_eq_none hx hxi with heq | ⟨heq, base, pointer⟩
      · cases heq.symm.trans h
      · obtain rfl := Option.some.inj (Except.ok.inj (heq.symm.trans h))
        exact .inl ⟨rfl, x, hx, base, pointer⟩
  | some i =>
      have hi : k.instruction? v = some i := (instruction?_of_value? hx).trans hxi
      rcases findBasePointer_cases hi with heq | ⟨hop, base, ha, heq⟩ | ⟨hop, heq⟩ | heq
      · cases heq.symm.trans h
      · rw [heq] at h
        obtain ⟨answer, hanswer, h⟩ := Outcome.bind_eq_ok.mp h
        cases answer with
        | none => cases h
        | some pointer =>
            obtain rfl := Option.some.inj (Outcome.pure_eq_ok.mp h).symm
            obtain ⟨hlt, hbase⟩ := pointerBelow_eq_ok hanswer
            exact .inr ⟨base, hlt, .element hi hop ha, hbase⟩
      · rw [heq] at h
        obtain ⟨before, y, after, hsplit, hbefore, hy⟩ := Outcome.findSomeM?_eq_ok_some h
        -- the trace takes the operand that the search stopped at; those before it lead nowhere
        obtain ⟨hlt, hy⟩ := pointerBelow_eq_ok hy
        refine .inr ⟨_, hlt, .operand hi hop hsplit (fun z hz => ?_) hy, hy⟩
        exact (pointerBelow_eq_ok (hbefore z hz)).2
      · cases heq.symm.trans h

/-- **The trace leads to the pointer that is found.** -/
theorem traces_of_findBasePointer {v : ValueId} (h : k.findBasePointer v = .ok (some p)) :
    ReflTransGen k.TracesOn v p ∧ ∃ x, k.value? p = some x ∧ x.isBase = true := by
  rcases eq_or_tracesOn_of_findBasePointer h with ⟨rfl, x, hx, base, -⟩ | ⟨o, hlt, on, ho⟩
  · exact ⟨.refl, x, hx, base⟩
  · obtain ⟨way, isBase⟩ := traces_of_findBasePointer ho
    exact ⟨.head on way, isBase⟩
termination_by v.index

/-- What is found is an argument or a global, of pointer type. -/
theorem isPointer_of_findBasePointer {v : ValueId} (h : k.findBasePointer v = .ok (some p)) :
    ∃ x, k.value? p = some x ∧ x.isBase = true ∧ x.type.isPointer = true := by
  rcases eq_or_tracesOn_of_findBasePointer h with ⟨-, found⟩ | ⟨o, hlt, -, ho⟩
  · exact found
  · exact isPointer_of_findBasePointer ho
termination_by v.index

theorem basePointer_eq_ok : k.basePointer v = .ok p ↔ k.findBasePointer v = .ok (some p) := by
  rw [basePointer, Outcome.bind_eq_ok]
  constructor
  · rintro ⟨_ | q, hanswer, h⟩
    · cases h
    · obtain rfl := Outcome.pure_eq_ok.mp h
      exact hanswer
  · intro h
    exact ⟨some p, h, rfl⟩

/-- The base pointer stands at the end of the trace. -/
theorem traces_of_basePointer (h : k.basePointer v = .ok p) :
    ReflTransGen k.TracesOn v p ∧ ∃ x, k.value? p = some x ∧ x.isBase = true :=
  traces_of_findBasePointer (basePointer_eq_ok.mp h)

/-- Of two operands that are the first to lead to a pointer, one is the other. -/
theorem eq_of_first_operand {before before' after after' : List ValueId} {x y p q : ValueId}
    (split : before ++ x :: after = before' ++ y :: after')
    (skipped : ∀ z ∈ before, k.findBasePointer (k.underlying z) = .ok none)
    (skipped' : ∀ z ∈ before', k.findBasePointer (k.underlying z) = .ok none)
    (found : k.findBasePointer (k.underlying x) = .ok (some p))
    (found' : k.findBasePointer (k.underlying y) = .ok (some q)) : x = y := by
  -- if one stood before the other it would have been skipped, but it leads to a pointer
  rcases List.append_eq_append_iff.mp split with ⟨between, rfl, h⟩ | ⟨between, rfl, h⟩
  · cases between with
    | nil => exact (List.cons.inj h).1
    | cons z between =>
        obtain rfl := (List.cons.inj h).1
        cases found.symm.trans (skipped' x (by simp))
  · cases between with
    | nil => exact (List.cons.inj h).1.symm
    | cons z between =>
        obtain rfl := (List.cons.inj h).1
        cases found'.symm.trans (skipped y (by simp))

/-- A trace goes on from a value in one way at most. -/
theorem TracesOn.unique {o' : ValueId} (h : k.TracesOn v o) (h' : k.TracesOn v o') : o = o' := by
  cases h with
  | element known opcode base =>
      cases h' with
      | element known' _ base' =>
          obtain rfl := Option.some.inj (known.symm.trans known')
          exact Option.some.inj (base.symm.trans base')
      | operand known' opcode' =>
          obtain rfl := Option.some.inj (known.symm.trans known')
          simp [opcode] at opcode'
  | operand known opcode split skipped found =>
      cases h' with
      | element known' opcode' =>
          obtain rfl := Option.some.inj (known.symm.trans known')
          simp [opcode'] at opcode
      | operand known' _ split' skipped' found' =>
          obtain rfl := Option.some.inj (known.symm.trans known')
          rw [eq_of_first_operand (split.symm.trans split') skipped skipped' found found']

/-- Whatever stands on a trace is on the way to its end. -/
theorem traces_of_part (way : ReflTransGen k.TracesOn a p) {x : Value} (hx : k.value? p = some x)
    (base : x.isBase = true) (part : ReflTransGen k.TracesOn a v) :
    ReflTransGen k.TracesOn v p := by
  have unique : Relator.RightUnique k.TracesOn := fun _ _ _ => TracesOn.unique
  rcases ReflTransGen.total_of_right_unique unique part way with on | back
  · exact on
  · -- nothing lies beyond an argument or a global, which is no instruction
    rcases back.cases_head with rfl | ⟨o, on, -⟩
    · exact .refl
    · have hnone := instruction?_of_isBase hx base
      cases on with
      | element known => simp [hnone] at known
      | operand known => simp [hnone] at known

/-- What an address is traced to is one of its roots. -/
theorem rootedIn_of_traces (way : ReflTransGen k.TracesOn v p) {x : Value}
    (hx : k.value? p = some x) (base : x.isBase = true) : k.RootedIn v p := by
  induction way using ReflTransGen.head_induction_on with
  | refl => exact .base hx base
  | head on _ ih =>
      cases on with
      | element known opcode base =>
          exact .step known (by simp [addressInputs, opcode, base]) ih
      | operand known opcode split =>
          refine .step known ?_ ih
          rcases opcode with opcode | opcode | opcode <;> simp [addressInputs, opcode, split]

/-! ## Following a trace back -/

/-- What stands on a trace is no load or store: it is the pointer at its end, or it leads on. -/
theorem not_access_of_traces (way : ReflTransGen k.TracesOn v p) {x : Value}
    (hx : k.value? p = some x) (base : x.isBase = true) :
    k.opcode? v ≠ some .load ∧ k.opcode? v ≠ some .store := by
  rcases way.cases_head with rfl | ⟨o, on, -⟩
  · simp [opcode?, instruction?_of_isBase hx base]
  · cases on with
    | element known opcode => simp [opcode?, known, opcode]
    | operand known opcode => rcases opcode with h | h | h <;> simp [opcode?, known, h]

/-- From an operand that is taken through a cast the walk comes to its user. -/
theorem follows_of_underlying (h : k.Consistent) {x : ValueId}
    (address : k.opcode? (k.underlying x) ≠ some .getElementPtr)
    (load : k.opcode? (k.underlying x) ≠ some .load)
    (store : k.opcode? (k.underlying x) ≠ some .store) (hi : k.instruction? v = some i)
    (hx : x ∈ i.operands) : ReflTransGen k.Follows (k.underlying x) v := by
  have huser : v ∈ k.usersOf x := h.mem_usersOf.mpr ⟨i, hi, hx⟩
  rcases k.underlying_cases x with hself | ⟨j, hj, hfirst, hop⟩
  · rw [hself] at address load store ⊢
    exact .single (.data address load store huser)
  · have hmem := Instruction.mem_operands_of_operand? hfirst
    refine .head (.data address load store (h.mem_usersOf.mpr ⟨j, hj, hmem⟩)) (.single ?_)
    -- the cast hands on to its users
    have hne : ∀ o, o.isCast = false → o ≠ .condBr → k.opcode? x ≠ some o := by
      intro o hcast hbr e
      obtain rfl : j.opcode = o := by simpa [opcode?, hj] using e
      rcases hop with hop | hop
      · rw [hcast] at hop
        cases hop
      · exact hbr hop
    exact .data (hne _ rfl (by decide)) (hne _ rfl (by decide)) (hne _ rfl (by decide)) huser

/-- **An unbroken trace is followed back.** -/
theorem follows_of_traces (h : k.Consistent) (way : ReflTransGen k.TracesOn a p)
    (unbroken : k.Unbroken a) {x : Value} (hx : k.value? p = some x) (base : x.isBase = true) :
    ReflTransGen k.Follows p a := by
  induction way using ReflTransGen.head_induction_on with
  | refl => exact .refl
  | @head v o on rest ih =>
      have hrest := ih fun w l hw hl => unbroken w l (.head on hw) hl
      obtain ⟨load, store⟩ := not_access_of_traces rest hx base
      refine hrest.trans ?_
      have hgep := unbroken v o .refl on
      cases on with
      | @element i _ known opcode base =>
          have huser := h.mem_usersOf.mpr
            ⟨i, known, Instruction.mem_operands_of_address? base⟩
          have hop : k.opcode? v = some .getElementPtr := by rw [opcode?, known, ← opcode]; rfl
          -- an element of an element: the walk passes from one address to the next
          by_cases ho : k.opcode? o = some .getElementPtr
          · exact .single (.address ho huser hop)
          · exact .single (.data ho load store huser)
      | @operand i _ _ x _ known opcode split =>
          -- arithmetic on an address computation would break the trace
          refine follows_of_underlying h (fun ho => ?_) load store known (by simp [split])
          have hop := hgep ho
          rcases opcode with e | e | e <;> simp [opcode?, known, e] at hop

/-- An access under an address that the walk comes to is met. -/
theorem accessedThrough_of_follows (h : k.Consistent) (way : ReflTransGen k.Follows p a)
    (load : k.opcode? a ≠ some .load) (store : k.opcode? a ≠ some .store)
    (hi : k.instruction? u = some i) (ha : i.address? = some a) :
    k.AccessedThrough i.opcode p := by
  have huser := h.mem_usersOf.mpr ⟨i, hi, Instruction.mem_operands_of_address? ha⟩
  by_cases hgep : k.opcode? a = some .getElementPtr
  · exact ⟨a, way, .inr ⟨hgep, u, huser, i, hi, rfl, fun _ => ha⟩⟩
  · -- the pointer itself is accessed: one more step comes to the load or store
    refine ⟨u, way.tail (.data hgep load store huser), .inl ?_⟩
    rw [opcode?, hi, Option.map_some]

end Datapath.Kernel
