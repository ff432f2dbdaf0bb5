import Datapath.Address.Base
import Datapath.Proofs.Kernel.WellFormed

/-!
# The roots of an address

`Kernel.RootedIn v b` says that the argument or global `b` goes into the address expression `v`: a
chain of inputs leads from `v` down to `b`. It says nothing about the order in which inputs are
looked at, nor how often.

`mem_bases` is the result: the bases that are collected for an address are its roots.
-/

namespace Datapath.Kernel

variable {k : Kernel}

/-- What is looked through is a cast or a branch, to its first operand. -/
theorem underlying_cases (k : Kernel) (v : ValueId) : k.underlying v = v ∨
    ∃ i, k.instruction? v = some i ∧ i.operand? 0 = some (k.underlying v) ∧
      (i.opcode.isCast = true ∨ i.opcode = .condBr) := by
  unfold underlying
  cases hi : k.instruction? v with
  | none => exact .inl rfl
  | some i =>
      dsimp only
      split
      · next hcast =>
        -- a cast
        cases ho : i.operand? 0 with
        | none => exact .inl rfl
        | some o => exact .inr ⟨i, rfl, ho, .inl hcast⟩
      · -- a branch, or nothing that is looked through
        cases hc : i.condition? with
        | none => exact .inl rfl
        | some c =>
            unfold Instruction.condition? at hc
            split at hc
            · next hop => exact .inr ⟨i, rfl, hc, .inr hop⟩
            · cases hc

/-- The argument or global `b` goes into the address expression `v`. -/
inductive RootedIn (k : Kernel) : ValueId → ValueId → Prop
  | base {v : ValueId} {x : Value} (known : k.value? v = some x) (base : x.isBase = true) :
      RootedIn k v v
  | step {v o b : ValueId} {i : Instruction} (known : k.instruction? v = some i)
      (input : o ∈ k.addressInputs i) (rest : RootedIn k o b) : RootedIn k v b

/-- What an address goes back to is an argument or a global. -/
theorem RootedIn.isBase {v b : ValueId} (h : k.RootedIn v b) :
    ∃ x, k.value? b = some x ∧ x.isBase = true := by
  induction h with
  | base known base => exact ⟨_, known, base⟩
  | step _ _ _ ih => exact ih

/-! One equation for each sort of value: -/

/-- An argument or a global goes back to itself only. -/
theorem rootedIn_of_isBase {v b : ValueId} {x : Value} (hx : k.value? v = some x)
    (base : x.isBase = true) : k.RootedIn v b ↔ b = v := by
  constructor
  · intro h
    cases h with
    | base => rfl
    | step known =>
        rw [instruction?_of_isBase hx base] at known
        cases known
  · rintro rfl
    exact .base hx base

/-- A constant goes back to nothing. -/
theorem not_rootedIn_of_constant {v b : ValueId} {x : Value} {c : Int}
    (hx : k.value? v = some x) (hk : x.kind = .constant c) : ¬ k.RootedIn v b := by
  intro h
  cases h with
  | base hx' base =>
      obtain rfl : x = _ := Option.some.inj (hx.symm.trans hx')
      exact isBase_ne_constant base hk
  | step known =>
      rw [instruction?_of_constant hx hk] at known
      cases known

/-- An instruction goes back to what its inputs go back to. -/
theorem rootedIn_of_instruction {v b : ValueId} {i : Instruction}
    (hi : k.instruction? v = some i) :
    k.RootedIn v b ↔ ∃ o ∈ k.addressInputs i, k.RootedIn o b := by
  constructor
  · intro h
    cases h with
    | base hx base =>
        rw [instruction?_of_isBase hx base] at hi
        cases hi
    | step known input rest =>
        obtain rfl := Option.some.inj (hi.symm.trans known)
        exact ⟨_, input, rest⟩
  · rintro ⟨o, input, rest⟩
    exact .step hi input rest

/-! ## Collecting -/

/-- A base is entered once. -/
theorem mem_addBase {found : List ValueId} {v b : ValueId} :
    b ∈ addBase found v ↔ b ∈ found ∨ b = v := by
  unfold addBase
  split
  · next h =>
    constructor
    · exact .inl
    · rintro (hb | rfl)
      · exact hb
      · exact h
  · rw [List.mem_append, List.mem_singleton]

/-- Collecting along a list adds what is collected for each. -/
theorem mem_foldlM_collect {collect : List ValueId → ValueId → Outcome (List ValueId)}
    {adds : ValueId → ValueId → Prop} {os found l : List ValueId}
    (step : ∀ o ∈ os, ∀ {found l}, collect found o = .ok l →
      ∀ b, b ∈ l ↔ b ∈ found ∨ adds o b)
    (h : os.foldlM collect found = .ok l) (b : ValueId) :
    b ∈ l ↔ b ∈ found ∨ ∃ o ∈ os, adds o b := by
  induction os generalizing found with
  | nil =>
      obtain rfl := Outcome.pure_eq_ok.mp h
      simp
  | cons o os ih =>
      rw [List.foldlM_cons, Outcome.bind_eq_ok] at h
      obtain ⟨found', ho, hos⟩ := h
      rw [ih (fun o ho => step o (List.mem_cons_of_mem _ ho)) hos,
        step o List.mem_cons_self ho b]
      simp [or_assoc]

/-- **The bases collected for an address are its roots**, beside those that were found before. -/
theorem mem_collectBases {found l : List ValueId} {v : ValueId}
    (h : k.collectBases found v = .ok l) (b : ValueId) :
    b ∈ l ↔ b ∈ found ∨ k.RootedIn v b := by
  rw [collectBases] at h
  split at h
  · cases h
  · next x hx =>
    cases hk : x.kind with
    | constant c =>
        simp only [hk] at h
        obtain rfl := Outcome.pure_eq_ok.mp h
        simp [not_rootedIn_of_constant hx hk]
    | argument n | global =>
        simp only [hk] at h
        obtain rfl := Outcome.pure_eq_ok.mp h
        have base : x.isBase = true := by
          simp [Value.isBase, Value.isArgument, Value.isGlobal, hk]
        rw [mem_addBase, rootedIn_of_isBase hx base]
    | instruction i block =>
        simp only [hk] at h
        have hi : k.instruction? v = some i := by
          rw [instruction?_of_value? hx, Value.instruction?, hk]
        rw [rootedIn_of_instruction hi]
        apply mem_foldlM_collect _ h b
        intro o _ found l hl b
        -- inputs have smaller numbers, and a walk that meets another fails
        split at hl
        · exact mem_collectBases hl b
        · cases hl
termination_by v.index

/-- The bases of an address are its roots. -/
theorem mem_bases {os : List ValueId} {v : ValueId} (h : k.bases v = .ok os) (b : ValueId) :
    b ∈ os ↔ k.RootedIn v b := by
  rw [mem_collectBases h]
  simp

end Datapath.Kernel
