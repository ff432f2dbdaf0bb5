import Datapath.Kernel.Basic

/-!
# Looking through a cast

Address analyses care about what a value *is*, not about the width it is cast to.
`Kernel.underlying` takes a cast to its operand and a conditional branch to its condition. It
looks through one of them, not through a stack: the operand of a cast may be a cast itself.

What is looked through comes from an operand, so it never has a larger number in a well-formed
kernel.
-/

namespace Datapath.Kernel

/-- The operand of a cast, the condition of a branch, and any other value itself. -/
def underlying (k : Kernel) (v : ValueId) : ValueId :=
  match k.instruction? v with
  | some i =>
    if i.opcode.isCast then (i.operand? 0).getD v
    else i.condition?.getD v
  | none => v

/-- A value is its own underlying value, or that is one of its operands. -/
theorem underlying_eq_or_mem (k : Kernel) (v : ValueId) :
    k.underlying v = v ∨ ∃ i, k.instruction? v = some i ∧ k.underlying v ∈ i.operands := by
  unfold underlying
  cases h : k.instruction? v with
  | none => exact .inl rfl
  | some i =>
    dsimp only
    split
    · cases ho : i.operand? 0 with
      | none => exact .inl rfl
      | some o => exact .inr ⟨i, rfl, Instruction.mem_operands_of_operand? ho⟩
    · cases hc : i.condition? with
      | none => exact .inl rfl
      | some c => exact .inr ⟨i, rfl, Instruction.mem_operands_of_condition? hc⟩

end Datapath.Kernel
