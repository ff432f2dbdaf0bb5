import Datapath.Address.Underlying

/-!
# The arithmetic of an index

An index expression is flattened into its arithmetic instructions, *operands first*: each operation
comes after those it is computed from, and the last one is the index itself. Arguments, globals,
constants and loaded values are leaves and leave no trace. An operation reached in two ways is
listed twice.

Anything but arithmetic and loads has no place in an index and is rejected.
-/

namespace Datapath.Kernel

/-- The operations of an expression, from a value that is not looked through. -/
def flatten (k : Kernel) (v : ValueId) : Outcome (List ValueId) := do
  match k.value? v with
  | none => throw (.outOfRange v.index)
  | some x =>
    match x.instruction? with
    | none => return []
    | some i =>
      match i.opcode with
      | .load => return []
      | .add | .sub | .mul | .sdiv | .udiv | .ashr =>
        let earlier ← i.operands.mapM fun o =>
          let o := k.underlying o
          if _h : o.index < v.index then flatten k o else throw (.outOfRange o.index)
        return earlier.flatten ++ [v]
      | opcode => reject (.unsupportedOpcode k.name v opcode)
termination_by v.index

/-- The operations of an index expression, operands first. -/
def operations (k : Kernel) (v : ValueId) : Outcome (List ValueId) := k.flatten (k.underlying v)

end Datapath.Kernel
