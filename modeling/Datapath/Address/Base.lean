import Datapath.Address.Underlying

/-!
# What an address is rooted in

Two walks go from an address expression back to the arguments and globals it is made from.

* `Kernel.bases` collects *all* of them, through address computations, the addresses of loads, and
  arithmetic. Each is listed once, in the order of the first way to it.
* `Kernel.basePointer` finds *the* pointer that the expression starts from: the base of an address
  computation, or in a sum, a difference or a product the first operand that leads to a pointer. The
  address that a load reads is not the address that the loaded value would be, so a load leads
  nowhere.

Operands have smaller numbers, so both walks end.
-/

namespace Datapath.Kernel

/-! ## All bases -/

/-- The values that an instruction's contribution to an address comes from. Index operands,
addresses of loads and operands of arithmetic are taken through casts; the base of an address
computation is taken as it is. -/
def addressInputs (k : Kernel) (i : Instruction) : List ValueId :=
  match i.opcode with
  | .getElementPtr => i.address?.toList ++ i.indices.map k.underlying
  | .load => i.address?.toList.map k.underlying
  | .add | .sub | .mul | .sdiv | .udiv | .ashr => i.operands.map k.underlying
  | _ => []

def addBase (found : List ValueId) (v : ValueId) : List ValueId :=
  if v ∈ found then found else found ++ [v]

/-- Adds the bases of a value to those found. -/
def collectBases (k : Kernel) (found : List ValueId) (v : ValueId) : Outcome (List ValueId) := do
  match k.value? v with
  | none => throw (.outOfRange v.index)
  | some x =>
    match x.kind with
    | .constant _ => return found
    | .argument _ => return addBase found v
    | .global => return addBase found v
    | .instruction i _ =>
      (k.addressInputs i).foldlM
        (fun found o =>
          if _h : o.index < v.index then collectBases k found o else throw (.outOfRange o.index))
        found
termination_by v.index

/-- The arguments and globals that an address expression depends on. -/
def bases (k : Kernel) (v : ValueId) : Outcome (List ValueId) := k.collectBases [] v

/-! ## The base pointer -/

/-- The pointer that an expression starts from, if it leads to one. -/
def findBasePointer (k : Kernel) (v : ValueId) : Outcome (Option ValueId) := do
  match k.value? v with
  | none => throw (.outOfRange v.index)
  | some x =>
    let next (o : ValueId) : Outcome (Option ValueId) :=
      if _h : o.index < v.index then findBasePointer k o else throw (.outOfRange o.index)
    match x.kind with
    | .argument _ => return if x.type.isPointer then some v else none
    | .global => return if x.type.isPointer then some v else none
    | .constant _ => return none
    | .instruction i _ =>
      match i.opcode with
      | .load => return none
      | .getElementPtr =>
        match i.address? with
        | none => reject (.untraceableAddress v)
        | some base =>
          match ← next base with
          | some pointer => return some pointer
          | none => reject (.untraceableAddress v)
      | .add | .sub | .mul => i.operands.findSomeM? fun o => next (k.underlying o)
      | _ => reject (.untraceableAddress v)
termination_by v.index

/-- The pointer that an address expression starts from; it has to lead to one. -/
def basePointer (k : Kernel) (v : ValueId) : Outcome ValueId := do
  match ← k.findBasePointer v with
  | some pointer => return pointer
  | none => reject (.untraceableAddress v)

end Datapath.Kernel
