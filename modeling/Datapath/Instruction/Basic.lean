import Datapath.Id
import Datapath.Instruction.Opcode
import Datapath.Instruction.Predicate

/-!
# Instructions

An `Instruction` is an opcode with its operands, in order; a comparison also has a predicate, and a
terminator the blocks it may go to. Nothing ties the number of operands to the opcode: an
instruction short of an operand can be written down, and each reader says what it makes of that.

The views below name operands by role: `address?`, `stored?`, `condition?` and `indices`.
-/

namespace Datapath

/-- One operation on values. -/
structure Instruction where
  opcode : Opcode
  operands : List ValueId
  predicate : Option Predicate := none
  successors : List BlockId := []
  deriving DecidableEq

namespace Instruction

def operand? (i : Instruction) (position : Nat) : Option ValueId := i.operands[position]?

/-- The address that a load, a store or an address computation starts from. -/
def address? (i : Instruction) : Option ValueId :=
  match i.opcode with
  | .load | .getElementPtr => i.operand? 0
  | .store => i.operand? 1
  | _ => none

def stored? (i : Instruction) : Option ValueId :=
  match i.opcode with
  | .store => i.operand? 0
  | _ => none

/-- The value that a conditional branch tests. -/
def condition? (i : Instruction) : Option ValueId :=
  match i.opcode with
  | .condBr => i.operand? 0
  | _ => none

/-- The index operands of an address computation: all but its base. -/
def indices (i : Instruction) : List ValueId :=
  match i.opcode with
  | .getElementPtr => i.operands.drop 1
  | _ => []

/-! ## Roles are operands -/

theorem mem_operands_of_operand? {i : Instruction} {n : Nat} {v : ValueId}
    (h : i.operand? n = some v) : v ∈ i.operands :=
  List.mem_of_getElem? h

theorem mem_operands_of_address? {i : Instruction} {v : ValueId} (h : i.address? = some v) :
    v ∈ i.operands := by
  cases ho : i.opcode <;> simp only [address?, ho, reduceCtorEq] at h <;>
    exact mem_operands_of_operand? h

theorem mem_operands_of_stored? {i : Instruction} {v : ValueId} (h : i.stored? = some v) :
    v ∈ i.operands := by
  cases ho : i.opcode <;> simp only [stored?, ho, reduceCtorEq] at h
  exact mem_operands_of_operand? h

theorem mem_operands_of_condition? {i : Instruction} {v : ValueId} (h : i.condition? = some v) :
    v ∈ i.operands := by
  cases ho : i.opcode <;> simp only [condition?, ho, reduceCtorEq] at h
  exact mem_operands_of_operand? h

/-- Indices are operands, and so are the address, the stored value and the condition above. -/
theorem mem_operands_of_mem_indices {i : Instruction} {v : ValueId} (h : v ∈ i.indices) :
    v ∈ i.operands := by
  unfold indices at h
  split at h
  · exact List.mem_of_mem_drop h
  · cases h

end Instruction

end Datapath
