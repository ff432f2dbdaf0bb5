import Datapath.Kernel.Basic
import Datapath.Width.Widths

/-!
# Width rules

Each opcode has a rule that gives an instruction its width from its operands. Some rules also push a
width *back*, onto the base of an address computation or the address of a store.

| instruction                               | width                                        |
|-------------------------------------------|----------------------------------------------|
| `add` `sub` `mul` `sdiv` `udiv` `ashr`    | the wider operand                            |
| `icmp`                                    | 1                                            |
| `getelementptr`                           | joined with that of its base, in both        |
| `load`                                    | that of its address                          |
| `store`                                   | that of the stored value, in its address too |
| `trunc` `zext`                            | that of the operand                          |
| `ret`                                     | that of the returned value; none without one |
| `br`                                      | 0: a branch carries no data                  |

A rule first visits operands, and how that is done is a parameter of `Infer.rule`. A rule that fails
keeps what had been recorded up to then.

**What counts as a change.** Rules answer whether widths changed, but not every change: the operands
of arithmetic, of a comparison, of a load, a cast or a return, and the stored value of a store are
visited without their answer being counted.
-/

namespace Datapath

structure Progress where
  widths : Widths
  /-- The values handled since the current pass began. -/
  visited : List ValueId := []
  /-- The passes begun so far. -/
  passes : Nat := 0

/-- A step of inference. What was recorded stays recorded if the step fails. -/
abbrev Infer := EStateM Fault Progress

namespace Infer

/-! ## Reading and raising -/

def width (v : ValueId) : Infer Nat := do
  MonadExcept.ofExcept ((← get).widths.width v)

def raise (v : ValueId) (bits : Nat) : Infer Bool :=
  modifyGet fun p =>
    let (changed, widths) := p.widths.raise v bits
    (changed, { p with widths := widths })

def operand (v : ValueId) (i : Instruction) (position : Nat) : Infer ValueId :=
  match i.operand? position with
  | some o => return o
  | none => reject (.malformed (.missingOperand i.opcode v position))

/-- Visits values from left to right and answers whether any visit was counted as a change. -/
def visitAll (visit : ValueId → Infer Bool) : List ValueId → Infer Bool
  | [] => return false
  | o :: rest => do
    let here ← visit o
    let later ← visitAll visit rest
    return here || later

/-! ## The rules -/

variable (visit : ValueId → Infer Bool)

/-- The width of an operand once it was visited. -/
def widthOf (o : ValueId) : Infer Nat := do
  let _ ← visit o
  width o

/-- Arithmetic is as wide as its wider operand. -/
def arithmeticRule (v : ValueId) (i : Instruction) : Infer Bool := do
  let left ← widthOf visit (← operand v i 0)
  let right ← widthOf visit (← operand v i 1)
  raise v (max left right)

/-- A comparison is a single bit, whatever it compares. -/
def comparisonRule (v : ValueId) (i : Instruction) : Infer Bool := do
  let _ ← visit (← operand v i 0)
  let _ ← visit (← operand v i 1)
  raise v 1

/-- An address computation and its base are equally wide. -/
def elementPointerRule (v : ValueId) (i : Instruction) : Infer Bool := do
  let base ← operand v i 0
  let operands ← visitAll visit (base :: i.indices)
  let bits := max (← width base) (((← get).widths.width? v).getD 0)
  let here ← raise v bits
  let back ← raise base bits
  return operands || here || back

/-- Loads, casts and returns are as wide as their operand. -/
def copyRule (v o : ValueId) : Infer Bool := do
  raise v (← widthOf visit o)

/-- A store is as wide as the stored value, and its address is at least that wide. -/
def storeRule (v : ValueId) (i : Instruction) : Infer Bool := do
  let bits ← widthOf visit (← operand v i 0)
  let address ← operand v i 1
  let visited ← visit address
  let back ← raise address bits
  let here ← raise v bits
  return visited || back || here

/-- A conditional branch visits its condition and carries no data. -/
def branchRule (v : ValueId) (i : Instruction) : Infer Bool := do
  let condition ← visit (← operand v i 0)
  let here ← raise v 0
  return condition || here

/-- The rule of an instruction that stands in `block`, with `visit` to handle its operands. -/
def rule (k : Kernel) (v : ValueId) (i : Instruction) (block : BlockId) : Infer Bool :=
  match i.opcode with
  | .add | .sub | .mul | .sdiv | .udiv | .ashr => arithmeticRule visit v i
  | .icmp => comparisonRule visit v i
  | .getElementPtr => elementPointerRule visit v i
  | .load | .trunc | .zext => do copyRule visit v (← operand v i 0)
  | .store => storeRule visit v i
  | .ret =>
    match i.operand? 0 with
    | some o => copyRule visit v o
    | none => return false
  | .br => raise v 0
  | .condBr => branchRule visit v i
  | .switch => do
    let ending ← MonadExcept.ofExcept (k.block block)
    reject (.unsupportedTerminator k.name ending.name i.opcode)
  | .phi | .call | .and | .or | .xor | .shl | .lshr | .sext | .select =>
    reject (.unsupportedOpcode k.name v i.opcode)

end Infer

end Datapath
