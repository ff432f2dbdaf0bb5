import Datapath.Address.Written
import Datapath.Graph.Basic

/-!
# Labels of nodes

A label says what a node stands for, the way it would be written in the kernel's source: a parameter
with its direction, the operator of arithmetic, the place that a load or a store accesses.
-/

namespace Datapath.Graph

def direction : NodeKind → String
  | .outParam => "OUT"
  | .inOutParam => "INOUT"
  | _ => "IN"

/-- The place that a load or a store accesses. -/
def place (k : Kernel) (v : ValueId) (i : Instruction) : Outcome String :=
  match i.address? with
  | some address => k.written address
  | none => reject (.malformed (.unwritableAddress v))

/-- The integer width of a cast's operand, zero if there is none. -/
def castSource (k : Kernel) (i : Instruction) : Nat :=
  ((i.operand? 0).bind fun o => (k.value? o).bind (·.type.naturalWidth?)).getD 0

/-- The label of an instruction's node. -/
def instructionLabel (k : Kernel) (v : ValueId) (x : Value) (i : Instruction) : Outcome String := do
  match i.opcode with
  | .trunc | .zext =>
    let target := x.type.naturalWidth?.getD 0
    return s!"\x7bcast: {castSource k i} -> {target}\x7d"
  | .store =>
    let target ← place k v i
    return s!"[ store: {target}]"
  | .load =>
    let target ← place k v i
    return s!" [ load: {target}]"
  | .getElementPtr =>
    let base := (i.address?.map k.nameOf).getD ""
    return s!"{k.nameOf v} = \x7bcompute_addr: {base}\x7d"
  | .icmp | .add | .sub | .mul | .sdiv | .udiv | .ashr =>
    let operator ← k.symbol v
    return s!"[ arit: {operator}]"
  | opcode => reject (.unsupportedOpcode k.name v opcode)

/-- The label of a node, in terms of a kernel. -/
def label (g : Graph) (k : Kernel) (n : NodeId) : Outcome String := do
  let node ← g.node n
  let v := node.value
  let x ← k.value v
  match x.kind with
  | .constant c => return s!"[arit: {c}]"
  | .global => return s!"[arit: {k.nameOf v}]"
  | .argument _ => return s!"[{direction node.kind} param: {k.nameOf v}]"
  | .instruction i _ => instructionLabel k v x i

end Datapath.Graph
