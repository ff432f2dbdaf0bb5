import Datapath.Address.Access

/-!
# Nodes of a data-flow graph

A `Node` stands for one value of a kernel. It records the value's width, its kind, the bucket it is
placed in, the nodes it uses and the branch outcome it depends on, if it depends on one.

A pointer argument is a node for *memory*, and its kind is the direction of the data: in, if memory
is only read through it, out, if it is only written, and both ways otherwise.
-/

namespace Datapath

/-! ## Kinds -/

/-- What a node stands for. -/
inductive NodeKind where
  | inParam
  | outParam
  | inOutParam
  | load
  | store
  /-- Arithmetic, a comparison, a constant or a global. -/
  | instruction
  deriving DecidableEq

namespace NodeKind

def isParam : NodeKind → Bool
  | inParam | outParam | inOutParam => true
  | _ => false

def name : NodeKind → String
  | inParam => "InParam"
  | outParam => "OutParam"
  | inOutParam => "InOutParam"
  | load => "Load"
  | store => "Store"
  | instruction => "Instruction"

/-- The direction of a pointer argument. An argument through which memory is not accessed at all
counts as an input. -/
def ofAccess (access : Access) : NodeKind :=
  if access.writes then if access.reads then inOutParam else outParam else inParam

/-- The kind of a value's node. -/
def ofValue (k : Kernel) (v : ValueId) : Outcome NodeKind := do
  let x ← k.value v
  match x.kind with
  | .argument _ => if x.type.isPointer then return ofAccess (← k.access v) else return inParam
  | .instruction i _ =>
    match i.opcode with
    | .load => return load
    | .store => return store
    | _ => return instruction
  | _ => return instruction

end NodeKind

/-! ## Nodes and edges -/

@[ext]
structure NodeId where
  index : Nat
  deriving DecidableEq

/-- The outcome of a branch. -/
inductive Polarity where
  | whenTrue
  | whenFalse
  deriving DecidableEq

/-- A dependency on the outcome of a branch: the node of its condition and the outcome. -/
structure ControlEdge where
  source : NodeId
  polarity : Polarity
  /-- The rank among a node's control edges of one source. -/
  slot : Nat := 0
  deriving DecidableEq

structure Node where
  value : ValueId
  width : Nat
  kind : NodeKind
  bucket : Nat
  /-- The nodes whose data this one takes, in order of use. -/
  uses : List NodeId := []
  controls : List ControlEdge := []

/-- An address computation below a load or a store: the pointer it starts from and the arithmetic of
its indices, operands first. -/
structure Chain where
  address : ValueId
  base : ValueId
  operations : List ValueId

/-- The last operation of a chain, which is the final offset. -/
def Chain.offset? (c : Chain) : Option ValueId := c.operations.getLast?

end Datapath
