import Datapath.Graph.Buckets
import Datapath.Graph.Node
import Datapath.Table

/-!
# Data-flow graphs

A `Graph` has a node for each value that takes part in a kernel's data flow. Nodes are kept in order
of creation, with four indices beside them:

* the *registry* leads from a value to its node;
* the *buckets* sort values by where they come in: bucket 0 for parameters, bucket `n` for what is
  first met in the `n`-th block, counted from one;
* two tables lead from blocks to their buckets and back. Either is filled and read by itself;
* the *chains* are the address computations below loads and stores, whose operations have widths but
  need not have nodes.

A graph is raw, like a kernel: that nodes and indices agree is what construction establishes.
-/

namespace Datapath

structure Graph where
  /-- The name of the kernel. -/
  kernel : String
  nodes : Array Node := #[]
  registry : Table ValueId NodeId := .empty
  buckets : Buckets := .empty
  /-- The buckets of blocks. -/
  blockIndices : Table BlockId Nat := .empty
  /-- The blocks of buckets. -/
  blocksByIndex : Table Nat BlockId := .empty
  chains : List Chain := []
  /-- The widths of the operations of chains. -/
  chainWidths : Table ValueId Nat := .empty

namespace Graph

def interfaceBucket : Nat := 0

def empty (kernel : String) : Graph := { kernel := kernel }

/-! ## Looking things up -/

def nodeId? (g : Graph) (v : ValueId) : Option NodeId := g.registry.find? v

def node? (g : Graph) (v : ValueId) : Option Node := (g.nodeId? v).bind (g.nodes[·.index]?)

/-- The node of a value, which has to have one. -/
def nodeOf (g : Graph) (v : ValueId) : Outcome Node :=
  match g.node? v with
  | some node => .ok node
  | none => reject (.missingNode v)

/-- The node with a number, which is out of range if nothing has it. -/
def node (g : Graph) (n : NodeId) : Outcome Node :=
  match g.nodes[n.index]? with
  | some node => .ok node
  | none => .error (.outOfRange n.index)

def contains (g : Graph) (v : ValueId) : Bool := g.registry.contains v

def bucketOf? (g : Graph) (v : ValueId) : Option Nat := (g.node? v).map (·.bucket)

/-- The bucket of a block: its position, counted from one. -/
def blockIndex? (g : Graph) (b : BlockId) : Option Nat := g.blockIndices.find? b

def blockAt? (g : Graph) (bucket : Nat) : Option BlockId := g.blocksByIndex.find? bucket

def chain? (g : Graph) (address : ValueId) : Option Chain :=
  g.chains.find? fun c => c.address = address

/-- The width of a node, or of an operation of a chain. -/
def width (g : Graph) (v : ValueId) : Outcome Nat :=
  match (g.node? v).map (·.width) <|> g.chainWidths.find? v with
  | some bits => .ok bits
  | none => reject (.missingWidth v)

def useCount (g : Graph) : Nat := (g.nodes.toList.flatMap (·.uses)).length

def controlCount (g : Graph) : Nat := (g.nodes.toList.flatMap (·.controls)).length

/-! ## Growing -/

/-- Records the bucket of a block, in both tables. -/
def recordBlock (g : Graph) (b : BlockId) (bucket : Nat) : Graph :=
  { g with
    blockIndices := g.blockIndices.insert b bucket
    blocksByIndex := g.blocksByIndex.insert bucket b }

/-- Adds a node, places it in its bucket and registers it for its value. -/
def addNode (g : Graph) (node : Node) : Graph × NodeId :=
  let n : NodeId := ⟨g.nodes.size⟩
  ({ g with
      nodes := g.nodes.push node
      registry := g.registry.insert node.value n
      buckets := g.buckets.place node.bucket node.value },
    n)

def addUse (g : Graph) (source target : NodeId) : Graph :=
  { g with
    nodes := g.nodes.modify source.index fun node => { node with uses := node.uses ++ [target] } }

def addControl (g : Graph) (n : NodeId) (edge : ControlEdge) : Graph :=
  { g with
    nodes := g.nodes.modify n.index fun node => { node with controls := node.controls ++ [edge] } }

/-- Adds a chain and the widths of its operations. -/
def addChain (g : Graph) (chain : Chain) (widths : List (ValueId × Nat)) : Graph :=
  { g with
    chains := g.chains ++ [chain]
    chainWidths := g.chainWidths.insertAll widths }

end Graph

end Datapath
