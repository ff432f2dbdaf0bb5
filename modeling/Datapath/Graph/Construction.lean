import Datapath.Address.Base
import Datapath.Address.Feeds
import Datapath.Address.Operations
import Datapath.Graph.Basic
import Datapath.Width.Widths

/-!
# From a kernel to its graph

A graph is made from a kernel and the widths of its values, in one sweep over the instructions in
textual order. Loads, stores, arithmetic and comparisons get nodes; casts, branches, returns and
what feeds an address are passed over.

Each node made for an instruction is linked to its *sources*, in order: for a load or a store the
bases of its address, then the stored value; for any other instruction its operands. Stored values
and operands are taken through a cast. A source gets a node as it is met, whatever it is, so what
the sweep passes over may still have one.

## Guards

The two successors of a conditional branch are *guarded* by its condition, and every node made for
an instruction of a guarded block gets a control edge from the condition's node. A block has one
guard: of several, the one entered last, in block order and the false successor after the true one.
-/

namespace Datapath

/-! ## Guards -/

/-- The branch outcome that leads into a block. -/
structure Guard where
  condition : ValueId
  polarity : Polarity

abbrev Guards := Table Nat Guard

namespace Guards

/-- The bucket of a block, which has to be numbered. -/
def bucketOf (numbering : Graph) (b : BlockId) : Outcome Nat :=
  match numbering.blockIndex? b with
  | some bucket => .ok bucket
  | none => reject (.malformed (.unnumberedBlock b))

/-- Enters the guards that a terminator sets up. -/
def enter (k : Kernel) (numbering : Graph) (block : Block) (terminator : ValueId)
    (i : Instruction) (guards : Guards) : Outcome Guards :=
  match i.opcode with
  | .condBr =>
    match i.condition? with
    | none => reject (.malformed (.missingCondition terminator))
    | some condition =>
      (i.successors.zip [Polarity.whenTrue, Polarity.whenFalse]).foldlM
        (fun guards (successor, polarity) =>
          return guards.insert (← bucketOf numbering successor) ⟨condition, polarity⟩)
        guards
  | .br => return guards
  | .ret => return guards
  | opcode => reject (.unsupportedTerminator k.name block.name opcode)

def ofKernel (k : Kernel) (numbering : Graph) : Outcome Guards :=
  k.blocks.toList.foldlM
    (fun guards block =>
      match k.terminator? block with
      | none => return guards
      | some terminator =>
        match k.instruction? terminator with
        | none => return guards
        | some i => enter k numbering block terminator i guards)
    .empty

end Guards

/-! ## Construction -/

namespace Graph

/-- What construction reads. -/
structure Setting where
  kernel : Kernel
  widths : Widths
  guards : Guards
  feeds : FeedTable

def recordBlocks (g : Graph) (blocks : List (BlockId × Nat)) : Graph :=
  blocks.foldl (fun g (b, bucket) => g.recordBlock b bucket) g

/-- The graph of a kernel before any node is made: its blocks are numbered from one. -/
def numbered (k : Kernel) : Graph := (empty k.name).recordBlocks (k.blockIds.zipIdx 1)

/-- The node of a value, made if there is none. Parameters go to the interface bucket. -/
def request (s : Setting) (bucket : Nat) (g : Graph) (v : ValueId) : Outcome (Graph × NodeId) := do
  let width ← s.widths.width v
  match g.nodeId? v with
  | some n => return (g, n)
  | none =>
    let kind ← NodeKind.ofValue s.kernel v
    return g.addNode
      { value := v
        width := width
        kind := kind
        bucket := if kind.isParam then interfaceBucket else bucket }

/-- Links a node to the node of a value. -/
def link (s : Setting) (bucket : Nat) (source : NodeId) (g : Graph) (v : ValueId) :
    Outcome Graph := do
  let (g, target) ← request s bucket g v
  return g.addUse source target

/-- The values that an instruction takes its data from. -/
def sources (k : Kernel) (v : ValueId) (i : Instruction) : Outcome (List ValueId) :=
  match i.opcode with
  | .load | .store =>
    match i.address? with
    | none => reject (.malformed (.missingAddress i.opcode v))
    | some address => return (← k.bases address) ++ (i.stored?.map k.underlying).toList
  | _ => return i.operands.map k.underlying

/-- Records the chain of an address computation, unless it is recorded. -/
def traceChain (s : Setting) (address : ValueId) (g : Graph) : Outcome Graph := do
  if (g.chain? address).isSome then return g
  let base ← s.kernel.basePointer address
  let indices := ((s.kernel.instruction? address).map (·.indices)).getD []
  let operations := (← indices.mapM s.kernel.operations).flatten
  let widths ← operations.mapM fun o => return (o, ← s.widths.width o)
  return g.addChain ⟨address, base, operations⟩ widths

/-- Records the chain of the address of a load or a store, if that is computed. -/
def traceAddress (s : Setting) (i : Instruction) (g : Graph) : Outcome Graph :=
  match i.opcode with
  | .load | .store =>
    match i.address? with
    | some address =>
      if s.kernel.opcode? address = some .getElementPtr then traceChain s address g else return g
    | none => return g
  | _ => return g

/-- Adds the control edge of a node in a guarded block. -/
def applyGuard (s : Setting) (bucket : Nat) (n : NodeId) (g : Graph) : Outcome Graph := do
  match s.guards.find? bucket with
  | none => return g
  | some guard =>
    let (g, source) ← request s bucket g guard.condition
    return g.addControl n { source := source, polarity := guard.polarity }

/-- Makes the node of an instruction and its edges. -/
def addInstruction (s : Setting) (bucket : Nat) (v : ValueId) (i : Instruction) (g : Graph) :
    Outcome Graph := do
  let (g, n) ← request s bucket g v
  let g ← (← sources s.kernel v i).foldlM (link s bucket n) g
  let g ← traceAddress s i g
  applyGuard s bucket n g

/-- Takes in an instruction of a block. -/
def visit (s : Setting) (bucket : Nat) (g : Graph) (v : ValueId) : Outcome Graph :=
  match s.kernel.instruction? v with
  | none => return g
  | some i =>
    if s.feeds.feeds v then return g
    else
      match i.opcode with
      | .load | .store | .icmp | .add | .sub | .mul | .sdiv | .udiv | .ashr =>
        addInstruction s bucket v i g
      | .getElementPtr | .trunc | .zext | .br | .condBr | .ret => return g
      | opcode => reject (.unsupportedOpcode s.kernel.name v opcode)

def visitBlock (s : Setting) (g : Graph) (entry : Block × Nat) : Outcome Graph :=
  entry.1.instructions.foldlM (visit s entry.2) g

/-- The graph of a kernel whose values have the given widths. -/
def ofKernel (k : Kernel) (widths : Widths) : Outcome Graph := do
  let start := numbered k
  let guards ← Guards.ofKernel k start
  let feeds ← FeedTable.ofKernel k
  (k.blocks.toList.zipIdx 1).foldlM (visitBlock ⟨k, widths, guards, feeds⟩) start

end Graph

end Datapath
