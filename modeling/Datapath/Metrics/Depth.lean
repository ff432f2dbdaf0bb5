import Datapath.Graph.Basic

/-!
# The critical path

The critical path of a graph is the longest chain of data dependencies, counted in nodes. Depths are
found by *relaxation*: each node starts with depth 1, and in each round it gets one more than the
deepest node it uses. In a graph of `n` nodes without a cycle, the depths stop changing within `n`
rounds; if they do not, there is a cycle and no longest chain.

If the nodes are sorted such that each comes after those it uses, one pass over them is enough
(`Graph.criticalPathBy`). All that the sort has to know of a graph is its `Flow`.
-/

namespace Datapath

namespace Graph

def depthOf (depths : Array Nat) (node : Node) : Nat :=
  (node.uses.map fun n => depths[n.index]?.getD 0).foldl max 0 + 1

def relax (g : Graph) (depths : Array Nat) : Array Nat := g.nodes.map (depthOf depths)

/-- Relaxes until nothing changes, for a number of rounds at most. -/
def settleDepths (g : Graph) : (rounds : Nat) → Array Nat → Option (Array Nat)
  | 0, depths => if g.relax depths = depths then some depths else none
  | rounds + 1, depths =>
    let next := g.relax depths
    if next = depths then some depths else settleDepths g rounds next

/-- The depth of each node, by number, if use edges form no cycle. -/
def depths? (g : Graph) : Option (Array Nat) :=
  g.settleDepths g.nodes.size (Array.replicate g.nodes.size 1)

def criticalPath? (g : Graph) : Option Nat := g.depths?.map fun depths => depths.foldl max 0

end Graph

/-! ## In one pass -/

/-- A flow of data between numbered places. An edge leads from the place that data comes from to the
place that takes it; there can be several between the same two. -/
structure Flow where
  size : Nat
  edges : List (Nat × Nat)

namespace Flow

def into (f : Flow) (n : Nat) : List Nat := (f.edges.filter fun e => e.2 = n).map Prod.fst

/-- The depth of a place, from the depths of those that it takes data from. -/
def depthOf (f : Flow) (depth : Nat → Nat) (n : Nat) : Nat :=
  ((f.into n).map depth).foldl max 0 + 1

def enter (f : Flow) (depths : Array Nat) (n : Nat) : Array Nat :=
  depths.setIfInBounds n (f.depthOf (fun m => depths[m]?.getD 0) n)

/-- The depths that one pass gives, in the order of the list. -/
def depths (f : Flow) (order : List Nat) : Array Nat :=
  order.foldl f.enter (Array.replicate f.size 0)

end Flow

namespace Graph

/-- Data flows into a node from those that it uses. -/
def flow (g : Graph) : Flow where
  size := g.nodes.size
  edges := g.nodes.toList.zipIdx.flatMap fun (node, n) => node.uses.map fun m => (m.index, n)

/-- The number of nodes on the longest path along use edges, by a sort of the nodes. The sort gives
no order if it meets a cycle. -/
def criticalPathBy (sort : Flow → Option (List Nat)) (g : Graph) : Option Nat :=
  (sort g.flow).map fun order => (g.flow.depths order).foldl max 0

end Graph

end Datapath
