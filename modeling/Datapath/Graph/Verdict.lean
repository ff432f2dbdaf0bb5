import Datapath.Graph.Basic
import Datapath.Width.Widths

/-!
# Checking a graph

`Graph.verify` checks six invariants of a graph against its kernel and a record of widths, and gives
a `Verdict`: which invariants hold, and for those that do not, every `Violation` found. Nothing
about the graph is taken for granted, so it may be one whose parts disagree.
-/

namespace Datapath

/-! ## Invariants and violations -/

/-- What has to hold of a graph. -/
inductive Invariant where
  /-- Each node is placed once, in the bucket it records, and nothing else is placed. -/
  | bucketMembership
  /-- Parameters are in the interface bucket. -/
  | interfaceParams
  /-- Each node has the width recorded for its value. -/
  | inferredWidths
  /-- The registry leads from a node's value to that node. -/
  | uniqueNodes
  /-- Edges lead to nodes of the graph. -/
  | edgeTargets
  /-- Control edges start at comparisons or other single bits. -/
  | controlSources
  deriving DecidableEq

def Invariant.name : Invariant → String
  | bucketMembership => "bucket_membership"
  | interfaceParams => "params_in_interface_bucket"
  | inferredWidths => "widths_match_inference"
  | uniqueNodes => "unique_nodes"
  | edgeTargets => "edges_reference_nodes"
  | controlSources => "control_sources_are_conditions"

/-- Where an invariant is broken, and how. -/
inductive Violation where
  | misplaced (value : ValueId) (recorded : Nat) (found : List Nat)
  | withoutNode (value : ValueId) (found : List Nat)
  | outsideInterface (value : ValueId) (kind : NodeKind) (bucket : Nat)
  | otherWidth (value : ValueId) (width : Nat) (inferred : Option Nat)
  | unregistered (value : ValueId) (position : Nat)
  | dangling (value : ValueId) (target : NodeId)
  | notCondition (value source : ValueId)
  deriving DecidableEq

namespace Violation

def invariant : Violation → Invariant
  | misplaced .. | withoutNode .. => .bucketMembership
  | outsideInterface .. => .interfaceParams
  | otherWidth .. => .inferredWidths
  | unregistered .. => .uniqueNodes
  | dangling .. => .edgeTargets
  | notCondition .. => .controlSources

def location : Violation → ValueId
  | misplaced v .. | withoutNode v .. | outsideInterface v .. | otherWidth v .. | unregistered v ..
  | dangling v .. | notCondition v .. => v

def bracketed (numbers : List Nat) : String := "[" ++ ", ".intercalate (numbers.map Nat.repr) ++ "]"

def inferredText : Option Nat → String
  | some bits => s!"Some({bits})"
  | none => "None"

def detail : Violation → String
  | misplaced _ recorded found =>
    s!"node records bucket {recorded} but is placed in {bracketed found}"
  | withoutNode _ found => s!"bucketed in {bracketed found} without a node"
  | outsideInterface _ kind bucket => s!"{kind.name} placed in bucket {bucket}"
  | otherWidth _ width inferred => s!"node width {width} but inferred {inferredText inferred}"
  | unregistered _ position => s!"node #{position} is not the node registered for its value"
  | dangling _ target => s!"edge to missing node #{target.index}"
  | notCondition _ source => s!"control edge from non-condition {source.text}"

end Violation

/-! ## Verdicts -/

/-- The result of checking a graph. -/
structure Verdict where
  success : Bool := true
  violations : List Violation := []
  /-- The invariants that hold, in the order in which they were checked. -/
  proven : List Invariant := []

/-- Takes in the violations found of an invariant: none means that it holds. -/
def Verdict.record (r : Verdict) (i : Invariant) (found : List Violation) : Verdict :=
  if found.isEmpty then { r with proven := r.proven ++ [i] }
  else { r with success := false, violations := r.violations ++ found }

/-! ## The checks -/

namespace Graph

/-- Nodes that are not placed once in the bucket they record. Of several nodes of one value the
first has the placements and the others have none. -/
def misplacedNodes (b : Buckets) : (seen : List ValueId) → List Node → List Violation
  | _, [] => []
  | seen, node :: rest =>
    let found := if node.value ∈ seen then [] else b.bucketsOf node.value
    let later := misplacedNodes b (node.value :: seen) rest
    if found = [node.bucket] then later else .misplaced node.value node.bucket found :: later

/-- Values that are placed and have no node, in order of first placement. -/
def strayPlacements (g : Graph) : List Violation :=
  let placed := (g.buckets.placements.map (·.1)).eraseDups
  (placed.filter fun v => g.nodes.all (·.value ≠ v)).map fun v =>
    .withoutNode v (g.buckets.bucketsOf v)

def bucketViolations (g : Graph) : List Violation :=
  misplacedNodes g.buckets [] g.nodes.toList ++ g.strayPlacements

def interfaceViolations (g : Graph) : List Violation :=
  (g.nodes.toList.filter fun node => node.kind.isParam && node.bucket != interfaceBucket).map
    fun node => .outsideInterface node.value node.kind node.bucket

def widthViolations (g : Graph) (w : Widths) : List Violation :=
  (g.nodes.toList.filter fun node => w.width? node.value != some node.width).map
    fun node => .otherWidth node.value node.width (w.width? node.value)

/-- The nodes that their value does not lead to. -/
def registryViolations (g : Graph) : List Violation :=
  (g.nodes.toList.zipIdx.filter fun (node, position) =>
      g.nodeId? node.value != some ⟨position⟩).map
    fun (node, position) => .unregistered node.value position

/-- The edges that lead to no node: of each node first the uses, then the controls. -/
def edgeViolations (g : Graph) : List Violation :=
  g.nodes.toList.flatMap fun node =>
    ((node.uses ++ node.controls.map (·.source)).filter fun n => g.nodes.size ≤ n.index).map
      fun n => .dangling node.value n

def isCondition (x : Value) : Bool := x.opcode? == some .icmp || x.type == .int 1

/-- The violation of a control edge whose source is a node, if it is one. -/
def sourceViolation (k : Kernel) (g : Graph) (node : Node) (edge : ControlEdge) :
    Outcome (List Violation) := do
  match g.nodes[edge.source.index]? with
  | none => return []
  | some source =>
    if isCondition (← k.value source.value) then return []
    else return [.notCondition node.value source.value]

/-- The control edges that start at something else than a condition. -/
def controlViolations (k : Kernel) (g : Graph) : Outcome (List Violation) := do
  let found ← g.nodes.toList.mapM fun node => node.controls.mapM (sourceViolation k g node)
  return found.flatten.flatten

/-- Checks all invariants of a graph, made from `k`, against a record of widths. -/
def verify (g : Graph) (k : Kernel) (w : Widths) : Outcome Verdict := do
  let sources ← controlViolations k g
  let r : Verdict := {}
  return r
    |>.record .bucketMembership g.bucketViolations
    |>.record .interfaceParams g.interfaceViolations
    |>.record .inferredWidths (g.widthViolations w)
    |>.record .uniqueNodes g.registryViolations
    |>.record .edgeTargets g.edgeViolations
    |>.record .controlSources sources

end Graph

end Datapath
