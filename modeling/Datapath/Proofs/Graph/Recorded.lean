import Datapath.Proofs.Graph.Sweep

/-!
# What nodes record

The sweep makes a graph by four kinds of steps: it asks for nodes, adds use edges, traces addresses
and adds control edges. A property of graphs that all four keep (`Graph.Kept`) holds of the finished
graph if it holds at the start.

The first such property is that nodes are *described* right: the width and the kind of a node are
those of its value, and parameters are in the interface bucket.
-/

namespace Datapath

namespace Graph

variable {s : Setting} {bucket : Nat} {g g' : Graph} {v : ValueId} {n : NodeId} {i : Instruction}

/-! ## Properties that construction keeps -/

/-- Every step of construction in a bucket keeps the property. Edges lead to nodes that the graph
has already. -/
structure Kept (s : Setting) (bucket : Nat) (motive : Graph → Prop) : Prop where
  request : ∀ {g v g' n}, motive g → Graph.request s bucket g v = .ok (g', n) → motive g'
  use : ∀ {g v m} (n : NodeId), motive g → g.nodeId? v = some m → motive (g.addUse n m)
  trace : ∀ {i g g'}, motive g → traceAddress s i g = .ok g' → motive g'
  control : ∀ {g v} {edge : ControlEdge} (n : NodeId), motive g → g.nodeId? v = some edge.source →
    motive (g.addControl n edge)

namespace Kept

variable {motive : Graph → Prop}

/-- A link is a node that is asked for, and an edge to it. -/
theorem link (kept : Kept s bucket motive) (hg : motive g) {o : ValueId}
    (h : Graph.link s bucket n g o = .ok g') : motive g' := by
  obtain ⟨⟨mid, m⟩, hreq, h⟩ := Outcome.bind_eq_ok.mp h
  obtain rfl := Outcome.pure_eq_ok.mp h
  exact kept.use n (kept.request hg hreq) (nodeId?_of_request hreq)

theorem links (kept : Kept s bucket motive) (hg : motive g) {os : List ValueId}
    (h : os.foldlM (Graph.link s bucket n) g = .ok g') : motive g' :=
  Outcome.foldlM_induction (fun _ _ _ hmid hlink => kept.link hmid hlink) hg h

theorem applyGuard (kept : Kept s bucket motive) (hg : motive g)
    (h : Graph.applyGuard s bucket n g = .ok g') : motive g' := by
  unfold Graph.applyGuard at h
  split at h
  · obtain rfl := Outcome.pure_eq_ok.mp h
    exact hg
  · obtain ⟨⟨mid, source⟩, hreq, h⟩ := Outcome.bind_eq_ok.mp h
    obtain rfl := Outcome.pure_eq_ok.mp h
    exact kept.control n (kept.request hg hreq) (nodeId?_of_request hreq)

/-- An instruction is added by the four kinds of steps, in this order. -/
theorem addInstruction (kept : Kept s bucket motive) (hg : motive g)
    (h : Graph.addInstruction s bucket v i g = .ok g') : motive g' := by
  obtain ⟨⟨g₁, n⟩, hreq, h⟩ := Outcome.bind_eq_ok.mp h
  obtain ⟨os, -, h⟩ := Outcome.bind_eq_ok.mp h
  obtain ⟨g₂, hlinks, h⟩ := Outcome.bind_eq_ok.mp h
  obtain ⟨g₃, htrace, hguard⟩ := Outcome.bind_eq_ok.mp h
  exact kept.applyGuard (kept.trace (kept.links (kept.request hg hreq) hlinks) htrace) hguard

/-- What is not tracked is passed over, and the rest is added. -/
theorem visit (kept : Kept s bucket motive) (hfeeds : FeedTable.ofKernel s.kernel = .ok s.feeds)
    (hg : motive g) (h : Graph.visit s bucket g v = .ok g') : motive g' := by
  rcases visit_cases hfeeds h with ⟨i, -, hadd⟩ | ⟨-, rfl⟩
  · exact kept.addInstruction hg hadd
  · exact hg

end Kept

/-- **What every step keeps holds of the finished graph.** -/
theorem ofKernel_induction {k : Kernel} {widths : Widths} {motive : Graph → Prop}
    (kept : ∀ guards feeds bucket, Kept ⟨k, widths, guards, feeds⟩ bucket motive)
    (start : motive (numbered k)) (h : ofKernel k widths = .ok g) : motive g := by
  obtain ⟨guards, -, h⟩ := Outcome.bind_eq_ok.mp h
  obtain ⟨feeds, hfeeds, h⟩ := Outcome.bind_eq_ok.mp h
  refine Outcome.foldlM_induction (fun g entry g' hg hblock => ?_) start h
  exact Outcome.foldlM_induction (fun _ _ _ => (kept guards feeds _).visit hfeeds) hg hblock

end Graph

/-! ## Descriptions -/

/-- A node says of its value what the kernel and the widths say. -/
structure Node.Describes (k : Kernel) (widths : Widths) (node : Node) : Prop where
  width : widths.width node.value = .ok node.width
  kind : NodeKind.ofValue k node.value = .ok node.kind
  interface : node.kind.isParam = true → node.bucket = Graph.interfaceBucket

namespace Graph

variable {s : Setting} {bucket : Nat} {g g' : Graph} {v : ValueId} {n : NodeId}

def Described (k : Kernel) (widths : Widths) (g : Graph) : Prop :=
  ∀ (n : NodeId) (node : Node), g.nodes[n.index]? = some node → node.Describes k widths

/-- A node that is described right when it is made leaves the others described right. -/
theorem described_addNode {k : Kernel} {widths : Widths} (h : Described k widths g) {node : Node}
    (new : node.Describes k widths) : Described k widths (g.addNode node).1 := by
  intro n node' hn
  rw [getElem?_addNode] at hn
  split at hn
  · obtain rfl := Option.some.inj hn
    exact new
  · exact h n node' hn

/-- Edges leave descriptions alone. -/
theorem described_modify {k : Kernel} {widths : Widths} (h : Described k widths g) {n : NodeId}
    {f : Node → Node}
    (same : ∀ node : Node, node.Describes k widths → (f node).Describes k widths) :
    Described k widths { g with nodes := g.nodes.modify n.index f } := by
  intro m node hm
  rw [getElem?_modify_node] at hm
  obtain ⟨old, hold, rfl⟩ := Option.map_eq_some_iff.mp hm
  split
  · exact same old (h m old hold)
  · exact h m old hold

/-- A new node is made with the width and the kind of its value. -/
theorem described_request (h : Described s.kernel s.widths g)
    (hg : request s bucket g v = .ok (g', n)) : Described s.kernel s.widths g' := by
  obtain ⟨width, hwidth, hg⟩ := Outcome.bind_eq_ok.mp hg
  split at hg
  · cases Outcome.pure_eq_ok.mp hg
    exact h
  · obtain ⟨kind, hkind, hg⟩ := Outcome.bind_eq_ok.mp hg
    cases Outcome.pure_eq_ok.mp hg
    exact described_addNode h ⟨hwidth, hkind, fun hparam => if_pos hparam⟩

/-- **The nodes of a finished graph are described right.** -/
theorem described_of_ofKernel {k : Kernel} {widths : Widths} (h : ofKernel k widths = .ok g) :
    Described k widths g := by
  refine ofKernel_induction (motive := Described k widths) (fun guards feeds bucket => ?_)
    (fun n node hn => absurd hn (by simp)) h
  refine ⟨fun hg hreq => described_request (s := ⟨k, widths, guards, feeds⟩) hg hreq,
    fun n hg _ => ?_, fun hg htrace => ?_, fun n hg _ => ?_⟩
  · exact described_modify hg fun node hnode => ⟨hnode.width, hnode.kind, hnode.interface⟩
  · -- a chain is recorded beside the nodes
    obtain rfl | ⟨chain, widths, -, rfl⟩ := traceAddress_eq_ok htrace
    · exact hg
    · exact hg
  · exact described_modify hg fun node hnode => ⟨hnode.width, hnode.kind, hnode.interface⟩

end Graph

end Datapath
