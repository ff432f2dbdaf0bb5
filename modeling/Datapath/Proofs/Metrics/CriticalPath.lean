import Datapath.Proofs.Address.Answers
import Datapath.Proofs.Graph.Dependency
import Datapath.Proofs.Graph.Contents
import Datapath.Proofs.Graph.Indices
import Datapath.Proofs.Metrics.Flow

/-!
# The critical path is a longest path

Use edges lead from values to earlier ones: an operand is older than its user, also when it is seen
through a cast, and a root of an address is older than the access, however long the way to it. So
use edges form no cycle, and depths settle (`Graph.exists_criticalPath`).

A graph is read as a `Flow` here. That settled depths are exact, and what exact depths mean, is
known of flows.
-/

namespace Datapath

/-! ## Use edges lead back -/

namespace Kernel

variable {k : Kernel} {v o b : ValueId}

/-- The roots of an address are no later than the address. -/
theorem WellFormed.rootedIn_le (wf : k.WellFormed) (h : k.RootedIn v b) : b.index ≤ v.index := by
  induction h with
  | base => exact Nat.le_refl _
  | step known input _ ih => exact Nat.le_trans ih (Nat.le_of_lt (wf.input_lt known input))

/-- **The sources of an instruction come before it.** -/
theorem WellFormed.takesFrom_lt (wf : k.WellFormed) (h : k.TakesFrom v o) : o.index < v.index := by
  obtain ⟨i, os, t, hos, ho⟩ := h
  rcases Bool.or_eq_true_iff.mp t.opcode with accesses | computes
  · obtain ⟨a, ha, hmem⟩ := mem_sources_of_isAccess accesses hos
    rcases (hmem o).mp ho with rooted | ⟨x, hx, rfl⟩
    · exact Nat.lt_of_le_of_lt (wf.rootedIn_le rooted)
        (wf.operand_lt t.known (Instruction.mem_operands_of_address? ha))
    · exact wf.underlying_lt t.known (Instruction.mem_operands_of_stored? hx)
  · -- a computation: its operands are older, also behind a cast
    rw [sources_of_isComputation computes] at hos
    obtain rfl := Except.ok.inj hos
    obtain ⟨x, hx, rfl⟩ := List.mem_map.mp ho
    exact wf.underlying_lt t.known hx

end Kernel

namespace Graph

variable {g : Graph} {n m : NodeId} {depths : Array Nat}

/-- Use edges lead to nodes of earlier values. -/
def Descends (g : Graph) : Prop := ∀ n m, g.Uses n m →
  ∃ v u, g.valueAt? n = some v ∧ g.valueAt? m = some u ∧ u.index < v.index

/-- An edge of the finished graph leads to a source, which is an earlier value. -/
theorem descends_of_ofKernel {k : Kernel} {widths : Widths} (wf : k.WellFormed)
    (h : ofKernel k widths = .ok g) : g.Descends := by
  intro n m edge
  have swept := swept_of_ofKernel wf h
  obtain ⟨node, hnode, -⟩ := id edge
  have hn := swept.registered.nodeId?_of_getElem? hnode
  obtain ⟨o, takes, ho⟩ := (swept.uses_iff_takesFrom wf hn).mp edge
  exact ⟨node.value, o, (swept.registered _ _).mp hn, (swept.registered _ _).mp ho,
    wf.takesFrom_lt takes⟩

/-! ## A graph as a flow -/

structure IsPath (g : Graph) (path : List NodeId) : Prop where
  chain : path.IsChain g.Uses
  within : ∀ n ∈ path, n.index < g.nodes.size

def pathLengths (g : Graph) : Set Nat := { length | ∃ path, g.IsPath path ∧ path.length = length }

@[simp] theorem size_flow (g : Graph) : g.flow.size = g.nodes.size := rfl

/-- Data flows against use edges. -/
theorem feeds_flow {m n : Nat} : g.flow.Feeds m n ↔ g.Uses ⟨n⟩ ⟨m⟩ := by
  simp only [Flow.Feeds, flow, List.mem_flatMap, List.mem_map, Prod.mk.injEq, Uses]
  constructor
  · rintro ⟨⟨node, l⟩, hnode, o, ho, rfl, rfl⟩
    rw [List.mem_zipIdx_iff_getElem?, Array.getElem?_toList] at hnode
    exact ⟨node, hnode, ho⟩
  · rintro ⟨node, hnode, hm⟩
    refine ⟨(node, n), ?_, ⟨m⟩, hm, rfl, rfl⟩
    rwa [List.mem_zipIdx_iff_getElem?, Array.getElem?_toList]

theorem closed_flow (closed : g.Closed) : g.flow.Closed := by
  intro m n feeds
  obtain ⟨node, hnode, hm⟩ := feeds_flow.mp feeds
  exact ⟨closed ⟨n⟩ node hnode ⟨m⟩ (List.mem_append_left _ hm),
    (Array.getElem?_eq_some_iff.mp hnode).1⟩

/-- Where edges lead back, no data flows back to where it came from. -/
theorem acyclic_flow (descends : g.Descends) : g.flow.Acyclic := by
  -- along the flow values only get later
  have later : ∀ {m n}, Relation.TransGen g.flow.Feeds m n →
      ∃ v u, g.valueAt? ⟨n⟩ = some v ∧ g.valueAt? ⟨m⟩ = some u ∧ u.index < v.index := by
    intro m n way
    induction way with
    | single feeds => exact descends _ _ (feeds_flow.mp feeds)
    | tail _ feeds ih =>
        obtain ⟨w, u, hw, hu, hlt⟩ := ih
        obtain ⟨v, w', hv, hw', hlt'⟩ := descends _ _ (feeds_flow.mp feeds)
        obtain rfl := Option.some.inj (hw.symm.trans hw')
        exact ⟨v, u, hv, hu, Nat.lt_trans hlt hlt'⟩
  intro n way
  obtain ⟨v, u, hv, hu, hlt⟩ := later way
  obtain rfl := Option.some.inj (hv.symm.trans hu)
  exact absurd hlt (Nat.lt_irrefl _)

/-- A path of the flow is a path of the graph, with the nodes in place of their positions. -/
theorem pathLengths_flow (g : Graph) : g.flow.pathLengths = g.pathLengths := by
  ext length
  constructor
  · rintro ⟨path, ⟨chain, within⟩, rfl⟩
    refine ⟨path.map NodeId.mk, ⟨?_, ?_⟩, List.length_map _⟩
    · exact (List.isChain_map NodeId.mk).mpr (chain.imp fun _ _ => feeds_flow.mp)
    · simpa using within
  · rintro ⟨path, ⟨chain, within⟩, rfl⟩
    refine ⟨path.map NodeId.index, ⟨?_, ?_⟩, List.length_map _⟩
    · exact (List.isChain_map NodeId.index).mpr (chain.imp fun _ _ => feeds_flow.mpr)
    · simpa using within

/-! ## Depths that settle -/

/-- A graph and its flow give a node the same depth, since both look at the nodes that it uses. -/
theorem depthOf_eq_flow {n : Nat} {node : Node} (hn : g.nodes[n]? = some node) :
    depthOf depths node = g.flow.depthOf (fun m => depths[m]?.getD 0) n := by
  refine congrArg (· + 1) (Flow.foldl_max_congr fun depth => ?_)
  simp only [List.mem_map, Flow.mem_into]
  constructor
  · rintro ⟨m, hm, hdepth⟩
    exact ⟨m.index, feeds_flow.mpr ⟨node, hn, hm⟩, hdepth⟩
  · rintro ⟨m, feeds, hdepth⟩
    obtain ⟨node', hn', hm⟩ := feeds_flow.mp feeds
    obtain rfl := Option.some.inj (hn.symm.trans hn')
    exact ⟨⟨m⟩, hm, hdepth⟩

/-- **Depths that a round leaves as they are** tell the length of a longest path. -/
theorem isGreatest_of_relax (closed : g.Closed) (fixed : g.relax depths = depths) :
    IsGreatest g.pathLengths (depths.foldl max 0) := by
  have hsize : depths.size = g.nodes.size := by
    rw [← fixed, relax, Array.size_map]
  rw [← pathLengths_flow]
  refine Flow.Exact.isGreatest (fun n hn => ?_) (closed_flow closed) hsize
  have hnode := Array.getElem?_eq_getElem (show n < g.nodes.size from hn)
  rw [← depthOf_eq_flow hnode]
  show depths[n]?.getD 0 = _
  conv_lhs => rw [← fixed, relax, Array.getElem?_map, hnode]
  rfl

def heights (g : Graph) (rounds : Nat) : Array Nat :=
  (Array.range g.nodes.size).map (g.flow.height rounds)

theorem getElem?_heights {n : Nat} (hn : n < g.nodes.size) (r : Nat) :
    (g.heights r)[n]? = some (g.flow.height r n) := by
  simp [heights, hn]

/-- Depths start as those after one round, when each node counts itself only. -/
theorem heights_one (g : Graph) : g.heights 1 = Array.replicate g.nodes.size 1 := by
  apply Array.ext
  · simp [heights]
  · intro n _ _
    simp only [heights, Array.getElem_map, Array.getElem_range, Array.getElem_replicate]
    rcases g.flow.depthOf_cases (g.flow.height 0) n with hone | ⟨m, -, hdepth⟩
    · exact hone
    · exact hdepth

/-- A round of relaxation goes from the heights of a round to those of the next. -/
theorem relax_heights (closed : g.Closed) (r : Nat) :
    g.relax (g.heights r) = g.heights (r + 1) := by
  apply Array.ext
  · simp [relax, heights]
  · intro n hn _
    rw [relax, Array.size_map] at hn
    simp only [relax, heights, Array.getElem_map, Array.getElem_range]
    rw [depthOf_eq_flow (Array.getElem?_eq_getElem hn)]
    refine Flow.depthOf_congr fun feeds => ?_
    exact congrArg (·.getD 0) (getElem?_heights (closed_flow closed feeds).1 r)

theorem heights_succ_size (closed : g.Closed) (descends : g.Descends) :
    g.heights (g.nodes.size + 1) = g.heights g.nodes.size := by
  apply Array.ext
  · simp [heights]
  · intro n hn _
    have hlt : n < g.flow.size := by simpa [heights] using hn
    simp only [heights, Array.getElem_map, Array.getElem_range]
    exact (Flow.exact_height (closed_flow closed) (acyclic_flow descends) n hlt).symm

/-- With the rounds that are left, depths settle. -/
theorem exists_settleDepths (closed : g.Closed) (descends : g.Descends) {rounds r : Nat}
    (hrounds : rounds + r = g.nodes.size) :
    ∃ depths, g.settleDepths rounds (g.heights (r + 1)) = some depths ∧
      g.relax depths = depths := by
  induction rounds generalizing r with
  | zero =>
      -- no round is left, and the heights have settled
      obtain rfl : r = g.nodes.size := by omega
      have fixed : g.relax (g.heights (g.nodes.size + 1)) = g.heights (g.nodes.size + 1) := by
        conv_lhs => rw [heights_succ_size closed descends]
        exact relax_heights closed _
      exact ⟨_, if_pos fixed, fixed⟩
  | succ rounds ih =>
      rw [settleDepths]
      by_cases fixed : g.relax (g.heights (r + 1)) = g.heights (r + 1)
      · exact ⟨_, if_pos fixed, fixed⟩
      · simp only [if_neg fixed]
        rw [relax_heights closed]
        exact ih (by omega)

/-- **The critical path of a graph is a longest path**, if edges lead back. -/
theorem exists_criticalPath (closed : g.Closed) (descends : g.Descends) :
    ∃ length, g.criticalPath? = some length ∧ IsGreatest g.pathLengths length := by
  obtain ⟨depths, hdepths, fixed⟩ :=
    exists_settleDepths closed descends (Nat.add_zero g.nodes.size)
  rw [heights_one] at hdepths
  refine ⟨depths.foldl max 0, ?_, isGreatest_of_relax closed fixed⟩
  rw [criticalPath?, depths?, hdepths]
  rfl

/-- **One pass in the order of a sort** finds a longest path as well. -/
theorem exists_criticalPathBy {sort : Flow → Option (List Nat)} (sorts : Flow.Sorts sort)
    (closed : g.Closed) (descends : g.Descends) :
    ∃ length, g.criticalPathBy sort = some length ∧ IsGreatest g.pathLengths length := by
  obtain ⟨order, horder, sorted⟩ := sorts g.flow (closed_flow closed) (acyclic_flow descends)
  refine ⟨(g.flow.depths order).foldl max 0, by rw [criticalPathBy, horder]; rfl, ?_⟩
  rw [← pathLengths_flow]
  exact (Flow.exact_depths sorted).isGreatest (closed_flow closed) (Flow.settled_depths sorted).size

/-- The longest path is empty only if there is no node. -/
theorem eq_zero_iff_of_isGreatest {length : Nat} (h : IsGreatest g.pathLengths length) :
    length = 0 ↔ g.nodes.size = 0 := by
  obtain ⟨⟨path, hpath, rfl⟩, hmax⟩ := h
  constructor
  · intro hlength
    by_contra hsize
    -- the first node is a path
    have hone := hmax ⟨[⟨0⟩], ⟨.singleton _, by simpa using Nat.pos_of_ne_zero hsize⟩, rfl⟩
    rw [hlength] at hone
    exact absurd hone (by decide)
  · intro hsize
    rw [List.length_eq_zero_iff, List.eq_nil_iff_forall_not_mem]
    intro n hn
    have := hpath.within n hn
    omega

theorem le_size_of_mem_pathLengths (descends : g.Descends) {length : Nat}
    (h : length ∈ g.pathLengths) : length ≤ g.nodes.size := by
  rw [← pathLengths_flow] at h
  -- a path without a cycle comes to no node twice
  obtain ⟨path, hpath, rfl⟩ := h
  exact (acyclic_flow descends).length_le hpath

/-- **The critical path.** Every use edge leads to the node of an earlier value. Therefore both ways
to the critical path come to an end, that in rounds and that in the order of a sort, and find the
number of nodes on a longest path along use edges. It is zero if there is no node, and never more
than there are nodes. -/
theorem criticalPath_longest {name : String} {script : List Step} {k : Kernel}
    (built : Kernel.ofScript? name script = some k) {widths : Widths}
    (h : ofKernel k widths = .ok g) {sort : Flow → Option (List Nat)} (sorts : Flow.Sorts sort) :
    (∀ n m, g.Uses n m →
      ∃ v u, g.valueAt? n = some v ∧ g.valueAt? m = some u ∧ u.index < v.index) ∧
    ∃ length, g.criticalPathBy sort = some length ∧ g.criticalPath? = some length ∧
      IsGreatest { l | ∃ path, g.IsPath path ∧ path.length = l } length ∧
      (length = 0 ↔ g.nodes.size = 0) ∧ length ≤ g.nodes.size := by
  have descends := descends_of_ofKernel (Kernel.ofScript?_wellFormed built) h
  have closed := (closed_of_ofKernel h).2
  obtain ⟨length, hlength, greatest⟩ := exists_criticalPath closed descends
  obtain ⟨length', hlength', greatest'⟩ := exists_criticalPathBy sorts closed descends
  obtain rfl := greatest.unique greatest'
  exact ⟨descends, length, hlength', hlength, greatest, eq_zero_iff_of_isGreatest greatest,
    le_size_of_mem_pathLengths descends greatest.1⟩

end Graph

/-- A value is tripled by two sums. -/
def Kernel.tripleScript : List Step :=
  [.param "x" (.int 8), .block "entry", .moveTo ⟨0⟩, .binary .add ⟨0⟩ ⟨0⟩ "twice",
    .binary .add ⟨1⟩ ⟨0⟩ "thrice", .ret (some ⟨2⟩)]

def Kernel.triple : Kernel := (Kernel.ofScript? "triple" tripleScript).getD (.empty "triple")

namespace Graph

/-- Of the three nodes, that of the first sum is made first, but the parameter is the first in any
order. The first sum uses the parameter twice. -/
theorem criticalPath_longest_triple :
    Kernel.ofScript? "triple" Kernel.tripleScript = some Kernel.triple ∧
      Flow.Sorts Flow.sortByHeight ∧
      ∃ g, ofKernel Kernel.triple (Kernel.triple.uniform 8) = .ok g ∧
        g.flow.edges = [(1, 0), (1, 0), (0, 2), (1, 2)] ∧
        Flow.sortByHeight g.flow = some [1, 0, 2] ∧
        g.criticalPathBy Flow.sortByHeight = some 3 ∧ g.criticalPath? = some 3 ∧
        IsGreatest { l | ∃ path, g.IsPath path ∧ path.length = l } 3 := by
  have built : Kernel.ofScript? "triple" Kernel.tripleScript = some Kernel.triple := rfl
  have hshape : (ofKernel Kernel.triple (Kernel.triple.uniform 8)).toOption.map (fun g =>
      (g.flow.edges, Flow.sortByHeight g.flow, g.criticalPath?)) =
        some ([(1, 0), (1, 0), (0, 2), (1, 2)], some [1, 0, 2], some 3) := by decide +kernel
  obtain ⟨g, made, hshape⟩ := Outcome.exists_of_toOption_map hshape
  simp only [Prod.mk.injEq] at hshape
  obtain ⟨hedges, horder, hlength⟩ := hshape
  obtain ⟨-, length, hby, hin, greatest, -, -⟩ :=
    criticalPath_longest built made Flow.sorts_sortByHeight
  obtain rfl := Option.some.inj (hin.symm.trans hlength)
  exact ⟨built, Flow.sorts_sortByHeight, g, made, hedges, horder, hby, hin, greatest⟩

end Graph

end Datapath
