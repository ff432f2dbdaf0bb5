import Datapath.Metrics.Basic
import Datapath.Proofs.Graph.Contents
import Datapath.Proofs.Graph.Verdict
import Datapath.Proofs.Metrics.CriticalPath
import Mathlib.Algebra.Order.BigOperators.Group.List
import Mathlib.Algebra.Order.Ring.Nat

/-!
# What the tallies count

Metrics take in the nodes of a graph one by one. A figure of a tally is therefore a number of nodes
(`foldl_eq_countP`), and what there are nodes for is known from the kernel: every load and store has
one, parameters have one or none, and no value has two. So `Kernel.metrics_count` can say what the
figures count in terms of the kernel.
-/

namespace Datapath

/-! ## Tallies -/

/-- If a figure of a tally goes up by one for the items of some sort, and stays the same for others,
it counts the items of that sort. -/
theorem foldl_eq_countP {γ α : Type} {add : γ → α → γ} (figure : γ → Nat) {p : α → Bool}
    (step : ∀ c a, figure (add c a) = figure c + if p a then 1 else 0) (l : List α) (c : γ) :
    figure (l.foldl add c) = figure c + l.countP p := by
  induction l generalizing c with
  | nil => rfl
  | cons a l ih =>
      rw [List.foldl_cons, ih, step, List.countP_cons, Nat.add_right_comm, Nat.add_assoc]

namespace KindCount

def params (c : KindCount) : Nat := c.inParams + c.outParams + c.inOutParams

theorem loads_add (c : KindCount) (kind : NodeKind) :
    (c.add kind).loads = c.loads + if kind = .load then 1 else 0 := by
  cases kind <;> rfl

theorem stores_add (c : KindCount) (kind : NodeKind) :
    (c.add kind).stores = c.stores + if kind = .store then 1 else 0 := by
  cases kind <;> rfl

theorem params_add (c : KindCount) (kind : NodeKind) :
    (c.add kind).params = c.params + if kind.isParam then 1 else 0 := by
  cases kind <;> simp only [add, params, NodeKind.isParam] <;> grind

end KindCount

/-! ## Nodes -/

/-- Loads have the nodes of loads, stores those of stores, and nothing else has. -/
theorem NodeKind.ofValue_eq_access {k : Kernel} {v : ValueId} {kind : NodeKind}
    (h : NodeKind.ofValue k v = .ok kind) :
    (kind = .load ↔ k.opcode? v = some .load) ∧ (kind = .store ↔ k.opcode? v = some .store) := by
  obtain ⟨x, hx, h⟩ := Outcome.bind_eq_ok.mp h
  rw [Kernel.opcode?_of_value? (Kernel.value_eq_ok.mp hx), Value.opcode?, Value.instruction?]
  split at h
  · next hk =>
    rw [hk]
    split at h
    · obtain ⟨access, -, h⟩ := Outcome.bind_eq_ok.mp h
      obtain rfl := Outcome.pure_eq_ok.mp h
      unfold ofAccess
      split
      · split <;> simp
      · simp
    · obtain rfl := Outcome.pure_eq_ok.mp h
      simp
  · next i _ hk =>
    -- an instruction: its kind is told by its opcode
    rw [hk]
    split at h <;>
    · obtain rfl := Outcome.pure_eq_ok.mp h
      simp_all
  · next hinstruction =>
    -- a constant or a global, which is neither
    obtain rfl := Outcome.pure_eq_ok.mp h
    split
    · next i b hk => exact absurd hk (hinstruction i b)
    · simp

namespace Graph

variable {g : Graph} {k : Kernel} {widths : Widths}

def kinds (g : Graph) : List NodeKind := g.nodes.toList.map (·.kind)

/-- If the kind of a node can be told from its value, nodes of a kind are counted by values. -/
theorem countP_kinds {p : NodeKind → Bool} {q : ValueId → Bool}
    (h : ∀ node ∈ g.nodes.toList, p node.kind = q node.value) :
    g.kinds.countP p = (g.values.filter q).length := by
  rw [kinds, values, ← List.countP_eq_length_filter, List.countP_map, List.countP_map]
  exact List.countP_congr fun node hnode => by simp [h node hnode]

theorem exists_mem_of_mem_nodes {node : Node} (h : node ∈ g.nodes.toList) :
    ∃ n : NodeId, g.nodes[n.index]? = some node := by
  obtain ⟨n, hn⟩ := Array.mem_iff_getElem?.mp (Array.mem_toList_iff.mp h)
  exact ⟨⟨n⟩, hn⟩

/-- **Every load and store has one node**, so the values with nodes have as many of them as the
text. -/
theorem length_filter_values_access (wf : k.WellFormed) (swept : Swept k k.instructions g)
    {opcode : Opcode} (accesses : opcode.isAccess = true) :
    (g.values.filter fun v => k.opcode? v = some opcode).length =
      k.instructions.countP fun v => k.opcode? v = some opcode := by
  rw [List.countP_eq_length_filter]
  refine List.Perm.length_eq ((List.perm_ext_iff_of_nodup
    (swept.registered.nodup_values.filter _) (wf.nodup_instructions.filter _)).mpr fun v => ?_)
  rw [List.mem_filter, List.mem_filter, and_congr_left_iff]
  intro hop
  obtain ⟨i, hi, hopcode⟩ := Option.map_eq_some_iff.mp (of_decide_eq_true hop)
  have t := Kernel.Tracks.of_isAccess hi (hopcode.symm ▸ accesses)
  have hmem := wf.mem_instructions.mpr ⟨i, hi⟩
  obtain ⟨n, -, hn, -⟩ := swept.linked hmem t
  exact iff_of_true (swept.registered.mem_values.mpr (by rw [hn]; rfl)) hmem

/-- Parameters have one node or none. -/
theorem length_filter_values_isArgument_le (wf : k.WellFormed) (registered : g.Registered) :
    (g.values.filter k.isArgument).length ≤ k.params.length := by
  refine ((registered.nodup_values.filter _).subperm fun v hv => ?_).length_le
  have argument := (List.mem_filter.mp hv).2
  obtain ⟨x, hx⟩ := Option.isSome_iff_exists.mp (Option.isSome_of_any argument)
  rw [Kernel.isArgument, hx] at argument
  exact wf.mem_params.mpr ⟨x, hx, argument⟩

/-- **A node has at most one control edge.** -/
theorem length_controls_le (wf : k.WellFormed) (h : ofKernel k widths = .ok g) {n : NodeId}
    {node : Node} (hn : g.nodes[n.index]? = some node) : node.controls.length ≤ 1 := by
  obtain ⟨guards, feeds, -, -, swept, filled⟩ := filled_of_ofKernel wf h
  have hnode := swept.registered.nodeId?_of_getElem? hn
  have hcontrols : g.controlsOf n = node.controls := by simp [controlsOf, hn]
  rw [← hcontrols]
  by_cases tracked : ∃ i, k.Tracks node.value i
  · obtain ⟨i, t⟩ := tracked
    have hmem : node.value ∈ k.schedule.map Prod.fst := by
      rw [k.map_fst_schedule]
      exact wf.mem_instructions.mpr ⟨i, t.known⟩
    obtain ⟨⟨v, b⟩, hscheduled, hv⟩ := List.mem_map.mp hmem
    obtain rfl : v = node.value := hv
    rw [filled.guarded hscheduled t hnode, guardEdges]
    exact Option.length_toList_le
  · rw [filled.bare hnode fun _ i t => tracked ⟨i, t⟩]
    exact Nat.zero_le _

theorem controlCount_le (wf : k.WellFormed) (h : ofKernel k widths = .ok g) :
    g.controlCount ≤ g.nodes.size := by
  have hone : ∀ node ∈ g.nodes.toList, node.controls.length ≤ 1 := by
    intro node hnode
    obtain ⟨n, hn⟩ := exists_mem_of_mem_nodes hnode
    exact length_controls_le wf h hn
  rw [controlCount, List.length_flatMap]
  calc (g.nodes.toList.map fun node => node.controls.length).sum
      ≤ (g.nodes.toList.map fun node => node.controls.length).length • 1 :=
        List.sum_le_card_nsmul _ 1 (by simpa using hone)
    _ = g.nodes.size := by simp

end Graph

/-! ## Metrics -/

namespace Kernel

/-- **What metrics count.** Where an analysis succeeds there are metrics. Loads and stores are
counted once each, as many as the blocks of the kernel have. Parameters are those that the interface
bucket lists, which are no more than the kernel has. Both tallies count every node, and no more than
one control edge is counted for each. -/
theorem metrics_count {name : String} {script : List Step} {k : Kernel}
    (built : Kernel.ofScript? name script = some k) {overrides : Overrides} {a : Analysis}
    (analyzed : k.analyze overrides = .ok a) :
    ∃ m, a.metrics? = some m ∧
      (m.nodes.loads = k.instructions.countP (fun v => k.opcode? v = some .load) ∧
        m.nodes.stores = k.instructions.countP (fun v => k.opcode? v = some .store)) ∧
      (m.nodes.inParams + m.nodes.outParams + m.nodes.inOutParams =
          (a.graph.buckets.bucket Graph.interfaceBucket).length ∧
        (a.graph.buckets.bucket Graph.interfaceBucket).length ≤ k.params.length) ∧
      (m.nodes.total = a.graph.nodes.size ∧ m.widths.total = a.graph.nodes.size) ∧
      m.controlEdges ≤ a.graph.nodes.size := by
  have wf := ofScript?_wellFormed built
  have made := ofKernel_of_analyze analyzed
  have swept := Graph.swept_of_ofKernel wf made
  obtain ⟨length, hlength, -⟩ := Graph.exists_criticalPath (Graph.closed_of_ofKernel made).2
    (Graph.descends_of_ofKernel wf made)
  have hkind : ∀ node ∈ a.graph.nodes.toList, NodeKind.ofValue k node.value = .ok node.kind := by
    intro node hnode
    obtain ⟨n, hn⟩ := Graph.exists_mem_of_mem_nodes hnode
    exact (Graph.described_of_ofKernel made n node hn).kind
  refine ⟨_, by rw [Analysis.metrics?, hlength]; rfl, ⟨?_, ?_⟩, ⟨?_, ?_⟩, ⟨?_, ?_⟩,
    Graph.controlCount_le wf made⟩
  · rw [← Graph.length_filter_values_access wf swept rfl, ← Graph.countP_kinds (p := (· = .load))]
    · exact (foldl_eq_countP KindCount.loads (by simpa using KindCount.loads_add) _ _).trans
        (Nat.zero_add _)
    · exact fun node hnode => by simpa using (NodeKind.ofValue_eq_access (hkind node hnode)).1
  · rw [← Graph.length_filter_values_access wf swept rfl, ← Graph.countP_kinds (p := (· = .store))]
    · exact (foldl_eq_countP KindCount.stores (by simpa using KindCount.stores_add) _ _).trans
        (Nat.zero_add _)
    · exact fun node hnode => by simpa using (NodeKind.ofValue_eq_access (hkind node hnode)).2
  · rw [Graph.bucket_interfaceBucket made, ← Graph.countP_kinds (p := NodeKind.isParam)]
    · exact (foldl_eq_countP KindCount.params KindCount.params_add _ _).trans (Nat.zero_add _)
    · exact fun node hnode => NodeKind.isParam_of_ofValue (hkind node hnode)
  · rw [Graph.bucket_interfaceBucket made]
    exact Graph.length_filter_values_isArgument_le wf swept.registered
  · -- a total counts all nodes
    rw [foldl_eq_countP KindCount.total (p := fun _ => true) (by simp)]
    simp [KindCount.total]
  · rw [foldl_eq_countP WidthCount.total (p := fun _ => true) (by simp)]
    simp [WidthCount.total]

/-- An index is loaded, the element there is tested, and if it is positive, the index is stored in
its place. One parameter is not used. -/
def markScript : List Step :=
  [.param "p" (.pointer (.int 8)), .param "spare" (.int 8), .constant 0 8, .block "entry",
    .block "positive", .block "exit", .moveTo ⟨0⟩, .load ⟨0⟩ "i", .elementPointer ⟨0⟩ [⟨3⟩] "cell",
    .load ⟨4⟩ "x", .compare .sgt ⟨5⟩ ⟨2⟩ "c", .branchIf ⟨6⟩ ⟨1⟩ ⟨2⟩, .moveTo ⟨1⟩, .store ⟨3⟩ ⟨4⟩,
    .branch ⟨2⟩, .moveTo ⟨2⟩, .ret none]

def mark : Kernel := (Kernel.ofScript? "mark" markScript).getD (.empty "mark")

/-- The first load is an index and is stored in another block, and counts once. The parameter that
is not used has no node. -/
theorem metrics_count_mark :
    Kernel.ofScript? "mark" markScript = some mark ∧
      ∃ a m, mark.analyze .empty = .ok a ∧ a.metrics? = some m ∧
        mark.usersOf ⟨3⟩ = [⟨4⟩, ⟨8⟩] ∧ m.nodes.loads = 2 ∧ m.nodes.stores = 1 ∧
        m.nodes.inParams + m.nodes.outParams + m.nodes.inOutParams = 1 ∧
        mark.params.length = 2 ∧ m.nodes.total = 6 ∧ m.widths.total = 6 ∧ m.controlEdges ≤ 6 := by
  have built : Kernel.ofScript? "mark" markScript = some mark := rfl
  have hshape : (mark.analyze .empty).toOption.map (fun a =>
      (a.graph.nodes.size, (a.graph.buckets.bucket Graph.interfaceBucket).length)) =
        some (6, 1) := by decide +kernel
  have hloads : mark.instructions.countP (fun v => mark.opcode? v = some .load) = 2 := by
    decide +kernel
  have hstores : mark.instructions.countP (fun v => mark.opcode? v = some .store) = 1 := by
    decide +kernel
  have husers : mark.usersOf ⟨3⟩ = [⟨4⟩, ⟨8⟩] := by decide +kernel
  obtain ⟨a, analyzed, hshape⟩ := Outcome.exists_of_toOption_map hshape
  simp only [Prod.mk.injEq] at hshape
  obtain ⟨hsize, hbucket⟩ := hshape
  obtain ⟨m, hm, ⟨loads, stores⟩, ⟨params, -⟩, ⟨total, widths⟩, controls⟩ :=
    metrics_count built analyzed
  exact ⟨built, a, m, analyzed, hm, husers, loads.trans hloads, stores.trans hstores,
    params.trans hbucket, rfl, total.trans hsize, widths.trans hsize, hsize ▸ controls⟩

end Kernel

end Datapath
