import Datapath.Analysis
import Datapath.Proofs.Graph.Indices

/-!
# What a verdict says

A check finds nothing exactly if the invariant holds that it is named for. The lemmas below say this
of each check, for any graph whatever.

A graph that an analysis makes has five of the six invariants. The sixth, that control edges start
at conditions, it has if the branches of the kernel test conditions: nothing in the analysis asks
for the type of what a branch tests. So `verify_analyze` says that success *is* this property.
-/

namespace Datapath

/-! ## Taking in what was found -/

namespace Verdict

variable (r : Verdict) (i : Invariant) (found : List Violation)

theorem success_record : (r.record i found).success = (r.success && found.isEmpty) := by
  unfold record
  cases found <;> simp

theorem violations_record : (r.record i found).violations = r.violations ++ found := by
  unfold record
  cases found <;> simp

theorem proven_record :
    (r.record i found).proven = r.proven ++ if found.isEmpty then [i] else [] := by
  unfold record
  cases found <;> simp

end Verdict

/-! ## The checks -/

namespace Graph

variable {g : Graph} {k : Kernel} {w : Widths} {b : Buckets}

/-- Each node is placed once, in the bucket that it records, and no two nodes have one value. -/
theorem misplacedNodes_eq_nil_iff {seen : List ValueId} {nodes : List Node} :
    misplacedNodes b seen nodes = [] ↔ (nodes.map (·.value)).Nodup ∧
      ∀ node ∈ nodes, node.value ∉ seen ∧ b.bucketsOf node.value = [node.bucket] := by
  induction nodes generalizing seen with
  | nil => simp [misplacedNodes]
  | cons node rest ih =>
      -- the rest is checked with this value among those seen, which keeps it from coming again
      have hlater : misplacedNodes b (node.value :: seen) rest = [] ↔
          node.value ∉ rest.map (·.value) ∧ (rest.map (·.value)).Nodup ∧
            ∀ x ∈ rest, x.value ∉ seen ∧ b.bucketsOf x.value = [x.bucket] := by
        rw [ih]
        constructor
        · rintro ⟨nodup, hrest⟩
          refine ⟨?_, nodup, fun x hx => ?_⟩
          · rintro hmem
            obtain ⟨x, hx, hvalue⟩ := List.mem_map.mp hmem
            exact (hrest x hx).1 (hvalue ▸ List.mem_cons_self)
          · obtain ⟨hseen, hplaced⟩ := hrest x hx
            exact ⟨fun h => hseen (List.mem_cons_of_mem _ h), hplaced⟩
        · rintro ⟨hnew, nodup, hrest⟩
          refine ⟨nodup, fun x hx => ⟨?_, (hrest x hx).2⟩⟩
          rintro hmem
          rcases List.mem_cons.mp hmem with hvalue | hmem
          · exact hnew (hvalue ▸ List.mem_map_of_mem hx)
          · exact (hrest x hx).1 hmem
      rw [List.map_cons, List.nodup_cons, List.forall_mem_cons, misplacedNodes]
      by_cases hseen : node.value ∈ seen
      · simp [hseen]
      · by_cases hplaced : b.bucketsOf node.value = [node.bucket]
        · simp only [hseen, hplaced, if_false, if_true, hlater, not_false_eq_true, true_and,
            and_self, and_assoc]
        · simp [hseen, hplaced]

/-- Every value that is placed has a node. -/
theorem strayPlacements_eq_nil_iff :
    g.strayPlacements = [] ↔ ∀ p ∈ g.buckets.placements, p.1 ∈ g.values := by
  unfold strayPlacements
  rw [List.map_eq_nil_iff, List.filter_eq_nil_iff]
  simp only [List.mem_eraseDups, List.mem_map, values, forall_exists_index, and_imp,
    forall_apply_eq_imp_iff₂]
  refine forall₂_congr fun p _ => ?_
  simp [Array.mem_iff_getElem]

/-- Parameters record the interface bucket. -/
theorem interfaceViolations_eq_nil_iff : g.interfaceViolations = [] ↔
    ∀ node ∈ g.nodes.toList, node.kind.isParam = true → node.bucket = interfaceBucket := by
  unfold interfaceViolations
  rw [List.map_eq_nil_iff, List.filter_eq_nil_iff]
  refine forall₂_congr fun node _ => ?_
  simp

/-- Nodes record the widths of their values. -/
theorem widthViolations_eq_nil_iff : g.widthViolations w = [] ↔
    ∀ node ∈ g.nodes.toList, w.width? node.value = some node.width := by
  unfold widthViolations
  rw [List.map_eq_nil_iff, List.filter_eq_nil_iff]
  refine forall₂_congr fun node _ => ?_
  simp

/-- The registry leads from the value of each node back to the node. -/
theorem registryViolations_eq_nil_iff : g.registryViolations = [] ↔
    ∀ (n : Nat) (node : Node), g.nodes[n]? = some node → g.nodeId? node.value = some ⟨n⟩ := by
  unfold registryViolations
  rw [List.map_eq_nil_iff, List.filter_eq_nil_iff]
  constructor
  · intro h n node hn
    have hmem : (node, n) ∈ g.nodes.toList.zipIdx := by
      rw [List.mk_mem_zipIdx_iff_getElem?, Array.getElem?_toList]
      exact hn
    simpa using h _ hmem
  · rintro h ⟨node, n⟩ hmem
    rw [List.mk_mem_zipIdx_iff_getElem?, Array.getElem?_toList] at hmem
    simp [h n node hmem]

/-- Every edge leads to a node of the graph. -/
theorem edgeViolations_eq_nil_iff : g.edgeViolations = [] ↔ g.Closed := by
  unfold edgeViolations
  rw [List.flatMap_eq_nil_iff]
  constructor
  · intro h n node hn m hm
    have hnode := h node (Array.mem_toList_iff.mpr (Array.mem_of_getElem? hn))
    rw [List.map_eq_nil_iff, List.filter_eq_nil_iff] at hnode
    simpa using hnode m hm
  · intro h node hmem
    obtain ⟨n, hn⟩ := Array.mem_iff_getElem?.mp (Array.mem_toList_iff.mp hmem)
    rw [List.map_eq_nil_iff, List.filter_eq_nil_iff]
    intro m hm
    simpa using h ⟨n⟩ node hn m hm

/-- The source of a control edge, if it is a node, is a comparison or another single bit. -/
def StartsAtCondition (k : Kernel) (g : Graph) (edge : ControlEdge) : Prop :=
  ∀ source, g.valueAt? edge.source = some source → ∃ x, k.value? source = some x ∧
    (x.opcode? = some .icmp ∨ x.type = .int 1)

theorem isCondition_iff {x : Value} :
    isCondition x = true ↔ x.opcode? = some .icmp ∨ x.type = .int 1 := by
  simp [isCondition]

theorem sourceViolation_eq_ok {node : Node} {edge : ControlEdge} {found : List Violation}
    (h : sourceViolation k g node edge = .ok found) : found = [] ↔ StartsAtCondition k g edge := by
  unfold sourceViolation at h
  unfold StartsAtCondition valueAt?
  cases hsource : g.nodes[edge.source.index]? with
  | none =>
      simp only [hsource] at h
      obtain rfl := Outcome.pure_eq_ok.mp h
      simp
  | some source =>
      simp only [hsource] at h
      obtain ⟨x, hx, h⟩ := Outcome.bind_eq_ok.mp h
      have hstarts : isCondition x = true ↔ ∀ v, (some source).map (·.value) = some v →
          ∃ y, k.value? v = some y ∧ (y.opcode? = some .icmp ∨ y.type = .int 1) := by
        simp [isCondition_iff, Kernel.value_eq_ok.mp hx]
      rw [← hstarts]
      split at h
      · next hcondition =>
        obtain rfl := Outcome.pure_eq_ok.mp h
        simp [hcondition]
      · next hcondition =>
        obtain rfl := Outcome.pure_eq_ok.mp h
        simpa using hcondition

/-- Where the control edges can be looked at, nothing is found if all of them start at conditions.
-/
theorem controlViolations_eq_ok {found : List Violation}
    (h : controlViolations k g = .ok found) : found = [] ↔
      ∀ node ∈ g.nodes.toList, ∀ edge ∈ node.controls, StartsAtCondition k g edge := by
  obtain ⟨perNode, hnodes, h⟩ := Outcome.bind_eq_ok.mp h
  obtain rfl := Outcome.pure_eq_ok.mp h
  simp only [List.flatten_eq_nil_iff, List.mem_flatten]
  constructor
  · intro hnone node hnode edge hedge
    obtain ⟨perEdge, hedges⟩ := Outcome.exists_of_mapM_eq_ok hnodes node hnode
    obtain ⟨vs, hvs⟩ := Outcome.exists_of_mapM_eq_ok hedges edge hedge
    rw [← sourceViolation_eq_ok hvs]
    exact hnone vs ⟨perEdge, Outcome.mem_of_mapM hnodes hnode hedges,
      Outcome.mem_of_mapM hedges hedge hvs⟩
  · rintro hstarts vs ⟨perEdge, hmem, hvs⟩
    obtain ⟨node, hnode, hedges⟩ := Outcome.exists_of_mem_mapM hnodes perEdge hmem
    obtain ⟨edge, hedge, hvs⟩ := Outcome.exists_of_mem_mapM hedges vs hvs
    exact (sourceViolation_eq_ok hvs).mpr (hstarts node hnode edge hedge)

/-- Control edges can be checked where the values of nodes are values of the kernel. -/
theorem exists_controlViolations
    (known : ∀ node ∈ g.nodes.toList, ∃ x, k.value? node.value = some x) :
    ∃ found, controlViolations k g = .ok found := by
  have hsource (node : Node) (edge : ControlEdge) :
      ∃ found, sourceViolation k g node edge = .ok found := by
    unfold sourceViolation
    cases hget : g.nodes[edge.source.index]? with
    | none => exact ⟨[], rfl⟩
    | some source =>
        -- the type of the source can be asked for
        obtain ⟨x, hx⟩ := known source (Array.mem_toList_iff.mpr (Array.mem_of_getElem? hget))
        simp only [Kernel.value_eq_ok.mpr hx, bind, Except.bind]
        split
        · exact ⟨[], rfl⟩
        · exact ⟨_, rfl⟩
  obtain ⟨perNode, hperNode⟩ := Outcome.exists_mapM_eq_ok
    (f := fun node : Node => node.controls.mapM (sourceViolation k g node)) (l := g.nodes.toList)
    fun node _ => Outcome.exists_mapM_eq_ok fun edge _ => hsource node edge
  exact ⟨perNode.flatten.flatten, by rw [controlViolations, hperNode]; rfl⟩

/-! ## Graphs that an analysis makes -/

/-- The values that a graph places are those that it has nodes for, each once. -/
theorem bucketViolations_of_ofKernel (h : ofKernel k w = .ok g) : g.bucketViolations = [] := by
  have placed := placed_of_ofKernel h
  have registered := (closed_of_ofKernel h).1
  have hnodup := registered.nodup_values
  have hbucket (n : Nat) : (g.buckets.bucket n).Nodup := by
    rw [placed.bucket_eq]
    apply List.Nodup.sublist _ hnodup
    rw [values_eq_map_roster]
    exact List.filter_sublist.map _
  rw [bucketViolations, List.append_eq_nil_iff, misplacedNodes_eq_nil_iff,
    strayPlacements_eq_nil_iff]
  refine ⟨⟨hnodup, fun node hnode => ⟨List.not_mem_nil, ?_⟩⟩, ?_⟩
  · obtain ⟨n, hn⟩ := Array.mem_iff_getElem?.mp (Array.mem_toList_iff.mp hnode)
    -- the buckets of a value are counted, and only that of its node lists it
    rw [← List.perm_singleton, List.perm_iff_count]
    intro b
    rw [Buckets.count_bucketsOf, List.count_singleton]
    by_cases hb : node.bucket = b
    · rw [List.count_eq_one_of_mem (hbucket b) ((mem_bucket_iff h (n := ⟨n⟩) hn).mpr hb)]
      simp [hb]
    · rw [List.count_eq_zero_of_not_mem fun hmem => hb ((mem_bucket_iff h (n := ⟨n⟩) hn).mp hmem)]
      simp [hb]
  · rintro ⟨v, b⟩ hp
    have hmem : b ∈ g.buckets.bucketsOf v :=
      List.mem_map.mpr ⟨(v, b), List.mem_filter.mpr ⟨hp, by simp⟩, rfl⟩
    rw [← List.count_pos_iff, Buckets.count_bucketsOf, List.count_pos_iff, placed.bucket_eq] at hmem
    obtain ⟨node, hnode, rfl⟩ := List.mem_map.mp hmem
    rw [values_eq_map_roster]
    exact List.mem_map_of_mem (List.mem_filter.mp hnode).1

/-- Once the edges lead to nodes, there is a source to look at. -/
theorem startsAtCondition_iff {node : Node} {edge : ControlEdge} {n : NodeId} (closed : g.Closed)
    (hn : g.nodes[n.index]? = some node) (hedge : edge ∈ node.controls) :
    StartsAtCondition k g edge ↔ ∃ source x, g.valueAt? edge.source = some source ∧
      k.value? source = some x ∧ (x.opcode? = some .icmp ∨ x.type = .int 1) := by
  have hlt : edge.source.index < g.nodes.size :=
    closed n node hn _ (List.mem_append_right _ (List.mem_map_of_mem hedge))
  have hsource : g.valueAt? edge.source = some g.nodes[edge.source.index].value := by
    rw [valueAt?, Array.getElem?_eq_getElem hlt, Option.map_some]
  constructor
  · intro hstarts
    obtain ⟨x, hx, hcondition⟩ := hstarts _ hsource
    exact ⟨_, x, hsource, hx, hcondition⟩
  · rintro ⟨source, x, hget, hx⟩ other hother
    obtain rfl := Option.some.inj (hget.symm.trans hother)
    exact ⟨x, hx⟩

/-- The verdict over a graph that was made: only control edges can give rise to violations. -/
theorem verify_of_ofKernel (h : ofKernel k w = .ok g) : ∃ found,
    controlViolations k g = .ok found ∧ ∃ r, g.verify k w = .ok r ∧
      r.success = found.isEmpty ∧ r.violations = found ∧
      r.proven = [.bucketMembership, .interfaceParams, .inferredWidths, .uniqueNodes,
        .edgeTargets] ++ if found.isEmpty then [.controlSources] else [] := by
  obtain ⟨registered, closed⟩ := closed_of_ofKernel h
  have describes (node : Node) (hnode : node ∈ g.nodes.toList) : node.Describes k w := by
    obtain ⟨n, hn⟩ := Array.mem_iff_getElem?.mp (Array.mem_toList_iff.mp hnode)
    exact described_of_ofKernel h ⟨n⟩ node hn
  have hbuckets := bucketViolations_of_ofKernel h
  have hinterface : g.interfaceViolations = [] :=
    interfaceViolations_eq_nil_iff.mpr fun node hnode => (describes node hnode).interface
  have hwidths : g.widthViolations w = [] :=
    widthViolations_eq_nil_iff.mpr fun node hnode =>
      Widths.width_eq_ok.mp (describes node hnode).width
  have hregistry : g.registryViolations = [] :=
    registryViolations_eq_nil_iff.mpr fun n node hn =>
      registered.nodeId?_of_getElem? (n := ⟨n⟩) hn
  have hedges : g.edgeViolations = [] := edgeViolations_eq_nil_iff.mpr closed
  obtain ⟨found, hfound⟩ := exists_controlViolations (g := g) (k := k) fun node hnode => by
    obtain ⟨x, hx, -⟩ := Outcome.bind_eq_ok.mp (describes node hnode).kind
    exact ⟨x, Kernel.value_eq_ok.mp hx⟩
  refine ⟨found, hfound, _, by rw [verify, hfound]; rfl, ?_⟩
  simp [Verdict.success_record, Verdict.violations_record, Verdict.proven_record, hbuckets,
    hinterface, hwidths, hregistry, hedges]

end Graph

namespace Kernel

variable {k : Kernel} {overrides : Overrides} {a : Analysis}

/-- The graph of an analysis is made from its widths. -/
theorem ofKernel_of_analyze (h : k.analyze overrides = .ok a) :
    Graph.ofKernel k a.widths = .ok a.graph := by
  obtain ⟨widths, -, h⟩ := Outcome.bind_eq_ok.mp h
  obtain ⟨g, hg, h⟩ := Outcome.bind_eq_ok.mp h
  obtain rfl := Outcome.pure_eq_ok.mp h
  exact hg

/-- **A graph that an analysis makes passes its check**, unless a branch tests what is no condition.
The check always comes to a verdict, in which the first five invariants hold; and it is a success,
that is, all six hold and no violation is found, exactly if every control edge starts at a
comparison or at another single bit. -/
theorem verify_analyze (h : k.analyze overrides = .ok a) : ∃ r, a.verify k = .ok r ∧
    (∀ i ∈ [Invariant.bucketMembership, .interfaceParams, .inferredWidths, .uniqueNodes,
      .edgeTargets], i ∈ r.proven) ∧
    (r.success = true ↔ ∀ (n : Nat) (node : Node), a.graph.nodes[n]? = some node →
      ∀ edge ∈ node.controls, ∃ source x, a.graph.valueAt? edge.source = some source ∧
        k.value? source = some x ∧ (x.opcode? = some .icmp ∨ x.type = .int 1)) ∧
    (r.success = true ↔ r.violations = []) ∧ (r.success = true ↔ ∀ i, i ∈ r.proven) := by
  have made := ofKernel_of_analyze h
  obtain ⟨found, hfound, r, hr, hsuccess, hviolations, hproven⟩ := Graph.verify_of_ofKernel made
  refine ⟨r, hr, ?_, ?_, ?_, ?_⟩
  · rw [hproven]
    exact fun i hi => List.mem_append_left _ hi
  · rw [hsuccess, List.isEmpty_iff, Graph.controlViolations_eq_ok hfound]
    have closed := (Graph.closed_of_ofKernel made).2
    constructor
    · intro hstarts n node hn edge hedge
      have hmem := Array.mem_toList_iff.mpr (Array.mem_of_getElem? hn)
      have hstart := hstarts node hmem edge hedge
      exact (Graph.startsAtCondition_iff (n := ⟨n⟩) closed hn hedge).mp hstart
    · intro hstarts node hnode edge hedge
      obtain ⟨n, hn⟩ := Array.mem_iff_getElem?.mp (Array.mem_toList_iff.mp hnode)
      have hstart := hstarts n node hn edge hedge
      exact (Graph.startsAtCondition_iff (n := ⟨n⟩) closed hn hedge).mpr hstart
  · rw [hsuccess, hviolations, List.isEmpty_iff]
  · rw [hsuccess, hproven]
    constructor
    · intro hempty i
      cases i <;> simp [hempty]
    · intro hall
      -- all six are proven only if the last check found nothing
      by_contra hempty
      simpa [hempty] using hall .controlSources

/-- A branch tests a parameter of eight bits. -/
def nonzeroScript : List Step :=
  [.param "x" (.int 8), .block "entry", .block "then", .block "exit", .moveTo ⟨0⟩,
    .branchIf ⟨0⟩ ⟨1⟩ ⟨2⟩, .moveTo ⟨1⟩, .binary .add ⟨0⟩ ⟨0⟩ "y", .branch ⟨2⟩, .moveTo ⟨2⟩,
    .ret none]

def nonzero : Kernel := (Kernel.ofScript? "nonzero" nonzeroScript).getD (.empty "nonzero")

/-- The parameter is no condition, so the check fails: five invariants hold, not the sixth. -/
theorem verify_analyze_nonzero : Kernel.ofScript? "nonzero" nonzeroScript = some nonzero ∧
    ∃ a r, nonzero.analyze .empty = .ok a ∧ a.verify nonzero = .ok r ∧
      (∀ i ∈ [Invariant.bucketMembership, .interfaceParams, .inferredWidths, .uniqueNodes,
        .edgeTargets], i ∈ r.proven) ∧ r.success = false ∧ ¬ ∀ i, i ∈ r.proven := by
  have built : Kernel.ofScript? "nonzero" nonzeroScript = some nonzero := rfl
  have hverdict : (nonzero.analyze .empty).toOption.bind (fun a =>
      (a.verify nonzero).toOption.map (·.success)) = some false := by decide +kernel
  cases analyzed : nonzero.analyze .empty with
  | error => simp [analyzed, Except.toOption] at hverdict
  | ok a =>
      obtain ⟨r, hr, hfive, -, -, hall⟩ := verify_analyze analyzed
      simp only [analyzed, Except.toOption, Option.bind_some, hr, Option.map_some] at hverdict
      have hfails := Option.some.inj hverdict
      refine ⟨built, a, r, rfl, hr, hfive, hfails, ?_⟩
      rw [← hall, hfails]
      exact Bool.false_ne_true

end Kernel

end Datapath
