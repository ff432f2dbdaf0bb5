import Datapath.Proofs.Graph.Dependency
import Datapath.Proofs.Kernel.Consistent

/-!
# What is in a graph

The sweep asks for nodes on three occasions: for a tracked instruction that it visits, for each
target that this is linked to, and for the condition that guards its block. `Kernel.Represented` is
the list of these occasions. A finished graph has nodes for them and for nothing else.

Use edges are known from `Graph.Swept`. What comes in here are the *control edges*: a tracked
instruction has the one of its block's guard, and no other node has any.
-/

namespace Datapath

/-! ## Targets -/

namespace Kernel

/-- The values that the node of a tracked instruction is linked to, in order. -/
inductive Targets (k : Kernel) (i : Instruction) : List ValueId → Prop
  | computation (computes : i.opcode.isComputation = true) :
      Targets k i (i.operands.map k.underlying)
  | load {address : ValueId} {bases : List ValueId} (opcode : i.opcode = .load)
      (reads : i.address? = some address) (rooted : k.bases address = .ok bases) :
      Targets k i bases
  | store {address stored : ValueId} {bases : List ValueId} (opcode : i.opcode = .store)
      (writes : i.address? = some address) (rooted : k.bases address = .ok bases)
      (data : i.stored? = some stored) : Targets k i (bases ++ [k.underlying stored])

/-- A value that a graph has a node for. -/
inductive Represented (k : Kernel) (guards : Guards) : ValueId → Prop
  | tracked {v : ValueId} {i : Instruction} (tracks : k.Tracks v i) : Represented k guards v
  | target {u v : ValueId} {i : Instruction} {targets : List ValueId} (tracks : k.Tracks u i)
      (linked : k.Targets i targets) (target : v ∈ targets) : Represented k guards v
  | condition {u : ValueId} {i : Instruction} {n : Nat} {block : Block} {guard : Guard}
      (tracks : k.Tracks u i) (there : k.blocks[n]? = some block)
      (stands : u ∈ block.instructions) (guarded : guards.find? (n + 1) = some guard) :
      Represented k guards guard.condition

variable {k : Kernel}

/-- Stores have what they store wherever they have an address. -/
theorem exists_stored_of_address {i : Instruction} {a : ValueId} (opcode : i.opcode = .store)
    (ha : i.address? = some a) : ∃ x, i.stored? = some x := by
  simp only [Instruction.address?, opcode] at ha
  simp only [Instruction.stored?, opcode]
  unfold Instruction.operand? at *
  cases hops : i.operands with
  | nil => simp [hops] at ha
  | cons o rest => exact ⟨o, rfl⟩

/-- The sources of a tracked instruction are its targets. -/
theorem targets_iff {v : ValueId} {i : Instruction} (tracked : i.opcode.isTracked = true)
    {os : List ValueId} : Graph.sources k v i = .ok os ↔ k.Targets i os := by
  constructor
  · intro h
    rcases Bool.or_eq_true_iff.mp tracked with accesses | computes
    · obtain ⟨a, ha⟩ := exists_address_of_isAccess accesses h
      rw [sources_of_isAccess accesses ha] at h
      obtain ⟨bs, hbs, h⟩ := Outcome.bind_eq_ok.mp h
      obtain rfl := Outcome.pure_eq_ok.mp h
      rcases Opcode.isAccess_iff.mp accesses with hop | hop
      · -- a load stores nothing
        have hnone : i.stored? = none := by simp [Instruction.stored?, hop]
        rw [hnone, Option.map_none, Option.toList_none, List.append_nil]
        exact .load hop ha hbs
      · obtain ⟨x, hx⟩ := exists_stored_of_address hop ha
        rw [hx, Option.map_some, Option.toList_some]
        exact .store hop ha hbs hx
    · rw [sources_of_isComputation computes] at h
      obtain rfl := Except.ok.inj h
      exact .computation computes
  · intro h
    cases h with
    | computation computes => exact sources_of_isComputation computes
    | load opcode reads rooted =>
        rw [sources_of_isAccess (by rw [opcode]; rfl) reads, rooted]
        simp [Instruction.stored?, opcode, bind, Except.bind, pure, Except.pure]
    | store opcode writes rooted data =>
        rw [sources_of_isAccess (by rw [opcode]; rfl) writes, rooted, data]
        rfl

/-! ## The text with its buckets -/

/-- The instructions in textual order, each with the bucket of its block. -/
def schedule (k : Kernel) : List (ValueId × Nat) :=
  (k.blocks.toList.zipIdx 1).flatMap fun entry => entry.1.instructions.map fun v => (v, entry.2)

/-- An instruction is scheduled with one more than the number of its block. -/
theorem mem_schedule {v : ValueId} {bucket : Nat} : (v, bucket) ∈ k.schedule ↔
    ∃ n block, k.blocks[n]? = some block ∧ v ∈ block.instructions ∧ bucket = n + 1 := by
  unfold schedule
  rw [List.mem_flatMap]
  constructor
  · rintro ⟨⟨block, b⟩, hentry, hmem⟩
    obtain ⟨u, hu, e⟩ := List.mem_map.mp hmem
    obtain ⟨rfl, rfl⟩ := Prod.mk.inj e
    obtain ⟨hle, hget⟩ := List.mk_mem_zipIdx_iff_le_and_getElem?_sub.mp hentry
    exact ⟨b - 1, block, by simpa using hget, hu, by omega⟩
  · rintro ⟨n, block, hn, hv, rfl⟩
    refine ⟨(block, n + 1), ?_, List.mem_map.mpr ⟨v, hv, rfl⟩⟩
    rw [List.mk_mem_zipIdx_iff_le_and_getElem?_sub]
    exact ⟨by omega, by simpa using hn⟩

theorem map_fst_schedule (k : Kernel) : k.schedule.map Prod.fst = k.instructions := by
  unfold schedule instructions
  rw [List.map_flatMap]
  simp only [List.map_map, Function.comp_def, List.map_id']
  rw [← List.flatMap_map Prod.fst, List.zipIdx_map_fst]

/-- Every instruction is scheduled. -/
theorem WellFormed.exists_mem_schedule {v : ValueId} {i : Instruction} (wf : k.WellFormed)
    (hi : k.instruction? v = some i) : ∃ bucket, (v, bucket) ∈ k.schedule := by
  have hv : v ∈ k.schedule.map Prod.fst := by
    rw [k.map_fst_schedule]
    exact wf.mem_instructions.mpr ⟨i, hi⟩
  obtain ⟨⟨u, bucket⟩, hentry, rfl⟩ := List.mem_map.mp hv
  exact ⟨bucket, hentry⟩

end Kernel

/-! ## What a step adds -/

namespace Graph

variable {s : Setting} {bucket : Nat} {g g' g'' : Graph} {v o : ValueId} {n m : NodeId}
  {i : Instruction} {vs ws : List ValueId} {edges more : List ControlEdge}

def controlsOf (g : Graph) (n : NodeId) : List ControlEdge :=
  ((g.nodes[n.index]?).map (·.controls)).getD []

/-- The control edges that the guard of a bucket gives: one from the node of its condition. -/
def guardEdges (g : Graph) (guards : Guards) (bucket : Nat) : List ControlEdge :=
  ((guards.find? bucket).bind fun guard => (g.nodeId? guard.condition).map fun source =>
    { source := source, polarity := guard.polarity }).toList

/-- `g'` has nodes for the values `vs` in addition, and in it `n` depends on the edges `edges` in
addition; all other nodes have the control edges that they had. -/
structure Enlists (g g' : Graph) (n : NodeId) (vs : List ValueId) (edges : List ControlEdge) :
    Prop where
  nodes : ∀ v, (g'.nodeId? v).isSome ↔ (g.nodeId? v).isSome ∨ v ∈ vs
  controls_self : g'.controlsOf n = g.controlsOf n ++ edges
  controls_other : ∀ {m}, m ≠ n → g'.controlsOf m = g.controlsOf m

namespace Enlists

theorem refl (g : Graph) (n : NodeId) : Enlists g g n [] [] where
  nodes := by simp
  controls_self := (List.append_nil _).symm
  controls_other _ := rfl

theorem trans (h : Enlists g g' n vs edges) (h' : Enlists g' g'' n ws more) :
    Enlists g g'' n (vs ++ ws) (edges ++ more) where
  nodes v := by rw [h'.nodes, h.nodes, List.mem_append, or_assoc]
  controls_self := by rw [h'.controls_self, h.controls_self, List.append_assoc]
  controls_other hm := by rw [h'.controls_other hm, h.controls_other hm]

end Enlists

theorem controlsOf_addNode {node : Node} (bare : node.controls = []) (m : NodeId) :
    (g.addNode node).1.controlsOf m = g.controlsOf m := by
  rw [controlsOf, getElem?_addNode]
  split
  · rw [controlsOf, Array.getElem?_eq_none (by omega)]
    exact bare
  · rfl

theorem controlsOf_addUse (source target m : NodeId) :
    (g.addUse source target).controlsOf m = g.controlsOf m := by
  show (((g.nodes.modify _ _)[m.index]?).map _).getD [] = _
  rw [getElem?_modify_node, Option.map_map]
  congr 2
  funext node
  by_cases h : m = source <;> simp [h]

/-- A control edge is entered behind those that the node has. -/
theorem controlsOf_addControl (h : g.valueAt? n = some v) (edge : ControlEdge) (m : NodeId) :
    (g.addControl n edge).controlsOf m = g.controlsOf m ++ if m = n then [edge] else [] := by
  show (((g.nodes.modify _ _)[m.index]?).map _).getD [] = _
  rw [getElem?_modify_node, controlsOf]
  by_cases hm : m = n
  · subst hm
    obtain ⟨node, hnode, -⟩ := Option.map_eq_some_iff.mp h
    simp [hnode]
  · cases g.nodes[m.index]? <;> simp [hm]

/-- A new node is that of its value, and it has no control edges. -/
theorem enlists_addNode (g : Graph) {node : Node} (bare : node.controls = []) (n : NodeId) :
    Enlists g (g.addNode node).1 n [node.value] [] where
  nodes v := by
    rw [nodeId?_addNode, List.mem_singleton]
    by_cases h : node.value = v
    · simp [h]
    · have h' : v ≠ node.value := fun e => h e.symm
      simp [h, h']
  controls_self := by rw [controlsOf_addNode bare, List.append_nil]
  controls_other _ := controlsOf_addNode bare _

/-- The value that is asked for has a node then; no other value got one. -/
theorem enlists_request (h : request s bucket g v = .ok (g', m)) (n : NodeId) :
    Enlists g g' n [v] [] := by
  rcases request_eq_ok h with ⟨rfl, hv⟩ | ⟨-, node, hadd, rfl, -, bare, -⟩
  · -- the value had its node, which is one of those that are there
    refine ⟨fun w => ?_, (List.append_nil _).symm, fun _ => rfl⟩
    rw [List.mem_singleton]
    exact ⟨.inl, fun hw => hw.elim id fun e => by rw [e, hv]; rfl⟩
  · obtain rfl : g' = (g.addNode node).1 := congrArg Prod.fst hadd
    exact enlists_addNode g bare n

theorem enlists_link (h : link s bucket n g o = .ok g') : Enlists g g' n [o] [] := by
  obtain ⟨⟨mid, m⟩, hreq, h⟩ := Outcome.bind_eq_ok.mp h
  obtain rfl := Outcome.pure_eq_ok.mp h
  refine (enlists_request hreq n).trans ⟨?_, ?_, ?_⟩
  · simp
  · rw [controlsOf_addUse, List.append_nil]
  · exact fun _ => controlsOf_addUse ..

/-- The operands that are linked have nodes then. -/
theorem enlists_links {os : List ValueId} (h : os.foldlM (link s bucket n) g = .ok g') :
    Enlists g g' n os [] := by
  induction os generalizing g with
  | nil =>
      obtain rfl := Outcome.pure_eq_ok.mp h
      exact .refl g n
  | cons o os ih =>
      rw [List.foldlM_cons, Outcome.bind_eq_ok] at h
      obtain ⟨mid, hlink, hrest⟩ := h
      exact (enlists_link hlink).trans (ih hrest)

theorem enlists_traceAddress (h : traceAddress s i g = .ok g') (n : NodeId) :
    Enlists g g' n [] [] := by
  obtain rfl | ⟨chain, widths, -, rfl⟩ := traceAddress_eq_ok h
  · exact .refl g' n
  · exact ⟨fun v => by simp [nodeId?, addChain], (List.append_nil _).symm, fun _ => rfl⟩

/-- The guard of a bucket gives its edge to the node, and its condition a node. -/
theorem enlists_applyGuard (hr : g.Registered) (hv : g.nodeId? v = some n)
    (h : applyGuard s bucket n g = .ok g') :
    Enlists g g' n ((s.guards.find? bucket).map (·.condition)).toList
      (g'.guardEdges s.guards bucket) := by
  unfold applyGuard at h
  unfold guardEdges
  cases hg : s.guards.find? bucket with
  | none =>
      simp only [hg] at h
      obtain rfl := Outcome.pure_eq_ok.mp h
      exact .refl g n
  | some guard =>
      simp only [hg] at h
      obtain ⟨⟨mid, source⟩, hreq, h⟩ := Outcome.bind_eq_ok.mp h
      obtain rfl := Outcome.pure_eq_ok.mp h
      obtain ⟨hsource, hgains⟩ := gains_request hr hreq
      have hmid := ((hgains n).registered v n).mp ((hgains n).keeps hv)
      -- first perhaps a node for the condition, then the edge from it
      have hedge (edge : ControlEdge) : Enlists mid (mid.addControl n edge) n [] [edge] := by
        refine ⟨by simp, ?_, fun {m} hm => ?_⟩
        · rw [controlsOf_addControl hmid, if_pos rfl]
        · rw [controlsOf_addControl hmid, if_neg hm, List.append_nil]
      simpa [hsource] using (enlists_request hreq n).trans (hedge _)

/-- **An instruction that is added** gets a node and the edge of its bucket's guard; its sources and
the condition of the guard have nodes then, and nothing else got one. -/
theorem enlists_addInstruction (hr : g.Registered)
    (h : addInstruction s bucket v i g = .ok g') :
    ∃ n os, g'.nodeId? v = some n ∧ sources s.kernel v i = .ok os ∧
      Enlists g g' n (v :: os ++ ((s.guards.find? bucket).map (·.condition)).toList)
        (g'.guardEdges s.guards bucket) := by
  obtain ⟨⟨g₁, n⟩, hreq, h⟩ := Outcome.bind_eq_ok.mp h
  obtain ⟨os, hos, h⟩ := Outcome.bind_eq_ok.mp h
  obtain ⟨g₂, hlinks, h⟩ := Outcome.bind_eq_ok.mp h
  obtain ⟨g₃, htrace, hguard⟩ := Outcome.bind_eq_ok.mp h
  obtain ⟨hv, hgains⟩ := gains_request hr hreq
  obtain ⟨ms, -, hlinked⟩ := gains_links (hgains n).registered hv hlinks
  have htraced := gains_traceAddress hlinked.registered htrace n
  have hv₃ := htraced.keeps (hlinked.keeps hv)
  have hguarded := gains_applyGuard htraced.registered hguard n
  refine ⟨n, os, hguarded.keeps hv₃, hos, ?_⟩
  have hbefore := ((enlists_request hreq n).trans (enlists_links hlinks)).trans
    (enlists_traceAddress htrace n)
  simpa using hbefore.trans (enlists_applyGuard htraced.registered hv₃ hguard)

/-! ## The sweep -/

/-- A visit of `u` in a bucket asks for a node of `v`. -/
def Setting.AsksFor (s : Setting) (bucket : Nat) (u v : ValueId) : Prop :=
  ∃ i os, s.kernel.Tracks u i ∧ sources s.kernel u i = .ok os ∧
    v ∈ u :: os ++ ((s.guards.find? bucket).map (·.condition)).toList

/-- What holds of a graph when the instructions `done` have been visited, each in its bucket: what
they ask for has nodes, and nothing else; those that are tracked have the control edge of the guard
of their bucket, and no other node has one. -/
structure Filled (s : Setting) (done : List (ValueId × Nat)) (g : Graph) : Prop where
  nodes : ∀ v, (g.nodeId? v).isSome ↔ ∃ e ∈ done, s.AsksFor e.2 e.1 v
  guarded : ∀ {v b i n}, (v, b) ∈ done → s.kernel.Tracks v i → g.nodeId? v = some n →
    g.controlsOf n = g.guardEdges s.guards b
  bare : ∀ {v n}, g.nodeId? v = some n → (v ∈ done.map Prod.fst → ∀ i, ¬ s.kernel.Tracks v i) →
    g.controlsOf n = []

/-- The edges of a guard stay the same once its condition has a node. -/
theorem guardEdges_mono {guards : Guards} (keeps : ∀ {v m}, g.nodeId? v = some m →
      g'.nodeId? v = some m)
    (known : ∀ guard, guards.find? bucket = some guard → (g.nodeId? guard.condition).isSome) :
    g'.guardEdges guards bucket = g.guardEdges guards bucket := by
  unfold guardEdges
  cases hg : guards.find? bucket with
  | none => rfl
  | some guard =>
      -- the node of the condition is kept, so the edge still comes from it
      obtain ⟨m, hm⟩ := Option.isSome_iff_exists.mp (known guard hg)
      rw [Option.bind_some, Option.bind_some, hm, keeps hm]

namespace Filled

variable {done : List (ValueId × Nat)}

/-- Before the sweep no value has a node, and none has been asked for. -/
theorem start (s : Setting) : Filled s [] (numbered s.kernel) where
  nodes v := by simp
  guarded := nofun
  bare hn := absurd hn (by simp)

/-- Passing over a value that is not tracked changes nothing. -/
theorem pass (h : Filled s done g) (untracked : ∀ i, ¬ s.kernel.Tracks v i) :
    Filled s (done ++ [(v, bucket)]) g where
  nodes w := by
    rw [h.nodes]
    constructor
    · rintro ⟨e, he, hasks⟩
      exact ⟨e, List.mem_append_left _ he, hasks⟩
    · rintro ⟨e, he, hasks⟩
      rcases List.mem_append.mp he with he | he
      · exact ⟨e, he, hasks⟩
      · obtain rfl := List.mem_singleton.mp he
        obtain ⟨i, -, t, -⟩ := hasks
        exact absurd t (untracked i)
  guarded {w b i n} hw t hn := by
    rcases List.mem_append.mp hw with hw | hw
    · exact h.guarded hw t hn
    · obtain ⟨rfl, rfl⟩ := Prod.mk.inj (List.mem_singleton.mp hw)
      exact absurd t (untracked i)
  bare {w n} hn hw := by
    apply h.bare hn
    intro hdone
    apply hw
    rw [List.map_append]
    exact List.mem_append_left _ hdone

/-- A node whose value is still to be visited has no control edge, whether it is there already or
not. -/
theorem bare_before (h : Filled s done g) (hr : g.Registered) (hr' : g'.Registered)
    (keeps : ∀ {w l}, g.nodeId? w = some l → g'.nodeId? w = some l) (hm : g'.nodeId? v = some m)
    (hv : v ∈ done.map Prod.fst → ∀ i, ¬ s.kernel.Tracks v i) : g.controlsOf m = [] := by
  cases hw : g.valueAt? m with
  | none =>
      rw [controlsOf, Option.map_eq_none_iff.mp hw]
      rfl
  | some w =>
      have hwm := (hr w m).mpr hw
      obtain rfl : w = v := hr'.value_unique (keeps hwm) hm
      exact h.bare hwm hv

/-- Adding an instruction that has not been visited enters what it asks for and its control edge. -/
theorem add (h : Filled s done g) (swept : Swept s.kernel (done.map Prod.fst) g)
    (fresh : v ∉ done.map Prod.fst) (t : s.kernel.Tracks v i)
    (hg : addInstruction s bucket v i g = .ok g') : Filled s (done ++ [(v, bucket)]) g' := by
  have hr := swept.registered
  obtain ⟨n, os, ms, hv, hos, hms, hgains⟩ := gains_addInstruction hr hg
  obtain ⟨n', os', hv', hos', henlists⟩ := enlists_addInstruction hr hg
  obtain rfl := Option.some.inj (hv.symm.trans hv')
  obtain rfl := Except.ok.inj (hos.symm.trans hos')
  have before : g.controlsOf n = [] :=
    h.bare_before hr hgains.registered hgains.keeps hv fun hdone => absurd hdone fresh
  have apart : ∀ {w m}, w ≠ v → g'.nodeId? w = some m → m ≠ n := by
    intro w m hw hm e
    subst e
    exact hw (hgains.registered.value_unique hm hv)
  refine ⟨fun w => ?_, ?_, ?_⟩
  · rw [henlists.nodes, h.nodes]
    -- what this visit asks for, on top of what was asked for before
    have hself : s.AsksFor bucket v w ↔
        w ∈ v :: os ++ ((s.guards.find? bucket).map (·.condition)).toList := by
      constructor
      · rintro ⟨j, us, tj, hus, hw⟩
        obtain rfl := Option.some.inj (tj.known.symm.trans t.known)
        obtain rfl := Except.ok.inj (hus.symm.trans hos)
        exact hw
      · exact fun hw => ⟨i, os, t, hos, hw⟩
    simp only [List.mem_append, or_and_right, exists_or, List.mem_singleton, exists_eq_left]
    rw [hself, List.mem_append]
  · intro w b j m hw tw hm
    rcases List.mem_append.mp hw with hw | hw
    · have hdone : w ∈ done.map Prod.fst := List.mem_map.mpr ⟨(w, b), hw, rfl⟩
      have hne : w ≠ v := fun e => fresh (e ▸ hdone)
      obtain ⟨l, us, hl, hus, -⟩ := swept.linked hdone tw
      obtain rfl := Option.some.inj ((hgains.keeps hl).symm.trans hm)
      rw [henlists.controls_other (apart hne hm), h.guarded hw tw hl]
      -- the condition of the guard got its node when the instruction was visited
      refine (guardEdges_mono hgains.keeps fun guard hguard => ?_).symm
      exact (h.nodes _).mpr ⟨(w, b), hw, j, us, tw, hus, by simp [hguard]⟩
    · -- the instruction itself: its node was bare, and has the edge of its guard now
      obtain ⟨rfl, rfl⟩ := Prod.mk.inj (List.mem_singleton.mp hw)
      obtain rfl := Option.some.inj (hm.symm.trans hv)
      rw [henlists.controls_self, before]
      rfl
  · intro w m hm hw
    have hne : w ≠ v := by
      rintro rfl
      exact hw (by simp) i t
    rw [henlists.controls_other (apart hne hm)]
    apply h.bare_before hr hgains.registered hgains.keeps hm
    intro hdone
    apply hw
    rw [List.map_append]
    exact List.mem_append_left _ hdone

/-- **One visit.** -/
theorem visit (h : Filled s done g) (swept : Swept s.kernel (done.map Prod.fst) g)
    (hfeeds : FeedTable.ofKernel s.kernel = .ok s.feeds) (fresh : v ∉ done.map Prod.fst)
    (hg : Graph.visit s bucket g v = .ok g') : Filled s (done ++ [(v, bucket)]) g' := by
  rcases visit_cases hfeeds hg with ⟨i, t, hadd⟩ | ⟨untracked, rfl⟩
  · exact h.add swept fresh t hadd
  · exact h.pass untracked

end Filled

/-- The sweep goes through the schedule of the kernel. -/
theorem foldlM_visitBlock (s : Setting) (g : Graph) :
    (s.kernel.blocks.toList.zipIdx 1).foldlM (visitBlock s) g =
      s.kernel.schedule.foldlM (fun g e => Graph.visit s e.2 g e.1) g := by
  unfold Kernel.schedule
  rw [Outcome.foldlM_flatMap]
  simp only [List.foldlM_map]
  rfl

/-- **The finished graph is filled from the whole schedule of its kernel**, and swept for it. -/
theorem filled_of_ofKernel {k : Kernel} {widths : Widths} (wf : k.WellFormed)
    (h : ofKernel k widths = .ok g) : ∃ guards feeds,
      Guards.ofKernel k (numbered k) = .ok guards ∧ FeedTable.ofKernel k = .ok feeds ∧
        Swept k k.instructions g ∧ Filled ⟨k, widths, guards, feeds⟩ k.schedule g := by
  obtain ⟨guards, hguards, h⟩ := Outcome.bind_eq_ok.mp h
  obtain ⟨feeds, hfeeds, h⟩ := Outcome.bind_eq_ok.mp h
  refine ⟨guards, feeds, hguards, hfeeds, ?_⟩
  rw [foldlM_visitBlock ⟨k, widths, guards, feeds⟩] at h
  rw [← k.map_fst_schedule]
  refine Outcome.foldlM_prefix_induction (motive := fun done g => Swept k (done.map Prod.fst) g ∧
    Filled ⟨k, widths, guards, feeds⟩ done g) ?_ ⟨.start k, .start _⟩ h
  rintro done ⟨v, b⟩ rest g g' hsplit ⟨swept, filled⟩ hvisit
  -- the schedule lists no instruction twice
  have fresh : v ∉ done.map Prod.fst := by
    have hnodup := wf.nodup_instructions
    rw [← k.map_fst_schedule, hsplit, List.map_append, List.nodup_append] at hnodup
    exact fun hv => hnodup.2.2 v hv v List.mem_cons_self rfl
  constructor
  · rw [List.map_append]
    exact swept.visit (s := ⟨k, widths, guards, feeds⟩) hfeeds fresh hvisit
  · exact filled.visit swept hfeeds fresh hvisit

/-! ## Nodes as a list -/

def values (g : Graph) : List ValueId := g.nodes.toList.map (·.value)

theorem getElem?_values (g : Graph) (n : Nat) : g.values[n]? = g.valueAt? ⟨n⟩ := by
  simp [values, valueAt?]

/-- The values listed are those that have a node. -/
theorem Registered.mem_values (h : g.Registered) : v ∈ g.values ↔ (g.nodeId? v).isSome := by
  rw [List.mem_iff_getElem?, Option.isSome_iff_exists]
  constructor
  · rintro ⟨n, hn⟩
    rw [getElem?_values] at hn
    exact ⟨⟨n⟩, (h v ⟨n⟩).mpr hn⟩
  · rintro ⟨n, hn⟩
    exact ⟨n.index, (getElem?_values g n.index).trans ((h v n).mp hn)⟩

/-- No value has two nodes. -/
theorem Registered.nodup_values (h : g.Registered) : g.values.Nodup := by
  rw [List.nodup_iff_injective_getElem]
  intro n m e
  change g.values[n.val] = g.values[m.val] at e
  have hn := (getElem?_values g n).symm.trans (List.getElem?_eq_getElem n.isLt)
  have hm := (getElem?_values g m).symm.trans (List.getElem?_eq_getElem m.isLt)
  rw [← e] at hm
  have hnm := ((h _ _).mpr hn).symm.trans ((h _ _).mpr hm)
  exact Fin.ext (congrArg NodeId.index (Option.some.inj hnm))

/-- The nodes of a list of values stand for these values. -/
theorem Registered.map_valueAt? (h : g.Registered) {os : List ValueId} {ms : List NodeId}
    (linked : g.Linked os ms) : ms.map g.valueAt? = os.map some := by
  induction linked with
  | nil => rfl
  | cons ho _ ih => rw [List.map_cons, List.map_cons, ih, (h _ _).mp ho]

/-- The sweep asks for what is represented. -/
theorem asksFor_iff_represented {k : Kernel} {widths : Widths} {guards : Guards}
    {feeds : FeedTable} (wf : k.WellFormed) (swept : Swept k k.instructions g) :
    (∃ e ∈ k.schedule, Setting.AsksFor ⟨k, widths, guards, feeds⟩ e.2 e.1 v) ↔
      k.Represented guards v := by
  constructor
  · rintro ⟨⟨u, b⟩, he, i, os, t, hos, hv⟩
    obtain ⟨n, block, hn, hu, rfl⟩ := Kernel.mem_schedule.mp he
    rw [List.mem_append, List.mem_cons, Option.mem_toList, Option.map_eq_some_iff] at hv
    rcases hv with (rfl | hv) | ⟨guard, hguard, rfl⟩
    · exact .tracked t
    · exact .target t ((Kernel.targets_iff t.opcode).mp hos) hv
    · exact .condition t hn hu hguard
  · intro h
    -- a tracked instruction is visited, and its sources were found then
    have scheduled {u : ValueId} {i : Instruction} (t : k.Tracks u i) : ∃ b os,
        (u, b) ∈ k.schedule ∧ sources k u i = .ok os := by
      have hmem : u ∈ k.instructions := wf.mem_instructions.mpr ⟨i, t.known⟩
      obtain ⟨-, os, -, hos, -⟩ := swept.linked hmem t
      rw [← k.map_fst_schedule] at hmem
      obtain ⟨⟨_, b⟩, he, rfl⟩ := List.mem_map.mp hmem
      exact ⟨b, os, he, hos⟩
    cases h with
    | @tracked v i t =>
        obtain ⟨b, os, he, hos⟩ := scheduled t
        exact ⟨(v, b), he, i, os, t, hos, by simp⟩
    | @target u v i targets t linked hv =>
        obtain ⟨b, -, he, -⟩ := scheduled t
        exact ⟨(u, b), he, i, targets, t, (Kernel.targets_iff t.opcode).mpr linked, by simp [hv]⟩
    | @condition u i n block guard t hn hu hguard =>
        obtain ⟨-, os, -, hos⟩ := scheduled t
        exact ⟨(u, n + 1), Kernel.mem_schedule.mpr ⟨n, block, hn, hu, rfl⟩, i, os, t, hos,
          by simp [hguard]⟩

end Graph

/-! ## The contents of a graph -/

namespace Kernel

/-- The table of feeds tells which instructions are tracked. -/
theorem tracks_iff {k : Kernel} {feeds : FeedTable} (hfeeds : FeedTable.ofKernel k = .ok feeds)
    {v : ValueId} {i : Instruction} : k.Tracks v i ↔
      k.instruction? v = some i ∧ i.opcode.isTracked = true ∧ feeds.feeds v = false := by
  have hdata (hi : k.instruction? v = some i) : feeds.feeds v = false ↔ ¬ k.FeedsAddress v := by
    rw [← FeedTable.feeds_iff hfeeds (instruction?_lt hi), Bool.not_eq_true]
  constructor
  · intro t
    exact ⟨t.known, t.opcode, (hdata t.known).mpr t.data⟩
  · rintro ⟨hi, opcode, hf⟩
    exact ⟨hi, opcode, (hdata hi).mp hf⟩

/-- **What is in a graph.** There is one node for each value that is represented and none for
another. A tracked instruction is linked to its targets, in order, and depends on the guard of its
block; the node of any other value has no edge at all. -/
theorem ofKernel_contents {name : String} {script : List Step} {k : Kernel}
    (built : Kernel.ofScript? name script = some k) {widths : Widths} {g : Graph}
    (h : Graph.ofKernel k widths = .ok g) : ∃ guards feeds,
      Guards.ofKernel k (Graph.numbered k) = .ok guards ∧ FeedTable.ofKernel k = .ok feeds ∧
      (∀ v i, k.Tracks v i ↔
        k.instruction? v = some i ∧ i.opcode.isTracked = true ∧ feeds.feeds v = false) ∧
      g.values.Nodup ∧ (∀ v, v ∈ g.values ↔ k.Represented guards v) ∧
      ∀ (n : Nat) (node : Node), g.nodes[n]? = some node →
        (∀ i, k.Tracks node.value i →
          (∃ targets, k.Targets i targets ∧ node.uses.map g.valueAt? = targets.map some) ∧
          ∀ b block, k.blocks[b]? = some block → node.value ∈ block.instructions →
            node.controls = g.guardEdges guards (b + 1)) ∧
        ((∀ i, ¬ k.Tracks node.value i) → node.uses = [] ∧ node.controls = []) := by
  have wf := (ofScript?_consistent built).toWellFormed
  obtain ⟨guards, feeds, hguards, hfeeds, swept, filled⟩ := Graph.filled_of_ofKernel wf h
  have hr := swept.registered
  refine ⟨guards, feeds, hguards, hfeeds, fun v i => tracks_iff hfeeds, hr.nodup_values, ?_, ?_⟩
  · intro v
    rw [hr.mem_values, filled.nodes, Graph.asksFor_iff_represented wf swept]
  · intro n node hn
    have hnode := hr.nodeId?_of_getElem? (n := ⟨n⟩) hn
    have huses : g.usesOf ⟨n⟩ = node.uses := by simp [Graph.usesOf, hn]
    have hcontrols : g.controlsOf ⟨n⟩ = node.controls := by simp [Graph.controlsOf, hn]
    constructor
    · intro i t
      constructor
      · obtain ⟨m, os, hm, hos, linked⟩ := swept.linked (wf.mem_instructions.mpr ⟨i, t.known⟩) t
        obtain rfl := Option.some.inj (hm.symm.trans hnode)
        rw [huses] at linked
        exact ⟨os, (targets_iff t.opcode).mp hos, hr.map_valueAt? linked⟩
      · intro b block hb hmem
        rw [← hcontrols]
        exact filled.guarded (mem_schedule.mpr ⟨b, block, hb, hmem, rfl⟩) t hnode
    · -- any other value: the sweep passed over it
      intro untracked
      rw [← huses, ← hcontrols]
      exact ⟨swept.bare hnode fun _ => untracked, filled.bare hnode fun _ => untracked⟩

/-- An element is loaded at a widened index and, if it is positive, doubled and stored back. -/
def rectifyScript : List Step :=
  [.param "p" (.pointer (.int 8)), .param "i" (.int 4), .constant 0 8, .block "entry",
    .block "positive", .block "exit", .moveTo ⟨0⟩, .cast .zext ⟨1⟩ 8 "wide",
    .elementPointer ⟨0⟩ [⟨3⟩] "address", .load ⟨4⟩ "x", .compare .sgt ⟨5⟩ ⟨2⟩ "c",
    .branchIf ⟨6⟩ ⟨1⟩ ⟨2⟩, .moveTo ⟨1⟩, .binary .add ⟨5⟩ ⟨5⟩ "twice", .store ⟨8⟩ ⟨4⟩, .branch ⟨2⟩,
    .moveTo ⟨2⟩, .ret none]

def rectify : Kernel := (Kernel.ofScript? "rectify" rectifyScript).getD (.empty "rectify")

def uniform (k : Kernel) (bits : Nat) : Widths :=
  k.ids.foldl (fun w v => (w.raise v bits).2) .empty

/-- The cast and the address have no nodes; the sum uses the loaded element twice. -/
theorem ofKernel_contents_rectify :
    Kernel.ofScript? "rectify" rectifyScript = some rectify ∧
      ∃ g, Graph.ofKernel rectify (rectify.uniform 8) = .ok g ∧
        g.values = [⟨5⟩, ⟨0⟩, ⟨1⟩, ⟨6⟩, ⟨2⟩, ⟨8⟩, ⟨9⟩] ∧
        (g.nodes[5]?.map fun node => node.uses.map g.valueAt?) = some [some ⟨5⟩, some ⟨5⟩] ∧
        g.values.Nodup ∧ ∃ guards, ∀ v, v ∈ g.values ↔ rectify.Represented guards v := by
  have built : Kernel.ofScript? "rectify" rectifyScript = some rectify := rfl
  have hshape : (Graph.ofKernel rectify (rectify.uniform 8)).toOption.map (fun g =>
      (g.values, g.nodes[5]?.map fun node => node.uses.map g.valueAt?)) =
        some ([⟨5⟩, ⟨0⟩, ⟨1⟩, ⟨6⟩, ⟨2⟩, ⟨8⟩, ⟨9⟩], some [some ⟨5⟩, some ⟨5⟩]) := by decide +kernel
  cases hg : Graph.ofKernel rectify (rectify.uniform 8) with
  | error => simp [hg, Except.toOption] at hshape
  | ok g =>
      simp only [hg, Except.toOption, Option.map_some] at hshape
      obtain ⟨hvalues, huses⟩ := Prod.mk.inj (Option.some.inj hshape)
      obtain ⟨guards, -, -, -, -, hnodup, hmem, -⟩ := ofKernel_contents built hg
      exact ⟨built, g, rfl, hvalues, huses, hnodup, guards, hmem⟩

end Kernel

end Datapath
