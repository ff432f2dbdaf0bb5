import Datapath.Metrics.Depth
import Datapath.Proofs.Graph.InRange
import Datapath.Proofs.Metrics.CriticalPath

/-!
# Lookups that pass in silence

Some lookups answer also where nothing has the number: an edge for a node that is not there is not
entered, a number of no value is passed over by a visit, and a node without a depth has depth zero.
That none of these happens cannot be told from an answer.

The *strict* forms below differ from construction and from the two ways to the critical path in that
they look each of these up first and are out of range if there is nothing. Strict construction also
looks up the bucket of each block that it comes to. They are equal to the plain ones, for a kernel
whose records agree (`ofKernelStrict_eq`) and for a graph whose edges lead to nodes
(`criticalPathStrict_eq`, and `criticalPathByStrict_eq` for one pass in the order of a sort).
-/

namespace Datapath

/-! ## Replacing a step by another -/

namespace Outcome

variable {α β : Type} {motive : β → Prop}

/-- What comes next need only agree on the answer that there is. -/
theorem bind_congr {x : Outcome α} {f f' : α → Outcome β} (h : ∀ a, x = .ok a → f a = f' a) :
    x >>= f = x >>= f' := by
  cases x with
  | error fault => rfl
  | ok a => exact h a rfl

/-- Folds agree if their steps do as long as something holds that the steps keep. -/
theorem foldlM_congr {f f' : β → α → Outcome β} {l : List α} {b : β}
    (same : ∀ b, motive b → ∀ a ∈ l, f b a = f' b a)
    (keeps : ∀ b a c, motive b → f' b a = .ok c → motive c) (start : motive b) :
    l.foldlM f b = l.foldlM f' b := by
  induction l generalizing b with
  | nil => rfl
  | cons a l ih =>
      rw [List.foldlM_cons, List.foldlM_cons, same b start a List.mem_cons_self]
      refine bind_congr fun c hc => ih (fun b hb x hx => ?_) (keeps b a c start hc)
      exact same b hb x (List.mem_cons_of_mem a hx)

/-- Steps that all have an answer give the list of the answers. -/
theorem mapM_eq_ok_map {f : α → Outcome β} {f' : α → β} {l : List α}
    (h : ∀ a ∈ l, f a = .ok (f' a)) : l.mapM f = .ok (l.map f') := by
  induction l with
  | nil => rfl
  | cons a l ih =>
      rw [List.mapM_cons, h a List.mem_cons_self, ih fun x hx => h x (List.mem_cons_of_mem a hx)]
      rfl

/-- Steps that all have an answer, as long as the motive holds, run to the fold of the answers. -/
theorem foldlM_eq_ok_foldl {f : β → α → Outcome β} {f' : β → α → β} {l : List α} {b : β}
    (step : ∀ b, motive b → ∀ a ∈ l, f b a = .ok (f' b a) ∧ motive (f' b a)) (start : motive b) :
    l.foldlM f b = .ok (l.foldl f' b) := by
  induction l generalizing b with
  | nil => rfl
  | cons a l ih =>
      obtain ⟨answer, holds⟩ := step b start a List.mem_cons_self
      rw [List.foldlM_cons, answer]
      exact ih (fun b hb x hx => step b hb x (List.mem_cons_of_mem a hx)) holds

end Outcome

namespace Graph

variable {k : Kernel} {s : Setting} {bucket : Nat} {g : Graph} {v o : ValueId} {n : NodeId}
  {i : Instruction} {depths : Array Nat}

/-! ## Construction -/

/-- Links a node, which has to be there, to the node of a value. -/
def linkStrict (s : Setting) (bucket : Nat) (source : NodeId) (g : Graph) (v : ValueId) :
    Outcome Graph := do
  let (g, target) ← request s bucket g v
  let _ ← g.node source
  return g.addUse source target

/-- Adds the control edge of a node in a guarded block; the node has to be there. -/
def applyGuardStrict (s : Setting) (bucket : Nat) (n : NodeId) (g : Graph) : Outcome Graph := do
  match s.guards.find? bucket with
  | none => return g
  | some guard =>
    let (g, source) ← request s bucket g guard.condition
    let _ ← g.node n
    return g.addControl n { source := source, polarity := guard.polarity }

/-- Adds an instruction and links its node, both strictly. -/
def addInstructionStrict (s : Setting) (bucket : Nat) (v : ValueId) (i : Instruction) (g : Graph) :
    Outcome Graph := do
  let (g, n) ← request s bucket g v
  let g ← (← sources s.kernel v i).foldlM (linkStrict s bucket n) g
  let g ← traceAddress s i g
  applyGuardStrict s bucket n g

/-- Takes in an instruction of a block, which has to be a value of the kernel. -/
def visitStrict (s : Setting) (bucket : Nat) (g : Graph) (v : ValueId) : Outcome Graph := do
  match (← s.kernel.value v).instruction? with
  | none => return g
  | some i =>
    if !s.feeds.feeds v && i.opcode.isTracked then addInstructionStrict s bucket v i g
    else visit s bucket g v

/-- Takes in the instructions of a block, whose bucket has to be recorded. -/
def visitBlockStrict (s : Setting) (g : Graph) (entry : Block × Nat) : Outcome Graph := do
  let bucket ← Guards.bucketOf g ⟨entry.2⟩
  entry.1.instructions.foldlM (visitStrict s bucket) g

def ofKernelStrict (k : Kernel) (widths : Widths) : Outcome Graph := do
  let start := numbered k
  let guards ← Guards.ofKernel k start
  let feeds ← FeedTable.ofKernel k
  k.blocks.toList.zipIdx.foldlM (visitBlockStrict ⟨k, widths, guards, feeds⟩) start

/-- A node that the registry leads to is found. -/
theorem Registered.exists_node (h : g.Registered) (hn : g.nodeId? v = some n) :
    ∃ node, g.node n = .ok node := by
  have hlt := h.lt_size hn
  exact ⟨g.nodes[n.index], by rw [node, Array.getElem?_eq_getElem hlt]⟩

/-- The node of an instruction is there when its edges are entered. -/
theorem linkStrict_eq (hr : g.Registered) (hn : g.nodeId? v = some n) (o : ValueId) :
    linkStrict s bucket n g o = link s bucket n g o := by
  refine Outcome.bind_congr fun ⟨g', m⟩ hreq => ?_
  obtain ⟨-, hgains⟩ := gains_request hr hreq
  -- the node that gets the edge is still there
  obtain ⟨node, hnode⟩ := (hgains n).registered.exists_node ((hgains n).keeps hn)
  simp only [hnode, bind, Except.bind]

theorem applyGuardStrict_eq (hr : g.Registered) (hn : g.nodeId? v = some n) :
    applyGuardStrict s bucket n g = applyGuard s bucket n g := by
  unfold applyGuardStrict applyGuard
  cases s.guards.find? bucket with
  | none => rfl
  | some guard =>
      refine Outcome.bind_congr fun ⟨g', m⟩ hreq => ?_
      obtain ⟨-, hgains⟩ := gains_request hr hreq
      obtain ⟨node, hnode⟩ := (hgains n).registered.exists_node ((hgains n).keeps hn)
      simp only [hnode, bind, Except.bind]

theorem linksStrict_eq (hr : g.Registered) (hn : g.nodeId? v = some n) (os : List ValueId) :
    os.foldlM (linkStrict s bucket n) g = os.foldlM (link s bucket n) g := by
  apply Outcome.foldlM_congr (motive := fun g => g.Registered ∧ g.nodeId? v = some n)
  · exact fun g ⟨hr, hn⟩ o _ => linkStrict_eq hr hn o
  · rintro g o g' ⟨hr, hn⟩ hlink
    obtain ⟨m, -, hgains⟩ := gains_link hr hn hlink
    exact ⟨hgains.registered, hgains.keeps hn⟩
  · exact ⟨hr, hn⟩

theorem addInstructionStrict_eq (hr : g.Registered) (bucket : Nat) (v : ValueId)
    (i : Instruction) :
    addInstructionStrict s bucket v i g = addInstruction s bucket v i g := by
  refine Outcome.bind_congr fun ⟨g₁, n⟩ hreq => Outcome.bind_congr fun os _ => ?_
  obtain ⟨hn, hgains⟩ := gains_request hr hreq
  rw [linksStrict_eq (hgains n).registered hn]
  refine Outcome.bind_congr fun g₂ hlinks => Outcome.bind_congr fun g₃ htrace => ?_
  obtain ⟨ms, -, hlinked⟩ := gains_links (hgains n).registered hn hlinks
  have htraced := gains_traceAddress hlinked.registered htrace n
  -- the node has been kept through the links and the trace
  exact applyGuardStrict_eq htraced.registered (htraced.keeps (hlinked.keeps hn))

/-- A visit to what is tracked adds it. -/
theorem visit_of_isTracked (hi : s.kernel.instruction? v = some i) (data : s.feeds.feeds v = false)
    (tracked : i.opcode.isTracked = true) :
    visit s bucket g v = addInstruction s bucket v i g := by
  unfold visit
  simp only [hi, data, Bool.false_eq_true, if_false]
  cases hop : i.opcode <;> rw [hop] at tracked <;> first
    | rfl
    | cases tracked

/-- What a block lists is a value of the kernel, so looking it up first changes nothing. -/
theorem visitStrict_eq (hv : v.index < s.kernel.size) (hr : g.Registered) :
    visitStrict s bucket g v = visit s bucket g v := by
  obtain ⟨x, hx⟩ := Kernel.exists_value? hv
  have hi := Kernel.instruction?_of_value? hx
  rw [visitStrict, Kernel.value_eq_ok.mpr hx]
  show (match x.instruction? with | none => _ | some i => _) = _
  cases hxi : x.instruction? with
  | none =>
      rw [visit, hi, hxi]
  | some i =>
      rw [hxi] at hi
      dsimp only
      split
      · next h =>
        obtain ⟨data, tracked⟩ := Bool.and_eq_true_iff.mp h
        rw [visit_of_isTracked hi (by simpa using data) tracked, addInstructionStrict_eq hr]
      · rfl

/-- A block has the bucket that comes with its position. -/
theorem bucketOf_of_numbers {count p : Nat} (numbers : g.Numbers count) (hp : p < count) :
    Guards.bucketOf g ⟨p⟩ = .ok (p + 1) := by
  rw [Guards.bucketOf, numbers.blockIndex?_eq_some_iff.mpr ⟨rfl, hp⟩]

/-- **Construction writes to nodes that are there**, visits values of the kernel, and finds the
buckets of its blocks: looking them up first makes no difference. -/
theorem ofKernelStrict_eq (wf : k.WellFormed) (widths : Widths) :
    ofKernelStrict k widths = ofKernel k widths := by
  refine Outcome.bind_congr fun guards _ => Outcome.bind_congr fun feeds hfeeds => ?_
  have kept (bucket : Nat) := kept_closed ⟨k, widths, guards, feeds⟩ bucket
  have counted (bucket : Nat) := kept_numbers ⟨k, widths, guards, feeds⟩ bucket k.blocks.size
  rw [List.zipIdx_succ, List.foldlM_map]
  apply Outcome.foldlM_congr
    (motive := fun g => (g.Registered ∧ g.Closed) ∧ g.Numbers k.blocks.size)
  · -- one block: its bucket is recorded, and what it lists is there
    rintro g ⟨hg, numbers⟩ ⟨block, p⟩ hentry
    have hb : k.blocks[p]? = some block := by
      rw [← Array.getElem?_toList]
      exact List.mem_zipIdx_iff_getElem?.mp hentry
    have hp : p < k.blocks.size := (Array.getElem?_eq_some_iff.mp hb).1
    simp only [visitBlockStrict, bucketOf_of_numbers numbers hp, bind, Except.bind]
    apply Outcome.foldlM_congr (motive := fun g => g.Registered ∧ g.Closed)
    · exact fun g hg v hv => visitStrict_eq (wf.lt_size_of_listed hb hv) hg.1
    · exact fun g v g' hg hvisit => (kept _).visit hfeeds hg hvisit
    · exact hg
  · -- a block leaves the graph closed and the buckets as they were recorded
    rintro g entry g' ⟨hg, numbers⟩ hblock
    exact ⟨Outcome.foldlM_induction (fun _ _ _ => (kept _).visit hfeeds) hg hblock,
      Outcome.foldlM_induction (fun _ _ _ => (counted _).visit hfeeds) numbers hblock⟩
  · exact ⟨⟨registered_numbered k, closed_numbered k⟩, numbers_numbered k⟩

/-! ## Depths in rounds -/

/-- The depth of a node, which has to have one. -/
def depthAt (depths : Array Nat) (n : Nat) : Outcome Nat :=
  match depths[n]? with
  | some depth => .ok depth
  | none => .error (.outOfRange n)

/-- The depth of a node; those that it uses have to have one. -/
def depthStrict (depths : Array Nat) (node : Node) : Outcome Nat := do
  let below ← node.uses.mapM fun n => depthAt depths n.index
  return below.foldl max 0 + 1

/-- One round: the depths of all nodes from those of the round before. -/
def relaxStrict (g : Graph) (depths : Array Nat) : Outcome (Array Nat) := do
  return (← g.nodes.toList.mapM (depthStrict depths)).toArray

/-- Relaxes strictly until nothing changes, for a number of rounds at most. -/
def settleDepthsStrict (g : Graph) : (rounds : Nat) → Array Nat → Outcome (Option (Array Nat))
  | 0, depths => do
    if (← g.relaxStrict depths) = depths then return some depths else return none
  | rounds + 1, depths => do
    let next ← g.relaxStrict depths
    if next = depths then return some depths else settleDepthsStrict g rounds next

/-- The number of nodes on the longest path along use edges, from strict depths. -/
def criticalPathStrict (g : Graph) : Outcome (Option Nat) := do
  let depths ← g.settleDepthsStrict g.nodes.size (Array.replicate g.nodes.size 1)
  return depths.map fun depths => depths.foldl max 0

theorem depthAt_eq {n : Nat} (hn : n < depths.size) :
    depthAt depths n = .ok (depths[n]?.getD 0) := by
  rw [depthAt, Array.getElem?_eq_getElem hn, Option.getD_some]

/-- A node's depth is found if those that it uses have depths. -/
theorem depthStrict_eq {node : Node} (there : ∀ n ∈ node.uses, n.index < depths.size) :
    depthStrict depths node = .ok (depthOf depths node) := by
  rw [depthStrict, Outcome.mapM_eq_ok_map fun n hn => depthAt_eq (there n hn)]
  rfl

@[simp] theorem size_relax (g : Graph) (depths : Array Nat) :
    (g.relax depths).size = g.nodes.size := Array.size_map

/-- In a closed graph every use leads to a node, and every node has a depth. -/
theorem relaxStrict_eq (closed : g.Closed) (hsize : depths.size = g.nodes.size) :
    g.relaxStrict depths = .ok (g.relax depths) := by
  have found (node : Node) (hnode : node ∈ g.nodes.toList) :
      depthStrict depths node = .ok (depthOf depths node) := by
    -- the edges of a node that is there lead to nodes that are there
    obtain ⟨n, hn⟩ := Array.mem_iff_getElem?.mp (Array.mem_toList_iff.mp hnode)
    apply depthStrict_eq
    intro m hm
    rw [hsize]
    exact closed ⟨n⟩ node hn m (List.mem_append_left _ hm)
  rw [relaxStrict, Outcome.mapM_eq_ok_map found]
  show Except.ok _ = Except.ok _
  rw [relax, ← Array.toList_map, Array.toArray_toList]

/-- Each round leaves as many depths as there are nodes. -/
theorem settleDepthsStrict_eq (closed : g.Closed) {rounds : Nat}
    (hsize : depths.size = g.nodes.size) :
    g.settleDepthsStrict rounds depths = .ok (g.settleDepths rounds depths) := by
  induction rounds generalizing depths with
  | zero =>
      rw [settleDepthsStrict, settleDepths, relaxStrict_eq closed hsize]
      show (if _ then _ else _) = _
      split <;> rfl
  | succ rounds ih =>
      rw [settleDepthsStrict, settleDepths, relaxStrict_eq closed hsize]
      show (if _ then _ else _) = _
      split
      · rfl
      · exact ih (g.size_relax depths)

/-- **Every depth that is looked up is there**, in each round. -/
theorem criticalPathStrict_eq (closed : g.Closed) :
    g.criticalPathStrict = .ok g.criticalPath? := by
  rw [criticalPathStrict, settleDepthsStrict_eq closed Array.size_replicate]
  rfl

/-! ## Depths in one pass -/

/-- The flow of a graph. The nodes that are used have to be there. -/
def flowStrict (g : Graph) : Outcome Flow := do
  let edges ← g.nodes.toList.zipIdx.mapM fun (node, n) => node.uses.mapM fun m => do
    let _ ← g.node m
    return (m.index, n)
  return { size := g.nodes.size, edges := edges.flatten }

/-- Enters the depth of a place. It and those that it takes data from have to have depths. -/
def enterStrict (f : Flow) (depths : Array Nat) (n : Nat) : Outcome (Array Nat) := do
  let below ← (f.into n).mapM (depthAt depths)
  let _ ← depthAt depths n
  return depths.setIfInBounds n (below.foldl max 0 + 1)

def depthsStrict (f : Flow) (order : List Nat) : Outcome (Array Nat) :=
  order.foldlM (enterStrict f) (Array.replicate f.size 0)

/-- The number of nodes on the longest path along use edges, by a sort of the nodes and strict
depths. -/
def criticalPathByStrict (sort : Flow → Option (List Nat)) (g : Graph) : Outcome (Option Nat) := do
  let flow ← g.flowStrict
  match sort flow with
  | none => return none
  | some order =>
    let depths ← depthsStrict flow order
    return some (depths.foldl max 0)

theorem flowStrict_eq (closed : g.Closed) : g.flowStrict = .ok g.flow := by
  have found (entry : Node × Nat) (hentry : entry ∈ g.nodes.toList.zipIdx) :
      (entry.1.uses.mapM fun m => do
        let _ ← g.node m
        return (m.index, entry.2) : Outcome _) =
          .ok (entry.1.uses.map fun m => (m.index, entry.2)) := by
    refine Outcome.mapM_eq_ok_map fun m hm => ?_
    have hnode : g.nodes[entry.2]? = some entry.1 := by
      rw [← Array.getElem?_toList]
      exact List.mem_zipIdx_iff_getElem?.mp hentry
    have hlt := closed ⟨entry.2⟩ entry.1 hnode m (List.mem_append_left _ hm)
    rw [node, Array.getElem?_eq_getElem hlt]
    rfl
  rw [flowStrict, Outcome.mapM_eq_ok_map found, flow, List.flatMap_def]
  rfl

/-- A place of the flow takes data from places of the flow. -/
theorem enterStrict_eq {f : Flow} {n : Nat} (closed : f.Closed) (hsize : depths.size = f.size)
    (hn : n < f.size) : enterStrict f depths n = .ok (f.enter depths n) := by
  have below (m : Nat) (hm : m ∈ f.into n) : depthAt depths m = .ok (depths[m]?.getD 0) :=
    depthAt_eq (hsize ▸ (closed (Flow.mem_into.mp hm)).1)
  rw [enterStrict, Outcome.mapM_eq_ok_map below, depthAt_eq (hsize ▸ hn)]
  rfl

/-- The depths keep their number through the pass. -/
theorem depthsStrict_eq {f : Flow} (closed : f.Closed) {order : List Nat}
    (lists : ∀ n ∈ order, n < f.size) : depthsStrict f order = .ok (f.depths order) := by
  apply Outcome.foldlM_eq_ok_foldl (motive := fun depths => depths.size = f.size)
  · intro depths hsize n hn
    refine ⟨enterStrict_eq closed hsize (lists n hn), ?_⟩
    rw [Flow.enter, Array.size_setIfInBounds, hsize]
  · exact Array.size_replicate

/-- **One pass looks up depths that are there**, if the sort lists nodes of the graph. -/
theorem criticalPathByStrict_eq {sort : Flow → Option (List Nat)} (closed : g.Closed)
    (lists : ∀ order, sort g.flow = some order → ∀ n ∈ order, n < g.nodes.size) :
    g.criticalPathByStrict sort = .ok (g.criticalPathBy sort) := by
  rw [criticalPathByStrict, flowStrict_eq closed, criticalPathBy]
  show (match sort g.flow with | none => _ | some order => _) = _
  cases hsort : sort g.flow with
  | none => rfl
  | some order =>
      dsimp only
      rw [depthsStrict_eq (closed_flow closed) (lists order hsort)]
      rfl

end Graph

end Datapath
