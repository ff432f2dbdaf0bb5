import Datapath.Proofs.Address.Feeding
import Datapath.Proofs.Graph.Registry
import Datapath.Proofs.Kernel.WellFormed

/-!
# The sweep that makes a graph

Construction visits the instructions of a kernel in textual order, each once. Those that are
*tracked*, loads and stores, and arithmetic and comparisons that feed no address, are linked to
their sources when they are visited; nothing else ever gets a use edge.

`Graph.Swept` says how far the sweep has come: what holds of the graph once a list of instructions
has been visited. Every visit preserves it (`Swept.visit`), so it holds of the finished graph for
all instructions (`swept_of_ofKernel`).
-/

namespace Datapath

/-! ## What is tracked -/

def Opcode.isComputation (o : Opcode) : Bool := o.isArithmetic || o = .icmp

def Opcode.isTracked (o : Opcode) : Bool := o.isAccess || o.isComputation

/-- The instruction is linked to its sources: it moves or computes data, and feeds no address. -/
structure Kernel.Tracks (k : Kernel) (v : ValueId) (i : Instruction) : Prop where
  known : k.instruction? v = some i
  opcode : i.opcode.isTracked = true
  data : ¬ k.FeedsAddress v

/-- Loads and stores are always linked: they end the way to an address. -/
theorem Kernel.Tracks.of_isAccess {k : Kernel} {v : ValueId} {i : Instruction}
    (hi : k.instruction? v = some i) (accesses : i.opcode.isAccess = true) : k.Tracks v i where
  known := hi
  opcode := Bool.or_eq_true_iff.mpr (.inl accesses)
  data := k.not_feedsAddress_of_access (by rw [opcode?, hi, Option.map_some]) accesses

namespace Graph

variable {s : Setting} {bucket : Nat} {g g' : Graph} {v o : ValueId} {n m : NodeId}
  {i : Instruction}

/-! ## One step of construction -/

/-- A value that has a node keeps it, and any other gets a new node without edges, in the bucket at
hand or among the parameters. -/
theorem request_eq_ok (h : request s bucket g v = .ok (g', n)) :
    g' = g ∧ g.nodeId? v = some n ∨
      g.nodeId? v = none ∧ ∃ node, (g', n) = g.addNode node ∧ node.value = v ∧
        node.uses = [] ∧ node.controls = [] ∧
          node.bucket = if node.kind.isParam then interfaceBucket else bucket := by
  obtain ⟨width, -, h⟩ := Outcome.bind_eq_ok.mp h
  cases hv : g.nodeId? v with
  | some l =>
      simp only [hv] at h
      cases Outcome.pure_eq_ok.mp h
      exact .inl ⟨rfl, rfl⟩
  | none =>
      simp only [hv] at h
      obtain ⟨kind, -, h⟩ := Outcome.bind_eq_ok.mp h
      exact .inr ⟨rfl, _, (Outcome.pure_eq_ok.mp h).symm, rfl, rfl, rfl, rfl⟩

/-- What was asked for is what the value has for a node then. -/
theorem nodeId?_of_request (h : request s bucket g v = .ok (g', n)) : g'.nodeId? v = some n := by
  rcases request_eq_ok h with ⟨rfl, hv⟩ | ⟨-, node, hadd, rfl, -⟩
  · exact hv
  · obtain ⟨rfl, rfl⟩ := Prod.mk.inj hadd
    show (g.addNode node).1.nodeId? node.value = _
    rw [nodeId?_addNode, if_pos rfl]

/-- Asking for a node gains no uses: a new node has none. -/
theorem gains_request (hr : g.Registered) (h : request s bucket g v = .ok (g', n)) :
    g'.nodeId? v = some n ∧ ∀ m, Gains g g' m [] := by
  refine ⟨nodeId?_of_request h, fun m => ?_⟩
  -- the node was there, or it is new and bare
  rcases request_eq_ok h with ⟨rfl, -⟩ | ⟨hv, node, hadd, rfl, bare, -⟩
  · exact .refl hr m
  · obtain rfl := congrArg Prod.fst hadd
    exact gains_addNode hr hv bare m

/-- A link gains the node of the operand. -/
theorem gains_link (hr : g.Registered) (hv : g.nodeId? v = some n)
    (h : link s bucket n g o = .ok g') : ∃ m, g'.nodeId? o = some m ∧ Gains g g' n [m] := by
  obtain ⟨⟨mid, m⟩, hreq, h⟩ := Outcome.bind_eq_ok.mp h
  obtain rfl := Outcome.pure_eq_ok.mp h
  obtain ⟨ho, hgains⟩ := gains_request hr hreq
  refine ⟨m, ho, ?_⟩
  -- first perhaps a node, then the edge
  exact (hgains n).trans (gains_addUse (hgains n).registered ((hgains n).keeps hv) m)

/-- Links gain the nodes of the operands, in their order. -/
theorem gains_links (hr : g.Registered) (hv : g.nodeId? v = some n) {os : List ValueId}
    (h : os.foldlM (link s bucket n) g = .ok g') :
    ∃ ms, g'.Linked os ms ∧ Gains g g' n ms := by
  induction os generalizing g with
  | nil =>
      obtain rfl := Outcome.pure_eq_ok.mp h
      exact ⟨[], .nil, .refl hr n⟩
  | cons o os ih =>
      rw [List.foldlM_cons, Outcome.bind_eq_ok] at h
      obtain ⟨mid, hlink, hrest⟩ := h
      obtain ⟨m, ho, hfirst⟩ := gains_link hr hv hlink
      obtain ⟨ms, hos, hmore⟩ := ih hfirst.registered (hfirst.keeps hv) hrest
      exact ⟨m :: ms, .cons (hmore.keeps ho) hos, hfirst.trans hmore⟩

/-- For a computed address a chain is recorded. -/
theorem traceAddress_of_computed (accesses : i.opcode.isAccess = true) {address : ValueId}
    (ha : i.address? = some address) (computed : s.kernel.opcode? address = some .getElementPtr) :
    traceAddress s i g = traceChain s address g := by
  unfold traceAddress
  rcases Opcode.isAccess_iff.mp accesses with hop | hop <;> simp [hop, ha, computed]

/-- Chains are recorded for the computed addresses of loads and stores, and for nothing else. -/
theorem traceAddress_cases (s : Setting) (i : Instruction) (g : Graph) :
    traceAddress s i g = .ok g ∨ ∃ address, i.opcode.isAccess = true ∧ i.address? = some address ∧
      s.kernel.opcode? address = some .getElementPtr ∧
        traceAddress s i g = traceChain s address g := by
  by_cases accesses : i.opcode.isAccess = true
  · cases ha : i.address? with
    | none =>
        left
        unfold traceAddress
        rcases Opcode.isAccess_iff.mp accesses with hop | hop <;> simp [hop, ha, pure, Except.pure]
    | some address =>
        by_cases computed : s.kernel.opcode? address = some .getElementPtr
        · exact .inr ⟨address, accesses, rfl, computed,
            traceAddress_of_computed accesses ha computed⟩
        · left
          unfold traceAddress
          rcases Opcode.isAccess_iff.mp accesses with hop | hop <;>
            simp [hop, ha, computed, pure, Except.pure]
  · left
    cases hop : i.opcode <;> first
      | exact absurd (by rw [hop]; rfl) accesses
      | simp [traceAddress, hop, pure, Except.pure]

/-- The address of an instruction leaves no trace or a chain, with the widths of its operations. -/
theorem traceAddress_eq_ok (h : traceAddress s i g = .ok g') :
    g' = g ∨ ∃ chain widths, (∀ e ∈ widths, s.widths.width e.1 = .ok e.2) ∧
      g' = g.addChain chain widths := by
  rcases traceAddress_cases s i g with hpass | ⟨address, -, -, -, htrace⟩
  · exact .inl (Except.ok.inj (h.symm.trans hpass))
  · rw [htrace, traceChain] at h
    split at h
    · exact .inl (Outcome.pure_eq_ok.mp h).symm
    · obtain ⟨base, -, h⟩ := Outcome.bind_eq_ok.mp h
      obtain ⟨operations, -, h⟩ := Outcome.bind_eq_ok.mp h
      obtain ⟨widths, hwidths, h⟩ := Outcome.bind_eq_ok.mp h
      refine .inr ⟨_, widths, fun e he => ?_, (Outcome.pure_eq_ok.mp h).symm⟩
      obtain ⟨o, -, he⟩ := Outcome.exists_of_mem_mapM hwidths e he
      obtain ⟨bits, hbits, he⟩ := Outcome.bind_eq_ok.mp he
      obtain rfl := Outcome.pure_eq_ok.mp he
      exact hbits

/-- Chains are no uses. -/
theorem gains_traceAddress (hr : g.Registered) (h : traceAddress s i g = .ok g') (n : NodeId) :
    Gains g g' n [] := by
  obtain rfl | ⟨chain, widths, -, rfl⟩ := traceAddress_eq_ok h
  · exact .refl hr n
  · exact ⟨hr, id, (List.append_nil _).symm, fun _ => rfl⟩

/-- A control edge is no use, though its source may get a node. -/
theorem gains_applyGuard (hr : g.Registered) (h : applyGuard s bucket m g = .ok g') (n : NodeId) :
    Gains g g' n [] := by
  unfold applyGuard at h
  split at h
  · obtain rfl := Outcome.pure_eq_ok.mp h
    exact .refl hr n
  · obtain ⟨⟨mid, source⟩, hreq, h⟩ := Outcome.bind_eq_ok.mp h
    obtain rfl := Outcome.pure_eq_ok.mp h
    have hgains := (gains_request hr hreq).2 n
    exact hgains.trans (gains_addControl hgains.registered n m _)

/-- **An instruction that is added** gets use edges to the nodes of its sources, in order; no other
node gets any. -/
theorem gains_addInstruction (hr : g.Registered) (h : addInstruction s bucket v i g = .ok g') :
    ∃ n os ms, g'.nodeId? v = some n ∧ sources s.kernel v i = .ok os ∧ g'.Linked os ms ∧
      Gains g g' n ms := by
  obtain ⟨⟨g₁, n⟩, hreq, h⟩ := Outcome.bind_eq_ok.mp h
  obtain ⟨os, hos, h⟩ := Outcome.bind_eq_ok.mp h
  obtain ⟨g₂, hlinks, h⟩ := Outcome.bind_eq_ok.mp h
  obtain ⟨g₃, htrace, hguard⟩ := Outcome.bind_eq_ok.mp h
  obtain ⟨hv, hgains⟩ := gains_request hr hreq
  obtain ⟨ms, hms, hlinked⟩ := gains_links (hgains n).registered hv hlinks
  have htraced := gains_traceAddress hlinked.registered htrace n
  have hguarded := gains_applyGuard htraced.registered hguard n
  have hafter : Gains g₂ g' n [] := htraced.trans hguarded
  refine ⟨n, os, ms, hafter.keeps (hlinked.keeps hv), hos, hms.mono hafter, ?_⟩
  simpa using ((hgains n).trans hlinked).trans hafter

/-- A visit adds what is tracked and passes over the rest. -/
theorem visit_cases (hfeeds : FeedTable.ofKernel s.kernel = .ok s.feeds)
    (h : visit s bucket g v = .ok g') :
    (∃ i, s.kernel.Tracks v i ∧ addInstruction s bucket v i g = .ok g') ∨
      (∀ i, ¬ s.kernel.Tracks v i) ∧ g' = g := by
  unfold visit at h
  cases hi : s.kernel.instruction? v with
  | none =>
      simp only [hi] at h
      exact .inr ⟨fun i t => by simp [t.known] at hi, (Outcome.pure_eq_ok.mp h).symm⟩
  | some i =>
      have hiff := FeedTable.feeds_iff hfeeds (Kernel.instruction?_lt hi)
      simp only [hi] at h
      split at h
      · next hf =>
        -- it feeds an address, which leaves no node of its own
        exact .inr ⟨fun j t => t.data (hiff.mp hf), (Outcome.pure_eq_ok.mp h).symm⟩
      · next hf =>
        have data : ¬ s.kernel.FeedsAddress v := fun f => hf (hiff.mpr f)
        -- data: the opcode decides whether the instruction is added, passed over or refused
        have untracked : i.opcode.isTracked = false → ∀ j, ¬ s.kernel.Tracks v j := by
          intro hop j t
          obtain rfl : j = i := Option.some.inj (t.known.symm.trans hi)
          rw [t.opcode] at hop
          cases hop
        have pass : (pure g : Outcome Graph) = .ok g' → g' = g := fun h =>
          (Outcome.pure_eq_ok.mp h).symm
        cases hop : i.opcode <;> rw [hop] at h untracked <;>
          first
          | exact .inl ⟨i, ⟨hi, by rw [hop]; rfl, data⟩, h⟩
          | exact .inr ⟨untracked rfl, pass h⟩
          | cases h

/-! ## The sweep -/

/-- What holds of a graph when the instructions `done` have been visited: those that are tracked are
linked to their sources, and no other node has a use edge. -/
structure Swept (k : Kernel) (done : List ValueId) (g : Graph) : Prop where
  registered : g.Registered
  linked : ∀ {v i}, v ∈ done → k.Tracks v i →
    ∃ n os, g.nodeId? v = some n ∧ sources k v i = .ok os ∧ g.Linked os (g.usesOf n)
  bare : ∀ {v n}, g.nodeId? v = some n → (v ∈ done → ∀ i, ¬ k.Tracks v i) → g.usesOf n = []

namespace Swept

variable {done : List ValueId}

/-- Before the sweep nothing has been visited, and there is no node. -/
theorem start (k : Kernel) : Swept k [] (numbered k) where
  registered := registered_numbered k
  linked := nofun
  bare hn := absurd hn (by simp)

/-- Passing over a value that is not tracked changes nothing. -/
theorem pass (h : Swept s.kernel done g) (untracked : ∀ i, ¬ s.kernel.Tracks v i) :
    Swept s.kernel (done ++ [v]) g where
  registered := h.registered
  linked {w i} hw t := by
    rw [List.mem_append, List.mem_singleton] at hw
    rcases hw with hw | rfl
    · exact h.linked hw t
    · exact absurd t (untracked i)
  bare hn hw := h.bare hn fun hdone => hw (List.mem_append_left _ hdone)

/-- A node whose value has not been linked yet has no uses, whether it is there already or not. -/
theorem bare_before (h : Swept s.kernel done g) {targets : List NodeId}
    (gains : Gains g g' n targets) (hm : g'.nodeId? v = some m)
    (hv : v ∈ done → ∀ i, ¬ s.kernel.Tracks v i) : g.usesOf m = [] := by
  cases hw : g.valueAt? m with
  | none => exact usesOf_of_valueAt?_eq_none hw
  | some w =>
      -- an old node keeps its value through the growth, so its value is this one
      have hw' := gains.valueAt? h.registered hw
      rw [← gains.registered w m] at hw'
      obtain rfl : w = v := gains.registered.value_unique hw' hm
      rw [← h.registered w m] at hw
      exact h.bare hw hv

/-- Adding an instruction that has not been visited links it, and leaves the others as they were. -/
theorem add (h : Swept s.kernel done g) (fresh : v ∉ done) (t : s.kernel.Tracks v i)
    (hg : addInstruction s bucket v i g = .ok g') : Swept s.kernel (done ++ [v]) g' := by
  obtain ⟨n, os, ms, hv, hos, hms, hgains⟩ := gains_addInstruction h.registered hg
  -- before its visit the value has no node, or a bare one that some user asked for
  have before : g.usesOf n = [] :=
    h.bare_before hgains hv fun hdone => absurd hdone fresh
  have apart : ∀ {w m}, w ≠ v → g'.nodeId? w = some m → g'.usesOf m = g.usesOf m := by
    intro w m hw hm
    apply hgains.uses_other
    rintro rfl
    exact hw (hgains.registered.value_unique hm hv)
  refine ⟨hgains.registered, ?_, ?_⟩
  · intro w j hw tw
    by_cases e : w = v
    · subst e
      -- the instruction itself: all its uses are from this visit
      obtain rfl : j = i := Option.some.inj (tw.known.symm.trans t.known)
      refine ⟨n, os, hv, hos, ?_⟩
      rw [hgains.uses_self, before]
      exact hms
    · -- an instruction visited before keeps its node, and its uses with it
      have hdone : w ∈ done := by simpa [e] using hw
      obtain ⟨m, us, hm, hus, hlinked⟩ := h.linked hdone tw
      refine ⟨m, us, hgains.keeps hm, hus, ?_⟩
      rw [apart e (hgains.keeps hm)]
      exact hlinked.mono hgains
  · intro w m hm hw
    have e : w ≠ v := by
      rintro rfl
      exact hw (List.mem_append_right _ (List.mem_singleton_self _)) i t
    rw [apart e hm]
    exact h.bare_before hgains hm fun hdone => hw (List.mem_append_left _ hdone)

/-- **One visit.** -/
theorem visit (h : Swept s.kernel done g) (hfeeds : FeedTable.ofKernel s.kernel = .ok s.feeds)
    (fresh : v ∉ done) (hg : Graph.visit s bucket g v = .ok g') :
    Swept s.kernel (done ++ [v]) g' := by
  rcases visit_cases hfeeds hg with ⟨i, t, hadd⟩ | ⟨untracked, rfl⟩
  · exact h.add fresh t hadd
  · exact h.pass untracked

/-- No instruction stands twice in the text, so each is new when its turn comes. -/
theorem visits (h : Swept s.kernel done g) (hfeeds : FeedTable.ofKernel s.kernel = .ok s.feeds)
    {l : List ValueId} (fresh : (done ++ l).Nodup)
    (hg : l.foldlM (Graph.visit s bucket) g = .ok g') : Swept s.kernel (done ++ l) g' := by
  induction l generalizing done g with
  | nil =>
      obtain rfl := Outcome.pure_eq_ok.mp hg
      rwa [List.append_nil]
  | cons v l ih =>
      rw [List.foldlM_cons, Outcome.bind_eq_ok] at hg
      obtain ⟨mid, hv, hl⟩ := hg
      have hnew : v ∉ done := fun hdone =>
        (List.nodup_append.mp fresh).2.2 v hdone v List.mem_cons_self rfl
      rw [List.append_cons] at fresh ⊢
      exact ih (h.visit hfeeds hnew hv) fresh hl

theorem visitBlocks (h : Swept s.kernel done g) (hfeeds : FeedTable.ofKernel s.kernel = .ok s.feeds)
    {entries : List (Block × Nat)}
    (fresh : (done ++ entries.flatMap (·.1.instructions)).Nodup)
    (hg : entries.foldlM (visitBlock s) g = .ok g') :
    Swept s.kernel (done ++ entries.flatMap (·.1.instructions)) g' := by
  induction entries generalizing done g with
  | nil =>
      obtain rfl := Outcome.pure_eq_ok.mp hg
      rwa [List.flatMap_nil, List.append_nil]
  | cons entry rest ih =>
      rw [List.foldlM_cons, Outcome.bind_eq_ok] at hg
      obtain ⟨mid, hblock, hrest⟩ := hg
      rw [List.flatMap_cons, ← List.append_assoc] at fresh ⊢
      exact ih (h.visits hfeeds (List.nodup_append.mp fresh).1 hblock) fresh hrest

end Swept

/-- **The finished graph is swept for every instruction of its kernel.** -/
theorem swept_of_ofKernel {k : Kernel} {widths : Widths} (wf : k.WellFormed)
    (h : ofKernel k widths = .ok g) : Swept k k.instructions g := by
  obtain ⟨guards, -, h⟩ := Outcome.bind_eq_ok.mp h
  obtain ⟨feeds, hfeeds, h⟩ := Outcome.bind_eq_ok.mp h
  -- the sweep goes through the text of the kernel
  have htext : (k.blocks.toList.zipIdx 1).flatMap (·.1.instructions) = k.instructions := by
    show _ = k.blocks.toList.flatMap _
    rw [← List.flatMap_map Prod.fst, List.zipIdx_map_fst]
  have hsweep := Swept.visitBlocks (s := ⟨k, widths, guards, feeds⟩) (.start k) hfeeds
    (by simpa [htext] using wf.nodup_instructions) h
  simpa [htext] using hsweep

end Graph

end Datapath
