import Datapath.Proofs.Address.Tracing
import Datapath.Proofs.Graph.Indices
import Datapath.Proofs.Graph.Refusals

/-!
# The chains of a graph

The sweep records a chain when it adds a load or a store that goes to a computed address, unless the
chain of that address is recorded already. `Graph.Charted` says what this comes to when some of the
instructions have been visited, and `Kernel.chains_exact` what it comes to in the finished graph:
each computed address below a load or a store has one chain, and nothing else has one.

What a chain says is in terms of the kernel (`Chain.Describes`). Its base is found on a way of its
own, by `Kernel.basePointer`; the use edges of a load or a store lead to the bases that
`Kernel.bases` lists. The two agree because the way to the base pointer is one of the ways to a root
(`Kernel.rootedIn_of_traces`).
-/

namespace Datapath

theorem Table.find?_insertAll_isSome {α β : Type} [DecidableEq α] {t : Table α β}
    {pairs : List (α × β)} {a : α} :
    ((t.insertAll pairs).find? a).isSome ↔ a ∈ pairs.map Prod.fst ∨ (t.find? a).isSome := by
  induction pairs generalizing t with
  | nil => simp [insertAll]
  | cons p pairs ih =>
      rw [insertAll, List.foldl_cons]
      refine ih.trans ?_
      rw [find?_insert, List.map_cons, List.mem_cons]
      -- the key of this pair is there; for another key the pair makes no difference
      by_cases hp : p.1 = a
      · simp [hp]
      · have hp' : a ≠ p.1 := fun e => hp e.symm
        simp [hp, hp']

namespace Kernel

variable {k : Kernel} {v a b : ValueId}

/-- A load or a store goes to one address. -/
theorem GoesTo.unique (h : k.GoesTo v a) (h' : k.GoesTo v b) : a = b := by
  obtain ⟨i, hi, -, ha, -⟩ := h
  obtain ⟨j, hj, -, hb, -⟩ := h'
  obtain rfl := Option.some.inj (hi.symm.trans hj)
  exact Option.some.inj (ha.symm.trans hb)

end Kernel

/-- A chain says of its address what the kernel says: where it starts, and the arithmetic of its
indices, one index after the other. -/
structure Chain.Describes (k : Kernel) (chain : Chain) : Prop where
  base : k.basePointer chain.address = .ok chain.base
  operations : ∀ {i}, k.instruction? chain.address = some i → ∃ parts,
    List.Forall₂ (fun x os => k.operations x = .ok os) i.indices parts ∧
      chain.operations = parts.flatten

namespace Graph

variable {s : Setting} {bucket : Nat} {g g' : Graph} {v a : ValueId} {n m : NodeId}
  {i : Instruction} {chain : Chain} {widths : List (ValueId × Nat)}

def addresses (g : Graph) : List ValueId := g.chains.map (·.address)

theorem chain?_isSome_iff : (g.chain? a).isSome ↔ a ∈ g.addresses := by
  simp [chain?, addresses, List.find?_isSome]

/-- If no address has two chains, a chain is found by its address. -/
theorem chain?_eq_some (nodup : g.addresses.Nodup) (h : chain ∈ g.chains) :
    g.chain? chain.address = some chain := by
  obtain ⟨found, hfound⟩ := Option.isSome_iff_exists.mp
    (chain?_isSome_iff.mpr (List.mem_map_of_mem h))
  have haddress : found.address = chain.address := by simpa using List.find?_some hfound
  rw [hfound, List.inj_on_of_nodup_map nodup (List.mem_of_find?_eq_some hfound) h haddress]

@[simp] theorem addresses_addChain :
    (g.addChain chain widths).addresses = g.addresses ++ [chain.address] := by
  simp [addresses, addChain]

/-! ## Steps that record no chain -/

structure SameChains (g g' : Graph) : Prop where
  chains : g'.chains = g.chains
  widths : g'.chainWidths = g.chainWidths

namespace SameChains

variable {g'' : Graph}

theorem refl (g : Graph) : SameChains g g := ⟨rfl, rfl⟩

theorem trans (h : SameChains g g') (h' : SameChains g' g'') : SameChains g g'' :=
  ⟨h'.chains.trans h.chains, h'.widths.trans h.widths⟩

theorem addresses (h : SameChains g g') : g'.addresses = g.addresses := by
  rw [Graph.addresses, h.chains, Graph.addresses]

end SameChains

/-- A node is made beside the chains. -/
theorem sameChains_request (h : request s bucket g v = .ok (g', n)) : SameChains g g' := by
  rcases request_eq_ok h with ⟨rfl, -⟩ | ⟨-, node, hadd, -⟩
  · exact .refl g'
  · obtain rfl := congrArg Prod.fst hadd
    exact ⟨rfl, rfl⟩

theorem sameChains_links {os : List ValueId} (h : os.foldlM (link s bucket n) g = .ok g') :
    SameChains g g' := by
  refine Outcome.foldlM_induction (motive := SameChains g) (fun mid o g' hmid hlink => ?_)
    (.refl g) h
  obtain ⟨⟨requested, m⟩, hreq, hlink⟩ := Outcome.bind_eq_ok.mp hlink
  obtain rfl := Outcome.pure_eq_ok.mp hlink
  exact hmid.trans ((sameChains_request hreq).trans ⟨rfl, rfl⟩)

/-- A control edge is entered beside the chains. -/
theorem sameChains_applyGuard (h : applyGuard s bucket n g = .ok g') : SameChains g g' := by
  unfold applyGuard at h
  split at h
  · obtain rfl := Outcome.pure_eq_ok.mp h
    exact .refl g
  · obtain ⟨⟨mid, source⟩, hreq, h⟩ := Outcome.bind_eq_ok.mp h
    obtain rfl := Outcome.pure_eq_ok.mp h
    exact (sameChains_request hreq).trans ⟨rfl, rfl⟩

/-- Of what is done to add an instruction, only the tracing of its address touches chains. -/
theorem exists_trace_of_addInstruction (h : addInstruction s bucket v i g = .ok g') :
    ∃ before after, SameChains g before ∧ traceAddress s i before = .ok after ∧
      SameChains after g' := by
  obtain ⟨⟨requested, n⟩, hreq, h⟩ := Outcome.bind_eq_ok.mp h
  obtain ⟨os, -, h⟩ := Outcome.bind_eq_ok.mp h
  obtain ⟨linked, hlinks, h⟩ := Outcome.bind_eq_ok.mp h
  obtain ⟨traced, htrace, hguard⟩ := Outcome.bind_eq_ok.mp h
  exact ⟨linked, traced, (sameChains_request hreq).trans (sameChains_links hlinks), htrace,
    sameChains_applyGuard hguard⟩

/-! ## Recording a chain -/

/-- A chain is recorded already, or one that describes the address is added, with a width for each
of its operations. -/
theorem traceChain_eq_ok (h : traceChain s a g = .ok g') :
    a ∈ g.addresses ∧ g' = g ∨
      a ∉ g.addresses ∧ ∃ chain widths, chain.address = a ∧ chain.Describes s.kernel ∧
        widths.map Prod.fst = chain.operations ∧ g' = g.addChain chain widths := by
  unfold traceChain at h
  split at h
  · next hchain => exact .inl ⟨chain?_isSome_iff.mp hchain, (Outcome.pure_eq_ok.mp h).symm⟩
  · next hchain =>
    obtain ⟨base, hbase, h⟩ := Outcome.bind_eq_ok.mp h
    obtain ⟨parts, hparts, h⟩ := Outcome.bind_eq_ok.mp h
    obtain ⟨widths, hwidths, h⟩ := Outcome.bind_eq_ok.mp h
    refine .inr ⟨fun ha => hchain (chain?_isSome_iff.mpr ha), ⟨a, base, parts.flatten⟩, widths,
      rfl, ⟨hbase, fun {i} hi => ⟨parts, ?_, rfl⟩⟩, ?_, (Outcome.pure_eq_ok.mp h).symm⟩
    · simpa [hi] using Outcome.forall₂_of_mapM hparts
    · -- each operation is paired with its width
      have hkeys : List.Forall₂ (fun pair o => pair.1 = o) widths parts.flatten := by
        refine (Outcome.forall₂_of_mapM hwidths).flip.imp fun pair o hpair => ?_
        obtain ⟨bits, -, hpair⟩ := Outcome.bind_eq_ok.mp hpair
        obtain rfl := Outcome.pure_eq_ok.mp hpair
        rfl
      exact List.forall₂_eq_eq_eq ▸ List.forall₂_map_left_iff.mpr hkeys

/-! ## The sweep -/

/-- What holds of a graph when the instructions `done` have been visited: the computed addresses
that they go to have chains, one each, and nothing else has one; chains are right, and their
operations have widths. -/
structure Charted (k : Kernel) (done : List ValueId) (g : Graph) : Prop where
  mem_addresses : ∀ a, a ∈ g.addresses ↔ ∃ v ∈ done, k.GoesTo v a
  nodup : g.addresses.Nodup
  described : ∀ c ∈ g.chains, c.Describes k
  measured : ∀ c ∈ g.chains, ∀ o ∈ c.operations, (g.chainWidths.find? o).isSome

namespace Charted

variable {k : Kernel} {done : List ValueId}

/-- Before the sweep there is no chain. -/
theorem start (k : Kernel) : Charted k [] (numbered k) where
  mem_addresses a := by simp [addresses]
  nodup := by simp [addresses]
  described c hc := absurd hc (by simp)
  measured c hc := absurd hc (by simp)

theorem congr (h : Charted k done g) (same : SameChains g g') : Charted k done g' where
  mem_addresses := same.addresses ▸ h.mem_addresses
  nodup := same.addresses ▸ h.nodup
  described := same.chains ▸ h.described
  measured := by
    rw [same.chains, same.widths]
    exact h.measured

/-- An instruction that goes to no computed address adds none. -/
theorem pass (h : Charted k done g) (goes : ∀ a, ¬ k.GoesTo v a) : Charted k (done ++ [v]) g where
  mem_addresses a := by
    rw [h.mem_addresses]
    constructor
    · rintro ⟨w, hw, hgoes⟩
      exact ⟨w, List.mem_append_left _ hw, hgoes⟩
    · rintro ⟨w, hw, hgoes⟩
      rcases List.mem_append.mp hw with hw | hw
      · exact ⟨w, hw, hgoes⟩
      · obtain rfl := List.mem_singleton.mp hw
        exact absurd hgoes (goes a)
  nodup := h.nodup
  described := h.described
  measured := h.measured

/-- An instruction that goes to a computed address adds that one. -/
theorem mem_visited (h : Charted k done g) (goes : k.GoesTo v a) (b : ValueId) :
    (∃ w ∈ done ++ [v], k.GoesTo w b) ↔ b ∈ g.addresses ∨ b = a := by
  rw [h.mem_addresses]
  constructor
  · rintro ⟨w, hw, hgoes⟩
    rcases List.mem_append.mp hw with hw | hw
    · exact .inl ⟨w, hw, hgoes⟩
    · obtain rfl := List.mem_singleton.mp hw
      exact .inr (hgoes.unique goes)
  · rintro (⟨w, hw, hgoes⟩ | rfl)
    · exact ⟨w, List.mem_append_left _ hw, hgoes⟩
    · exact ⟨v, List.mem_append_right _ (List.mem_singleton_self v), goes⟩

/-- **One chain is recorded**, or it has been. -/
theorem record (h : Charted s.kernel done g) (goes : s.kernel.GoesTo v a)
    (hg : traceChain s a g = .ok g') : Charted s.kernel (done ++ [v]) g' := by
  rcases traceChain_eq_ok hg with ⟨ha, rfl⟩ | ⟨ha, chain, widths, rfl, describes, hkeys, rfl⟩
  · -- the address has its chain already, and no other gets one
    refine ⟨fun b => ?_, h.nodup, h.described, h.measured⟩
    rw [h.mem_visited goes]
    exact ⟨.inl, fun hb => hb.elim id fun e => e ▸ ha⟩
  · -- a new chain: its address had none before
    refine ⟨fun b => ?_, ?_, fun c hc => ?_, fun c hc o ho => ?_⟩
    · rw [h.mem_visited goes, addresses_addChain, List.mem_append, List.mem_singleton]
    · rw [addresses_addChain, List.nodup_append]
      exact ⟨h.nodup, List.nodup_singleton _, fun b hb c hc e =>
        ha (List.mem_singleton.mp hc ▸ e ▸ hb)⟩
    · rcases List.mem_append.mp hc with hc | hc
      · exact h.described c hc
      · obtain rfl := List.mem_singleton.mp hc
        exact describes
    · refine Table.find?_insertAll_isSome.mpr ?_
      rcases List.mem_append.mp hc with hc | hc
      · exact .inr (h.measured c hc o ho)
      · obtain rfl := List.mem_singleton.mp hc
        exact .inl (hkeys ▸ ho)

/-- **One visit.** -/
theorem visit (h : Charted s.kernel done g) (hfeeds : FeedTable.ofKernel s.kernel = .ok s.feeds)
    (hg : Graph.visit s bucket g v = .ok g') : Charted s.kernel (done ++ [v]) g' := by
  rcases visit_cases hfeeds hg with ⟨i, t, hadd⟩ | ⟨untracked, rfl⟩
  · obtain ⟨before, after, hbefore, htrace, hafter⟩ := exists_trace_of_addInstruction hadd
    refine congr ?_ hafter
    have hcharted := h.congr hbefore
    by_cases goes : ∃ a, s.kernel.GoesTo v a
    · obtain ⟨a, goes⟩ := goes
      -- a load or store of a computed address records its chain
      obtain ⟨j, hj, accesses, ha, computed⟩ := id goes
      obtain rfl := Option.some.inj (t.known.symm.trans hj)
      rw [traceAddress_of_computed accesses ha computed] at htrace
      exact hcharted.record goes htrace
    · rcases traceAddress_cases s i before with hpass | ⟨a, accesses, ha, computed, -⟩
      · obtain rfl := Except.ok.inj (hpass.symm.trans htrace)
        exact hcharted.pass fun a hgoes => goes ⟨a, hgoes⟩
      · exact absurd ⟨a, i, t.known, accesses, ha, computed⟩ goes
  · -- a load or a store is tracked, so what is passed over is none
    refine h.pass fun a => ?_
    rintro ⟨i, hi, accesses, -⟩
    exact untracked i (.of_isAccess hi accesses)

end Charted

/-- **The finished graph is charted for every instruction of its kernel.** -/
theorem charted_of_ofKernel {k : Kernel} {widths : Widths} (h : ofKernel k widths = .ok g) :
    Charted k k.instructions g := by
  obtain ⟨guards, -, h⟩ := Outcome.bind_eq_ok.mp h
  obtain ⟨feeds, hfeeds, h⟩ := Outcome.bind_eq_ok.mp h
  rw [foldlM_visitBlock ⟨k, widths, guards, feeds⟩] at h
  rw [← k.map_fst_schedule]
  refine Outcome.foldlM_prefix_induction
    (motive := fun done g => Charted k (done.map Prod.fst) g) ?_ (.start k) h
  rintro done ⟨v, b⟩ rest g g' - charted hvisit
  rw [List.map_append]
  exact charted.visit (s := ⟨k, widths, guards, feeds⟩) hfeeds hvisit

/-- The operations of chains have widths in the graph, and these are the recorded ones. -/
theorem Charted.exists_width {k : Kernel} {widths : Widths} {done : List ValueId}
    (charted : Charted k done g) (h : ofKernel k widths = .ok g) (hc : chain ∈ g.chains)
    {o : ValueId} (ho : o ∈ chain.operations) :
    ∃ bits, widths.width? o = some bits ∧ g.width o = .ok bits := by
  obtain ⟨bits, hbits⟩ := Option.isSome_iff_exists.mp (charted.measured chain hc o ho)
  obtain ⟨w, hw⟩ : ∃ w, g.width o = .ok w := by
    unfold width
    cases g.node? o with
    | some node => exact ⟨node.width, rfl⟩
    | none => exact ⟨bits, by simp [hbits]⟩
  exact ⟨w, width?_of_width h hw, hw⟩

/-- A load or a store has an edge to whatever its address is rooted in. -/
theorem Swept.exists_uses_of_rootedIn {k : Kernel} (h : Swept k k.instructions g)
    (wf : k.WellFormed) {b : ValueId} (goes : k.GoesTo v a) (rooted : k.RootedIn a b) :
    ∃ n m, g.nodeId? v = some n ∧ g.nodeId? b = some m ∧ g.Uses n m := by
  obtain ⟨i, hi, accesses, ha, -⟩ := goes
  have t := Kernel.Tracks.of_isAccess hi accesses
  obtain ⟨n, os, hn, hos, -⟩ := h.linked (wf.mem_instructions.mpr ⟨i, hi⟩) t
  obtain ⟨a', ha', hmem⟩ := Kernel.mem_sources_of_isAccess accesses hos
  obtain rfl := Option.some.inj (ha.symm.trans ha')
  have takes : k.TakesFrom v b := ⟨i, os, t, hos, (hmem b).mpr (.inl rooted)⟩
  obtain ⟨m, hm⟩ := h.exists_node_of_takesFrom wf takes
  exact ⟨n, m, hn, hm, (h.uses_iff_takesFrom wf hn).mpr ⟨b, takes, hm⟩⟩

end Graph

/-! ## The chains of a finished graph -/

namespace Kernel

/-- **The chains of a graph.** A computed address has a chain if some load or store goes to it, and
no more than one. The chain is found by the address; it starts from the base pointer of the address,
a pointer argument or a global, and its operations are those of the indices, one index after the
other, with the widths that were recorded for them. Every load and store that goes to the address
takes data from the node of the base. -/
theorem chains_exact {name : String} {script : List Step} {k : Kernel}
    (built : Kernel.ofScript? name script = some k) {widths : Widths} {g : Graph}
    (h : Graph.ofKernel k widths = .ok g) :
    (∀ a, (∃ c ∈ g.chains, c.address = a) ↔ ∃ v, k.GoesTo v a) ∧
    (g.chains.map (·.address)).Nodup ∧
    ∀ c ∈ g.chains,
      g.chain? c.address = some c ∧
      (k.basePointer c.address = .ok c.base ∧
        ∃ x, k.value? c.base = some x ∧ x.isBase = true ∧ x.type.isPointer = true) ∧
      (∃ i parts, k.instruction? c.address = some i ∧ i.opcode = .getElementPtr ∧
        List.Forall₂ (fun x os => k.operations x = .ok os) i.indices parts ∧
        c.operations = parts.flatten) ∧
      (∀ o ∈ c.operations, ∃ bits, widths.width? o = some bits ∧ g.width o = .ok bits) ∧
      ∀ v, k.GoesTo v c.address →
        ∃ n m, g.nodeId? v = some n ∧ g.nodeId? c.base = some m ∧ g.Uses n m := by
  have wf := (ofScript?_consistent built).toWellFormed
  have swept := Graph.swept_of_ofKernel wf h
  have charted := Graph.charted_of_ofKernel h
  have goes_iff (a : ValueId) : (∃ c ∈ g.chains, c.address = a) ↔ ∃ v, k.GoesTo v a := by
    rw [← List.mem_map]
    refine (charted.mem_addresses a).trans ⟨fun ⟨v, _, goes⟩ => ⟨v, goes⟩, ?_⟩
    -- every instruction that goes to an address has been visited
    rintro ⟨v, i, hi, goes⟩
    exact ⟨v, wf.mem_instructions.mpr ⟨i, hi⟩, i, hi, goes⟩
  refine ⟨goes_iff, charted.nodup, fun c hc => ?_⟩
  have describes := charted.described c hc
  obtain ⟨x, hx, base, pointer⟩ :=
    isPointer_of_findBasePointer (basePointer_eq_ok.mp describes.base)
  refine ⟨Graph.chain?_eq_some charted.nodup hc, ⟨describes.base, x, hx, base, pointer⟩, ?_,
    fun o ho => charted.exists_width h hc ho, fun v goes => ?_⟩
  · -- some access goes to the address, so it is a computed one
    obtain ⟨v, -, -, -, -, computed⟩ := (goes_iff c.address).mp ⟨c, hc, rfl⟩
    obtain ⟨i, hi, opcode⟩ := Option.map_eq_some_iff.mp computed
    obtain ⟨parts, hparts, hflat⟩ := describes.operations hi
    exact ⟨i, parts, hi, opcode, hparts, hflat⟩
  · exact swept.exists_uses_of_rootedIn wf goes
      (rootedIn_of_traces (traces_of_basePointer describes.base).1 hx base)

/-- A cell is read and written back through the address of its row, at the index after the row's. -/
def gridScript : List Step :=
  [.param "p" (.pointer (.int 8)), .param "i" (.int 8), .block "entry", .moveTo ⟨0⟩,
    .binary .add ⟨1⟩ ⟨1⟩ "next", .elementPointer ⟨0⟩ [⟨1⟩] "row", .elementPointer ⟨3⟩ [⟨2⟩] "cell",
    .load ⟨4⟩ "x", .store ⟨5⟩ ⟨4⟩, .ret none]

def grid : Kernel := (Kernel.ofScript? "grid" gridScript).getD (.empty "grid")

/-- The address of the cell has one chain for both accesses, and that of the row has none. The chain
goes on to the argument behind the row, but has the arithmetic of the last index only. -/
theorem chains_exact_grid :
    Kernel.ofScript? "grid" gridScript = some grid ∧
      ∃ g c, Graph.ofKernel grid (grid.uniform 8) = .ok g ∧ g.chains = [c] ∧
        c.address = ⟨4⟩ ∧ c.base = ⟨0⟩ ∧ c.operations = [⟨2⟩] ∧
        g.width ⟨2⟩ = .ok 8 ∧ g.nodeId? ⟨2⟩ = none ∧
        grid.GoesTo ⟨5⟩ ⟨4⟩ ∧ grid.GoesTo ⟨6⟩ ⟨4⟩ ∧
        (∀ v, grid.GoesTo v ⟨4⟩ →
          ∃ n m, g.nodeId? v = some n ∧ g.nodeId? ⟨0⟩ = some m ∧ g.Uses n m) ∧
        ∀ v, ¬ grid.GoesTo v ⟨3⟩ := by
  have built : Kernel.ofScript? "grid" gridScript = some grid := rfl
  have hload : grid.instruction? ⟨5⟩ = some ⟨.load, [⟨4⟩], none, []⟩ := by decide +kernel
  have hstore : grid.instruction? ⟨6⟩ = some ⟨.store, [⟨5⟩, ⟨4⟩], none, []⟩ := by decide +kernel
  have haddress : grid.opcode? ⟨4⟩ = some .getElementPtr := by decide +kernel
  have hshape : (Graph.ofKernel grid (grid.uniform 8)).toOption.map (fun g =>
      (g.chains.map fun c => (c.address, c.base, c.operations), (g.width ⟨2⟩).toOption,
        g.nodeId? ⟨2⟩)) = some ([(⟨4⟩, ⟨0⟩, [⟨2⟩])], some 8, none) := by decide +kernel
  obtain ⟨g, made, hshape⟩ := Outcome.exists_of_toOption_map hshape
  simp only [Prod.mk.injEq] at hshape
  obtain ⟨hchains, hwidth, hnode⟩ := hshape
  obtain ⟨⟨address, base, operations⟩, hchain, hfields⟩ := List.map_eq_singleton_iff.mp hchains
  simp only [Prod.mk.injEq] at hfields
  obtain ⟨rfl, rfl, rfl⟩ := hfields
  obtain ⟨goes_iff, -, exact⟩ := chains_exact built made
  obtain ⟨-, -, -, -, uses⟩ := exact ⟨⟨4⟩, ⟨0⟩, [⟨2⟩]⟩ (by simp [hchain])
  refine ⟨built, g, ⟨⟨4⟩, ⟨0⟩, [⟨2⟩]⟩, made, hchain, rfl, rfl, rfl,
    Outcome.toOption_eq_some.mp hwidth, hnode, ?_, ?_, uses, fun v goes => ?_⟩
  · exact ⟨_, hload, rfl, rfl, haddress⟩
  · exact ⟨_, hstore, rfl, rfl, haddress⟩
  · obtain ⟨c, hc, hrow⟩ := (goes_iff ⟨3⟩).mpr ⟨v, goes⟩
    rw [hchain, List.mem_singleton] at hc
    simp [hc] at hrow

end Kernel

end Datapath
