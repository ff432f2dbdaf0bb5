import Datapath.Proofs.Graph.Placement

/-!
# The indices of a graph

A graph has several ways to its nodes: the list of nodes, the registry, the buckets, the numbering
of blocks, the widths of chains. `indices_agree` says that they agree with each other and with the
kernel. In particular the buckets, read in ascending order, are the nodes in order of creation, but
for the parameters, which all are in the interface bucket.

It takes no more than that the graph was made, from whatever kernel and widths.
-/

namespace Datapath

/-! ## Edges, chains and blocks -/

/-- The nodes that a node's edges come from: first those it uses, then the conditions. -/
def Node.targets (node : Node) : List NodeId := node.uses ++ node.controls.map (·.source)

namespace Graph

variable {s : Setting} {bucket : Nat} {g g' : Graph} {v : ValueId} {n m : NodeId} {node : Node}
  {k : Kernel} {widths : Widths}

def Closed (g : Graph) : Prop := ∀ (n : NodeId) (node : Node), g.nodes[n.index]? = some node →
  ∀ m ∈ node.targets, m.index < g.nodes.size

theorem closed_numbered (k : Kernel) : (numbered k).Closed :=
  fun n node hn => absurd hn (by simp)

theorem closed_addNode (h : g.Closed) (bare : node.targets = []) : (g.addNode node).1.Closed := by
  intro n x hx m hm
  have hsize : (g.addNode node).1.nodes.size = g.nodes.size + 1 := Array.size_push ..
  rw [getElem?_addNode] at hx
  split at hx
  · obtain rfl := Option.some.inj hx
    simp [bare] at hm
  · have := h n x hx m hm
    omega

/-- An edge is added to one node. -/
theorem closed_modify (h : g.Closed) {f : Node → Node} (hm : m.index < g.nodes.size)
    (adds : ∀ node, ∀ l ∈ (f node).targets, l ∈ node.targets ∨ l = m) :
    Closed { g with nodes := g.nodes.modify n.index f } := by
  intro l x hx o ho
  show o.index < (g.nodes.modify n.index f).size
  rw [Array.size_modify]
  rw [getElem?_modify_node] at hx
  obtain ⟨old, hold, rfl⟩ := Option.map_eq_some_iff.mp hx
  split at ho
  · -- the node that the edge is added to
    rcases adds old o ho with ho | rfl
    · exact h l old hold o ho
    · exact hm
  · exact h l old hold o ho

theorem Registered.lt_size (h : g.Registered) (hv : g.nodeId? v = some n) :
    n.index < g.nodes.size :=
  lt_size_of_valueAt? ((h v n).mp hv)

/-- Both go together: an edge leads to a node that the registry gave, and that node is there. -/
theorem kept_closed (s : Setting) (bucket : Nat) :
    Kept s bucket fun g => g.Registered ∧ g.Closed where
  request := by
    rintro g v g' n ⟨hr, hg⟩ h
    refine ⟨((gains_request hr h).2 n).registered, ?_⟩
    rcases request_eq_ok h with ⟨rfl, -⟩ | ⟨-, node, hadd, -, uses, controls, -⟩
    · exact hg
    · obtain rfl := congrArg Prod.fst hadd
      exact closed_addNode hg (by simp [Node.targets, uses, controls])
  use := by
    rintro g v m n ⟨hr, hg⟩ hm
    refine ⟨registered_addUse hr n m, closed_modify hg (hr.lt_size hm) fun node l hl => ?_⟩
    simpa [Node.targets, or_assoc, or_comm, or_left_comm] using hl
  trace := by
    rintro i g g' ⟨hr, hg⟩ h
    obtain rfl | ⟨chain, widths, -, rfl⟩ := traceAddress_eq_ok h
    · exact ⟨hr, hg⟩
    · exact ⟨hr, hg⟩
  control := by
    rintro g v edge n ⟨hr, hg⟩ hm
    refine ⟨registered_addControl hr n edge, closed_modify hg (hr.lt_size hm) fun node l hl => ?_⟩
    simpa [Node.targets, or_assoc, or_comm, or_left_comm] using hl

/-- **The registry and the nodes agree, and no edge dangles.** -/
theorem closed_of_ofKernel (h : ofKernel k widths = .ok g) : g.Registered ∧ g.Closed :=
  ofKernel_induction (fun _ _ bucket => kept_closed _ bucket)
    ⟨registered_numbered k, closed_numbered k⟩ h

/-- The widths of a chain's operations are those that were recorded. -/
def Measured (widths : Widths) (g : Graph) : Prop :=
  ∀ v bits, g.chainWidths.find? v = some bits → widths.width? v = some bits

theorem find?_insertAll_cases {t : Table ValueId Nat} {pairs : List (ValueId × Nat)} {bits : Nat}
    (h : (t.insertAll pairs).find? v = some bits) :
    (v, bits) ∈ pairs ∨ t.find? v = some bits := by
  induction pairs generalizing t with
  | nil => exact .inr h
  | cons p pairs ih =>
      rcases ih h with hmem | hfind
      · exact .inl (List.mem_cons_of_mem p hmem)
      · rw [Table.find?_insert] at hfind
        split at hfind
        · next hp =>
          -- the pair itself, unless a later one has replaced it
          obtain rfl := Option.some.inj hfind
          exact .inl (hp ▸ List.mem_cons_self)
        · exact .inr hfind

/-- Widths of operations are entered with chains only. -/
theorem kept_measured (s : Setting) (bucket : Nat) : Kept s bucket (Measured s.widths) where
  request hg h := by
    rcases request_eq_ok h with ⟨rfl, -⟩ | ⟨-, node, hadd, -⟩
    · exact hg
    · obtain rfl := congrArg Prod.fst hadd
      exact hg
  use _ hg _ := hg
  trace hg h := by
    obtain rfl | ⟨chain, widths, hwidths, rfl⟩ := traceAddress_eq_ok h
    · exact hg
    · intro v bits hv
      rcases find?_insertAll_cases hv with hmem | hfind
      · exact Widths.width_eq_ok.mp (hwidths (v, bits) hmem)
      · exact hg v bits hfind
  control _ hg _ := hg

/-- **A width that a graph tells was recorded for the value.** -/
theorem width?_of_width (h : ofKernel k widths = .ok g) {bits : Nat} (hv : g.width v = .ok bits) :
    widths.width? v = some bits := by
  have start : (numbered k).Measured widths := fun v bits hfind => absurd hfind (by simp)
  have measured : g.Measured widths :=
    ofKernel_induction (fun guards feeds bucket => kept_measured ⟨k, widths, guards, feeds⟩ bucket)
      start h
  unfold width at hv
  cases hnode : g.node? v with
  | some node =>
      simp only [hnode, Option.map_some, Option.orElse_eq_orElse, Option.orElse_eq_or,
        Option.some_or] at hv
      obtain rfl := Except.ok.inj hv
      -- a node tells its width, which is that of its value
      obtain ⟨n, hn, hget⟩ := Option.bind_eq_some_iff.mp hnode
      have hvalue := ((closed_of_ofKernel h).1 v n).mp hn
      rw [valueAt?, hget] at hvalue
      obtain rfl := Option.some.inj hvalue
      exact Widths.width_eq_ok.mp (described_of_ofKernel h n node hget).width
  | none =>
      cases hchain : g.chainWidths.find? v with
      | some w =>
          simp only [hnode, hchain] at hv
          obtain rfl := Except.ok.inj hv
          -- without a node, the width is that of an operation of a chain
          exact measured v w hchain
      | none => simp [hnode, hchain] at hv

/-- No step of construction touches the numbers of blocks. -/
theorem kept_numbers (s : Setting) (bucket count : Nat) :
    Kept s bucket fun g => g.Numbers count where
  request hg hreq := by
    rcases request_eq_ok hreq with ⟨rfl, -⟩ | ⟨-, node, hadd, -⟩
    · exact hg
    · obtain rfl := congrArg Prod.fst hadd
      exact hg.congr rfl rfl
  use _ hg _ := hg.congr rfl rfl
  trace hg htrace := by
    obtain rfl | ⟨chain, widths, -, rfl⟩ := traceAddress_eq_ok htrace
    · exact hg
    · exact hg.congr rfl rfl
  control _ hg _ := hg.congr rfl rfl

/-- The finished graph has the numbers that blocks got at the start. -/
theorem numbers_of_ofKernel (h : ofKernel k widths = .ok g) : g.Numbers k.blocks.size :=
  ofKernel_induction (fun _ _ bucket => kept_numbers _ bucket _) (numbers_numbered k) h

end Graph

/-! ## The indices of a graph -/

def Kernel.isArgument (k : Kernel) (v : ValueId) : Bool := (k.value? v).any (·.isArgument)

/-- Parameters have the nodes of parameters. -/
theorem NodeKind.isParam_of_ofValue {k : Kernel} {v : ValueId} {kind : NodeKind}
    (h : NodeKind.ofValue k v = .ok kind) : kind.isParam = k.isArgument v := by
  obtain ⟨x, hx, h⟩ := Outcome.bind_eq_ok.mp h
  rw [Kernel.isArgument, Kernel.value_eq_ok.mp hx, Option.any_some, Value.isArgument]
  split at h
  · next hk =>
    rw [hk]
    split at h
    · obtain ⟨access, -, h⟩ := Outcome.bind_eq_ok.mp h
      obtain rfl := Outcome.pure_eq_ok.mp h
      unfold ofAccess
      split
      · split <;> rfl
      · rfl
    · obtain rfl := Outcome.pure_eq_ok.mp h
      rfl
  · next hk =>
    rw [hk]
    split at h <;>
    · obtain rfl := Outcome.pure_eq_ok.mp h
      rfl
  · next hargument _ =>
    -- constants and globals
    obtain rfl := Outcome.pure_eq_ok.mp h
    split
    · next position hk => exact absurd hk (hargument position)
    · rfl

namespace Graph

variable {g : Graph} {k : Kernel} {widths : Widths} {node : Node}

/-- A node is described right without its edges, too. -/
theorem describes_of_mem_roster (h : ofKernel k widths = .ok g) (hn : node ∈ g.roster) :
    node.Describes k widths := by
  obtain ⟨x, hx, rfl⟩ := List.mem_map.mp hn
  obtain ⟨n, hget⟩ := Array.mem_iff_getElem?.mp (Array.mem_toList_iff.mp hx)
  have hdescribes := described_of_ofKernel h ⟨n⟩ x hget
  exact ⟨hdescribes.width, hdescribes.kind, hdescribes.interface⟩

theorem isParam_of_mem_roster (h : ofKernel k widths = .ok g) (hn : node ∈ g.roster) :
    node.kind.isParam = k.isArgument node.value :=
  NodeKind.isParam_of_ofValue (describes_of_mem_roster h hn).kind

/-- The interface bucket is that of the parameters alone. -/
theorem bucket_eq_interface_iff (h : ofKernel k widths = .ok g) (hn : node ∈ g.roster) :
    node.bucket = interfaceBucket ↔ node.kind.isParam = true := by
  constructor
  · intro hbucket
    by_contra hparam
    have hinner : node ∈ g.inner := List.mem_filter.mpr ⟨hn, by simpa using hparam⟩
    have hle := ((ascending_of_ofKernel h).within node hinner).1
    rw [hbucket] at hle
    exact absurd hle (by decide)
  · exact (describes_of_mem_roster h hn).interface

/-- The interface bucket lists the parameters. -/
theorem bucket_interfaceBucket (h : ofKernel k widths = .ok g) :
    g.buckets.bucket interfaceBucket = g.values.filter k.isArgument := by
  rw [(placed_of_ofKernel h).bucket_eq, values_eq_map_roster, List.filter_map]
  congr 1
  apply List.filter_congr
  intro node hn
  rw [Function.comp_apply, ← isParam_of_mem_roster h hn, Bool.eq_iff_iff, decide_eq_true_iff]
  exact bucket_eq_interface_iff h hn

/-- The other buckets list everything else, one after the other. -/
theorem flatMap_bucket (h : ofKernel k widths = .ok g) :
    (List.range' 1 k.blocks.size).flatMap g.buckets.bucket =
      g.values.filter fun v => !k.isArgument v := by
  have ascending := ascending_of_ofKernel h
  have hinner : g.inner.map (·.value) = g.values.filter fun v => !k.isArgument v := by
    rw [values_eq_map_roster, List.filter_map, inner]
    congr 1
    apply List.filter_congr
    intro node hn
    rw [Function.comp_apply, isParam_of_mem_roster h hn]
  have hbucket : ∀ b ∈ List.range' 1 k.blocks.size,
      g.buckets.bucket b = (g.inner.filter (·.bucket = b)).map (·.value) := by
    intro b hb
    have hpos := (List.mem_range'_1.mp hb).1
    rw [(placed_of_ofKernel h).bucket_eq, inner, List.filter_filter]
    congr 1
    apply List.filter_congr
    intro node hn
    by_cases hnode : node.bucket = b
    · -- parameters are in the interface bucket, which is none of these
      have hparam : node.kind.isParam = false := by
        rw [Bool.eq_false_iff, ne_eq, ← bucket_eq_interface_iff h hn, hnode]
        exact Nat.pos_iff_ne_zero.mp hpos
      simp [hnode, hparam]
    · simp [hnode]
  rw [List.flatMap_congr hbucket, ← List.map_flatMap, flatMap_filter_of_sorted ascending.sorted,
    hinner]
  intro node hn
  have := ascending.within node hn
  omega

/-- A value is placed where its node says, and nowhere else. -/
theorem mem_bucket_iff (h : ofKernel k widths = .ok g) {n : NodeId}
    (hn : g.nodes[n.index]? = some node) {b : Nat} :
    node.value ∈ g.buckets.bucket b ↔ node.bucket = b := by
  rw [(placed_of_ofKernel h).bucket_eq, List.mem_map]
  constructor
  · rintro ⟨x, hx, hvalue⟩
    obtain ⟨hx, hbucket⟩ := List.mem_filter.mp hx
    obtain ⟨y, hy, rfl⟩ := List.mem_map.mp hx
    obtain ⟨m, hm⟩ := Array.mem_iff_getElem?.mp (Array.mem_toList_iff.mp hy)
    -- the registry leads from the value to one node only
    have hr := (closed_of_ofKernel h).1
    have hleft := hr.nodeId?_of_getElem? (n := ⟨m⟩) hm
    change y.value = node.value at hvalue
    rw [hvalue, hr.nodeId?_of_getElem? hn] at hleft
    obtain rfl := Option.some.inj hleft
    obtain rfl := Option.some.inj (hm.symm.trans hn)
    exact of_decide_eq_true hbucket
  · intro hbucket
    have hbare : node.bare.bucket = b := hbucket
    exact ⟨node.bare, List.mem_filter.mpr ⟨mem_roster_of_getElem? hn, decide_eq_true hbare⟩, rfl⟩

/-- No bucket lies behind those of the blocks. -/
theorem le_size_of_mem_entries (h : ofKernel k widths = .ok g) {e : Nat × List ValueId}
    (he : e ∈ g.buckets.entries) : e.1 ≤ k.blocks.size := by
  have placed := placed_of_ofKernel h
  obtain ⟨v, hv⟩ := List.exists_mem_of_ne_nil _ (placed.nonempty e he)
  rw [← Buckets.bucket_of_mem he, placed.bucket_eq, List.mem_map] at hv
  obtain ⟨node, hnode, -⟩ := hv
  obtain ⟨hnode, hbucket⟩ := List.mem_filter.mp hnode
  rw [decide_eq_true_iff] at hbucket
  rw [← hbucket]
  by_cases hparam : node.kind.isParam = true
  · rw [(bucket_eq_interface_iff h hnode).mpr hparam]
    exact Nat.zero_le _
  · have hinner : node ∈ g.inner := List.mem_filter.mpr ⟨hnode, by simpa using hparam⟩
    exact ((ascending_of_ofKernel h).within node hinner).2

/-- **The indices of a graph agree.** Values have one node each, which the registry leads to.
Bucket 0 lists the parameters and the buckets of blocks, one after the other, all other values, both
in order of creation; each bucket that is there has a value and belongs to a block or to the
parameters, and a node's value is in the bucket that the node records. Blocks are numbered from one
in both directions. Edges lead to nodes, and widths are those that were recorded. -/
theorem indices_agree (h : ofKernel k widths = .ok g) :
    (g.values.Nodup ∧ ∀ (n : Nat) (node : Node), g.nodes[n]? = some node →
      g.nodeId? node.value = some ⟨n⟩) ∧
    (g.buckets.bucket interfaceBucket = g.values.filter k.isArgument ∧
      (List.range' 1 k.blocks.size).flatMap g.buckets.bucket =
        g.values.filter (fun v => !k.isArgument v) ∧
      (∀ e ∈ g.buckets.entries, e.2 ≠ [] ∧ e.1 ≤ k.blocks.size) ∧
      ∀ (n : Nat) (node : Node) (b : Nat), g.nodes[n]? = some node →
        (node.value ∈ g.buckets.bucket b ↔ node.bucket = b)) ∧
    ((∀ b p, g.blockIndex? b = some p ↔ g.blockAt? p = some b) ∧
      (∀ b, (g.blockIndex? b).isSome ↔ b.index < k.blocks.size) ∧
      ∀ p, (g.blockAt? p).isSome ↔ 1 ≤ p ∧ p ≤ k.blocks.size) ∧
    (∀ (n : Nat) (node : Node), g.nodes[n]? = some node →
      (∀ m ∈ node.uses, m.index < g.nodes.size) ∧
        ∀ edge ∈ node.controls, edge.source.index < g.nodes.size) ∧
    ∀ v bits, g.width v = .ok bits → widths.width? v = some bits := by
  obtain ⟨registered, closed⟩ := closed_of_ofKernel h
  have numbers := numbers_of_ofKernel h
  refine ⟨⟨registered.nodup_values, fun n node hn => registered.nodeId?_of_getElem? (n := ⟨n⟩) hn⟩,
    ⟨bucket_interfaceBucket h, flatMap_bucket h, ?_, ?_⟩,
    ⟨fun _ _ => numbers.inverse, fun _ => numbers.isSome_blockIndex?_iff,
      fun _ => numbers.isSome_blockAt?_iff⟩, ?_, fun v bits => width?_of_width h⟩
  · exact fun e he => ⟨(placed_of_ofKernel h).nonempty e he, le_size_of_mem_entries h he⟩
  · exact fun n node b hn => mem_bucket_iff h (n := ⟨n⟩) hn
  · intro n node hn
    have htargets := closed ⟨n⟩ node hn
    constructor
    · exact fun m hm => htargets m (List.mem_append_left _ hm)
    · exact fun edge hedge => htargets _ (List.mem_append_right _ (List.mem_map_of_mem hedge))

/-- The loaded element is met first, and the parameters it is found with after it; the sum and the
store come in with the second block, which either table knows, and the third has no bucket. -/
theorem indices_agree_rectify : ∃ g,
    ofKernel Kernel.rectify (Kernel.rectify.uniform 8) = .ok g ∧
      g.buckets.entries = [(0, [⟨0⟩, ⟨1⟩]), (1, [⟨5⟩, ⟨6⟩, ⟨2⟩]), (2, [⟨8⟩, ⟨9⟩])] ∧
      g.values = [⟨5⟩, ⟨0⟩, ⟨1⟩, ⟨6⟩, ⟨2⟩, ⟨8⟩, ⟨9⟩] ∧
      (List.range' 1 Kernel.rectify.blocks.size).flatMap g.buckets.bucket =
        g.values.filter (fun v => !Kernel.rectify.isArgument v) ∧
      g.blockIndex? ⟨1⟩ = some 2 ∧ g.blockAt? 2 = some ⟨1⟩ ∧
      ∀ v bits, g.width v = .ok bits → (Kernel.rectify.uniform 8).width? v = some bits := by
  have hshape : (ofKernel Kernel.rectify (Kernel.rectify.uniform 8)).toOption.map (fun g =>
      (g.buckets.entries, g.values, g.blockIndex? ⟨1⟩)) =
        some ([(0, [⟨0⟩, ⟨1⟩]), (1, [⟨5⟩, ⟨6⟩, ⟨2⟩]), (2, [⟨8⟩, ⟨9⟩])],
          [⟨5⟩, ⟨0⟩, ⟨1⟩, ⟨6⟩, ⟨2⟩, ⟨8⟩, ⟨9⟩], some 2) := by decide +kernel
  cases made : ofKernel Kernel.rectify (Kernel.rectify.uniform 8) with
  | error => simp [made, Except.toOption] at hshape
  | ok g =>
      simp only [made, Except.toOption, Option.map_some] at hshape
      simp only [Option.some.injEq, Prod.mk.injEq] at hshape
      obtain ⟨hbuckets, hvalues, hindex⟩ := hshape
      obtain ⟨-, ⟨-, hlater, -⟩, ⟨hinverse, -, -⟩, -, hwidths⟩ := indices_agree made
      exact ⟨g, rfl, hbuckets, hvalues, hlater, hindex, (hinverse _ _).mp hindex, hwidths⟩

end Graph

end Datapath
