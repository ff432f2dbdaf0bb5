import Datapath.Proofs.Graph.Verdict

/-!
# What success means

`Invariant.Holds` says what each invariant asks of a graph, with no word about how it is checked.
`verify_iff` says that the check finds out exactly this, whatever the graph is like: its registry
may lead astray, two nodes may stand for one value, a value may be placed twice or without a node.

Only bucket membership is checked in a way that is not its meaning. The check goes through the nodes
and gives the placements of a value to the first node of that value; what is left belongs to no
node. The meaning is one list being a permutation of another: of the placements, and of the nodes
with the buckets they record.
-/

namespace Datapath

/-! ## Pairs by their first component -/

namespace Pairs

variable {α β : Type} [DecidableEq α] {l : List (α × β)} {p : α × β}

/-- Where no key comes twice, a key picks one pair. -/
theorem filter_eq_singleton (nodup : (l.map Prod.fst).Nodup) (hp : p ∈ l) :
    l.filter (fun q => q.1 = p.1) = [p] := by
  induction l with
  | nil => cases hp
  | cons q rest ih =>
      rw [List.map_cons, List.nodup_cons] at nodup
      rcases List.mem_cons.mp hp with rfl | hp
      · -- the pair stands first, and its key does not come again
        have hrest : rest.filter (fun q => q.1 = p.1) = [] := by
          rw [List.filter_eq_nil_iff]
          intro q hq hkey
          exact nodup.1 (of_decide_eq_true hkey ▸ List.mem_map_of_mem hq)
        rw [List.filter_cons_of_pos (by simp), hrest]
      · have hkey : q.1 ≠ p.1 := fun h => nodup.1 (h ▸ List.mem_map_of_mem hp)
        rw [List.filter_cons_of_neg (by simpa using hkey), ih nodup.2 hp]

/-- A list that gives each key of `l` its pair and has no other key is `l` in another order. -/
theorem perm_iff [DecidableEq β] {ps : List (α × β)} (nodup : (l.map Prod.fst).Nodup) :
    ps.Perm l ↔ (∀ p ∈ l, ps.filter (fun q => q.1 = p.1) = [p]) ∧
      ∀ p ∈ ps, p.1 ∈ l.map Prod.fst := by
  constructor
  · intro perm
    refine ⟨fun p hp => ?_, fun p hp => List.mem_map_of_mem (perm.mem_iff.mp hp)⟩
    have hfiltered := perm.filter fun q => q.1 = p.1
    rw [filter_eq_singleton nodup hp] at hfiltered
    exact List.perm_singleton.mp hfiltered
  · rintro ⟨once, known⟩
    -- a pair is counted among those with its key
    have count_eq (l : List (α × β)) (p : α × β) :
        l.count p = (l.filter fun q => q.1 = p.1).count p :=
      (List.count_filter (by simp)).symm
    rw [List.perm_iff_count]
    intro p
    by_cases hkey : p.1 ∈ l.map Prod.fst
    · obtain ⟨q, hq, hkey⟩ := List.mem_map.mp hkey
      rw [count_eq ps, count_eq l, ← hkey, once q hq, filter_eq_singleton nodup hq]
    · -- a key that `l` does not have: neither list has the pair
      rw [List.count_eq_zero_of_not_mem fun h => hkey (known p h),
        List.count_eq_zero_of_not_mem fun h => hkey (List.mem_map_of_mem h)]

end Pairs

/-! ## What the invariants ask -/

theorem Invariant.name_injective : Function.Injective Invariant.name := by
  intro i j h
  cases i <;> cases j <;> first | rfl | exact absurd h (by decide)

/-- What a graph must be like for an invariant to hold. -/
def Invariant.Holds (k : Kernel) (w : Widths) (g : Graph) : Invariant → Prop
  | bucketMembership => g.values.Nodup ∧
      g.buckets.placements.Perm (g.nodes.toList.map fun node => (node.value, node.bucket))
  | interfaceParams => ∀ node ∈ g.nodes.toList,
      node.kind.isParam = true → node.bucket = Graph.interfaceBucket
  | inferredWidths => ∀ node ∈ g.nodes.toList, w.width? node.value = some node.width
  | uniqueNodes => ∀ (n : Nat) (hn : n < g.nodes.size), g.nodeId? g.nodes[n].value = some ⟨n⟩
  | edgeTargets => ∀ node ∈ g.nodes.toList,
      ∀ target ∈ node.uses ++ node.controls.map (·.source), target.index < g.nodes.size
  | controlSources => ∀ node ∈ g.nodes.toList, ∀ edge ∈ node.controls,
      ∀ hn : edge.source.index < g.nodes.size,
        ∃ x ∈ k.value? g.nodes[edge.source.index].value,
          x.opcode? = some .icmp ∨ x.type = .int 1

namespace Graph

variable {g : Graph} {k : Kernel} {w : Widths}

theorem bucketsOf_eq_singleton_iff {b : Buckets} {v : ValueId} {n : Nat} :
    b.bucketsOf v = [n] ↔ b.placements.filter (fun p => p.1 = v) = [(v, n)] := by
  unfold Buckets.bucketsOf
  constructor
  · intro h
    obtain ⟨p, hp, hn⟩ := List.map_eq_singleton_iff.mp h
    have hmem : p ∈ b.placements.filter (fun p => p.1 = v) := hp ▸ List.mem_singleton_self p
    have hv : p.1 = v := by simpa using (List.mem_filter.mp hmem).2
    rw [hp, ← hv, ← hn]
  · intro h
    rw [h]
    rfl

/-- Which of two nodes of one value the placements go to is without effect on whether all is
well. -/
theorem bucketViolations_eq_nil_iff :
    g.bucketViolations = [] ↔ Invariant.bucketMembership.Holds k w g := by
  have hvalues : (g.nodes.toList.map fun node => (node.value, node.bucket)).map Prod.fst =
      g.values := by simp [values]
  rw [bucketViolations, List.append_eq_nil_iff, misplacedNodes_eq_nil_iff,
    strayPlacements_eq_nil_iff, and_assoc]
  refine and_congr_right fun nodup => ?_
  rw [Pairs.perm_iff (hvalues ▸ nodup), hvalues]
  simp [bucketsOf_eq_singleton_iff]

/-- That the registry leads back to each node is what unique nodes ask. -/
theorem registryViolations_eq_nil_iff_holds :
    g.registryViolations = [] ↔ Invariant.uniqueNodes.Holds k w g := by
  rw [registryViolations_eq_nil_iff]
  constructor
  · exact fun h n hn => h n _ (Array.getElem?_eq_getElem hn)
  · intro h n node hget
    obtain ⟨hn, rfl⟩ := Array.getElem?_eq_some_iff.mp hget
    exact h n hn

theorem edgeViolations_eq_nil_iff_holds :
    g.edgeViolations = [] ↔ Invariant.edgeTargets.Holds k w g := by
  rw [edgeViolations_eq_nil_iff]
  constructor
  · intro closed node hnode
    obtain ⟨n, hn⟩ := Array.mem_iff_getElem?.mp (Array.mem_toList_iff.mp hnode)
    exact closed ⟨n⟩ node hn
  · exact fun h n node hn => h node (Array.mem_toList_iff.mpr (Array.mem_of_getElem? hn))

/-- A source that is no node is the business of another invariant. -/
theorem startsAtCondition_iff_holds {edge : ControlEdge} : StartsAtCondition k g edge ↔
    ∀ hn : edge.source.index < g.nodes.size,
      ∃ x ∈ k.value? g.nodes[edge.source.index].value,
        x.opcode? = some .icmp ∨ x.type = .int 1 := by
  unfold StartsAtCondition valueAt?
  constructor
  · exact fun h hn => h _ (by rw [Array.getElem?_eq_getElem hn, Option.map_some])
  · intro h source hsource
    obtain ⟨node, hnode, rfl⟩ := Option.map_eq_some_iff.mp hsource
    obtain ⟨hn, rfl⟩ := Array.getElem?_eq_some_iff.mp hnode
    exact h hn

theorem controlViolations_eq_ok_iff_holds {found : List Violation}
    (h : controlViolations k g = .ok found) :
    found = [] ↔ Invariant.controlSources.Holds k w g := by
  rw [controlViolations_eq_ok h]
  exact forall₂_congr fun node _ => forall₂_congr fun edge _ => startsAtCondition_iff_holds

/-! ## The verdict -/

def violationsOf (g : Graph) (w : Widths) (sources : List Violation) :
    Invariant → List Violation
  | .bucketMembership => g.bucketViolations
  | .interfaceParams => g.interfaceViolations
  | .inferredWidths => g.widthViolations w
  | .uniqueNodes => g.registryViolations
  | .edgeTargets => g.edgeViolations
  | .controlSources => sources

/-- No violation is found of an invariant exactly if it holds. -/
theorem violationsOf_eq_nil_iff {sources : List Violation}
    (h : controlViolations k g = .ok sources) (i : Invariant) :
    g.violationsOf w sources i = [] ↔ i.Holds k w g := by
  cases i with
  | bucketMembership => exact bucketViolations_eq_nil_iff
  | interfaceParams => exact interfaceViolations_eq_nil_iff
  | inferredWidths => exact widthViolations_eq_nil_iff
  | uniqueNodes => exact registryViolations_eq_nil_iff_holds
  | edgeTargets => exact edgeViolations_eq_nil_iff_holds
  | controlSources => exact controlViolations_eq_ok_iff_holds h

def checked : List Invariant :=
  [.bucketMembership, .interfaceParams, .inferredWidths, .uniqueNodes, .edgeTargets,
    .controlSources]

theorem mem_checked (i : Invariant) : i ∈ checked := by
  cases i <;> decide

end Graph

namespace Verdict

def recordAll (r : Verdict) (found : Invariant → List Violation) (is : List Invariant) : Verdict :=
  is.foldl (fun r i => r.record i (found i)) r

variable (r : Verdict) (found : Invariant → List Violation) (is : List Invariant)

/-- Checks in a row are a success if each of them finds nothing. -/
theorem success_recordAll :
    (r.recordAll found is).success = true ↔ r.success = true ∧ ∀ i ∈ is, found i = [] := by
  induction is generalizing r with
  | nil => simp [recordAll]
  | cons i rest ih =>
      rw [recordAll, List.foldl_cons, ← recordAll, ih, success_record, Bool.and_eq_true,
        List.isEmpty_iff, List.forall_mem_cons, and_assoc]

theorem violations_recordAll :
    (r.recordAll found is).violations = [] ↔ r.violations = [] ∧ ∀ i ∈ is, found i = [] := by
  induction is generalizing r with
  | nil => simp [recordAll]
  | cons i rest ih =>
      rw [recordAll, List.foldl_cons, ← recordAll, ih, violations_record, List.append_eq_nil_iff,
        List.forall_mem_cons, and_assoc]

/-- An invariant is proven by its own check, whatever the others find. -/
theorem mem_proven_recordAll (j : Invariant) :
    j ∈ (r.recordAll found is).proven ↔ j ∈ r.proven ∨ j ∈ is ∧ found j = [] := by
  induction is generalizing r with
  | nil => simp [recordAll]
  | cons i rest ih =>
      rw [recordAll, List.foldl_cons, ← recordAll, ih, proven_record, List.mem_append, or_assoc]
      refine or_congr_right ?_
      by_cases hij : j = i
      · subst hij
        cases hfound : found j <;> simp
      · cases hfound : found i <;> simp [hij]

end Verdict

namespace Graph

variable {g : Graph} {k : Kernel} {w : Widths}

/-- Verification is the six checks in a row, once the control edges could be looked at. -/
theorem verify_eq {sources : List Violation} (h : controlViolations k g = .ok sources) :
    g.verify k w = .ok (Verdict.recordAll {} (g.violationsOf w sources) checked) := by
  rw [verify, h]
  rfl

/-- **A graph passes its check exactly if it is well-formed.** The values of nodes must be values of
the kernel, or there is nothing to ask about them; the graph and the widths may be any. The check
comes to a verdict. This is a success exactly if every invariant holds; it names an invariant as
proven exactly if that one holds; and it has no violation exactly if it is a success. -/
theorem verify_iff (known : ∀ node ∈ g.nodes.toList, ∃ x, k.value? node.value = some x) :
    ∃ r, g.verify k w = .ok r ∧ (r.success = true ↔ ∀ i : Invariant, i.Holds k w g) ∧
      (∀ i : Invariant, i.name ∈ r.proven.map Invariant.name ↔ i.Holds k w g) ∧
      (r.violations = [] ↔ r.success = true) := by
  obtain ⟨sources, hsources⟩ := exists_controlViolations known
  refine ⟨_, verify_eq hsources, ?_, fun i => ?_, ?_⟩
  · rw [Verdict.success_recordAll]
    simp only [violationsOf_eq_nil_iff hsources, mem_checked, true_and, true_imp_iff]
  · rw [List.mem_map_of_injective Invariant.name_injective, Verdict.mem_proven_recordAll,
      violationsOf_eq_nil_iff hsources]
    simp [mem_checked]
  · rw [Verdict.success_recordAll, Verdict.violations_recordAll]
    simp only [true_and]

/-- Two nodes for the one parameter of `nonzero`, and two placements of it. -/
def twofold : Graph where
  kernel := "nonzero"
  nodes := #[⟨⟨0⟩, 8, .inParam, 0, [], []⟩, ⟨⟨0⟩, 8, .inParam, 0, [], []⟩]
  registry := Table.empty.insert ⟨0⟩ ⟨1⟩
  buckets := (Buckets.empty.place 0 ⟨0⟩).place 0 ⟨0⟩

/-- Nodes and placements are the same pairs, but no two nodes may have one value. The check gives
both placements to the first node, and neither node passes. -/
theorem verify_iff_twofold : ∃ r, twofold.verify Kernel.nonzero .empty = .ok r ∧
    r.success = false ∧ r.violations ≠ [] ∧
    Invariant.bucketMembership.name ∉ r.proven.map Invariant.name ∧
    Invariant.interfaceParams.name ∈ r.proven.map Invariant.name := by
  have known : ∀ node ∈ twofold.nodes.toList, ∃ x, Kernel.nonzero.value? node.value = some x := by
    have hsome : ∀ node ∈ twofold.nodes.toList, (Kernel.nonzero.value? node.value).isSome := by
      decide +kernel
    exact fun node hnode => Option.isSome_iff_exists.mp (hsome node hnode)
  obtain ⟨r, hr, hsuccess, hproven, hviolations⟩ := verify_iff (w := .empty) known
  have hbuckets : ¬ Invariant.bucketMembership.Holds Kernel.nonzero .empty twofold := by
    rintro ⟨nodup, -⟩
    revert nodup
    decide
  have hfails : ¬ r.success = true := fun h => hbuckets (hsuccess.mp h _)
  have hparams : Invariant.interfaceParams.Holds Kernel.nonzero .empty twofold := by
    intro node hnode _
    simp only [twofold, List.mem_cons, List.not_mem_nil, or_false, or_self] at hnode
    exact hnode ▸ rfl
  exact ⟨r, hr, Bool.eq_false_iff.mpr hfails, fun h => hfails (hviolations.mp h),
    fun h => hbuckets ((hproven _).mp h), (hproven _).mpr hparams⟩

end Graph

end Datapath
