import Datapath.Proofs.Graph.Contents
import Datapath.Proofs.Graph.Recorded

/-!
# Where nodes are placed

A graph writes down twice in which bucket a node is: the node records it, and the bucket lists the
node's value. `Graph.Placed` says that both agree, and `Graph.Ascending` that the sweep fills the
buckets of blocks one after the other.

Neither depends on edges, so both are about the *roster*, the nodes as they were created. They are
kept by every step of construction, whatever the kernel.
-/

namespace Datapath

/-! ## Buckets -/

namespace Buckets

variable {number m : Nat} {v : ValueId} {vs : List ValueId} {l : List (Nat × List ValueId)}

/-- The entries are an association list, so the lemmas on lookups in lists apply. -/
theorem bucket_eq_lookup (b : Buckets) (m : Nat) :
    b.bucket m = (Table.lookup m b.entries).getD [] := by
  unfold bucket
  congr 1
  induction b.entries with
  | nil => rfl
  | cons e rest ih =>
      rw [List.find?_cons, Table.lookup]
      by_cases h : e.1 = m
      · simp [h]
      · simpa [h] using ih

/-- Placing a value adds it to its own bucket, at the end. That the numbers ascend keeps a bucket
from being entered twice. -/
theorem lookup_placeIn (sorted : (l.map Prod.fst).Pairwise (· < ·)) :
    Table.lookup m (placeIn number v l) =
      if number = m then some ((Table.lookup m l).getD [] ++ [v]) else Table.lookup m l := by
  induction l with
  | nil => rfl
  | cons e rest ih =>
      obtain ⟨c, us⟩ := e
      rw [List.map_cons, List.pairwise_cons] at sorted
      rw [placeIn]
      split
      · next hlt =>
        rw [Table.lookup]
        split
        · next e =>
          -- the new bucket comes before all others, so it was not there
          have hnone : Table.lookup m ((c, us) :: rest) = none := by
            rw [← Option.not_isSome_iff_eq_none, Table.lookup_isSome, List.map_cons, List.mem_cons]
            rintro (hc | hmem)
            · omega
            · have := sorted.1 m hmem
              omega
          rw [hnone]
          rfl
        · rfl
      · split
        · next hnum =>
          subst hnum
          rw [Table.lookup, Table.lookup]
          split <;> rfl
        · next hne =>
          rw [Table.lookup, Table.lookup, ih sorted.2]
          by_cases hc : c = m
          · have hnum : number ≠ m := fun e => hne (e.trans hc.symm)
            rw [if_pos hc, if_neg hnum, if_pos hc]
          · rw [if_neg hc, if_neg hc]

theorem bucket_place (b : Buckets) (number m : Nat) (v : ValueId) :
    (b.place number v).bucket m = if number = m then b.bucket m ++ [v] else b.bucket m := by
  rw [bucket_eq_lookup, bucket_eq_lookup]
  show (Table.lookup m (placeIn number v b.entries)).getD [] = _
  rw [lookup_placeIn b.sorted]
  split <;> rfl

theorem nodup_keys (b : Buckets) : (b.entries.map Prod.fst).Nodup :=
  b.sorted.imp fun hlt => Nat.ne_of_lt hlt

theorem bucket_of_mem {b : Buckets} (h : (m, vs) ∈ b.entries) : b.bucket m = vs := by
  rw [bucket_eq_lookup, (Table.lookup_eq_some b.nodup_keys m vs).mpr h]
  rfl

/-- How often a value is placed in a bucket is how often the bucket lists it. -/
theorem count_bucketsOf (b : Buckets) (v : ValueId) (m : Nat) :
    (b.bucketsOf v).count m = (b.bucket m).count v := by
  rw [bucket_eq_lookup]
  unfold bucketsOf placements
  have nodup := b.nodup_keys
  generalize b.entries = l at nodup ⊢
  induction l with
  | nil => rfl
  | cons e rest ih =>
      obtain ⟨c, us⟩ := e
      rw [List.map_cons, List.nodup_cons] at nodup
      -- one bucket: its number is listed as often as the bucket lists the value
      have hhead : (((us.map fun u => (u, c)).filter fun p => p.1 = v).map (·.2)).count m =
          if c = m then us.count v else 0 := by
        rw [List.filter_map, List.map_map]
        have hconst : (fun p : ValueId × Nat => p.2) ∘ (fun u => (u, c)) = Function.const _ c := rfl
        rw [hconst, List.map_const, List.count_replicate]
        simp [List.count, List.countP_eq_length_filter, Function.comp_def, beq_eq_decide]
      rw [List.flatMap_cons, List.filter_append, List.map_append, List.count_append, ih nodup.2,
        hhead, Table.lookup]
      by_cases hc : c = m
      · -- the bucket asked for; its number does not come again
        subst hc
        have hnone : Table.lookup c rest = none := by
          rw [← Option.not_isSome_iff_eq_none, Table.lookup_isSome]
          exact nodup.1
        simp [hnone]
      · simp [hc]

/-- Only the bucket that a value is placed in changes. -/
theorem mem_placeIn {e : Nat × List ValueId} (h : e ∈ placeIn number v l) :
    e ∈ l ∨ ∃ us, e = (number, us ++ [v]) := by
  induction l with
  | nil => exact .inr ⟨[], List.mem_singleton.mp h⟩
  | cons c rest ih =>
      obtain ⟨c, us⟩ := c
      rw [placeIn] at h
      split at h
      · -- a new bucket, in front of the later ones
        exact (List.mem_cons.mp h).symm.imp_right fun h => ⟨[], h⟩
      · split at h
        · next hnum =>
          subst hnum
          rcases List.mem_cons.mp h with h | h
          · -- the bucket itself, longer by the value
            exact .inr ⟨us, h⟩
          · exact .inl (List.mem_cons_of_mem _ h)
        · rcases List.mem_cons.mp h with h | h
          · exact .inl (h ▸ List.mem_cons_self)
          · exact (ih h).imp_left (List.mem_cons_of_mem _)

end Buckets

/-! ## Nodes without their edges -/

/-- A node as it was created. -/
def Node.bare (node : Node) : Node := { node with uses := [], controls := [] }

namespace Graph

variable {s : Setting} {bucket : Nat} {g g' : Graph} {v : ValueId} {n m : NodeId} {node : Node}

/-- The nodes in order of creation, without their edges. -/
def roster (g : Graph) : List Node := g.nodes.toList.map Node.bare

/-- The nodes that are not parameters, in order of creation and without their edges. -/
def inner (g : Graph) : List Node := g.roster.filter fun node => !node.kind.isParam

theorem values_eq_map_roster (g : Graph) : g.values = g.roster.map (·.value) := by
  rw [values, roster, List.map_map]
  rfl

theorem mem_roster_of_getElem? (h : g.nodes[n.index]? = some node) : node.bare ∈ g.roster :=
  List.mem_map.mpr ⟨node, Array.mem_toList_iff.mpr (Array.mem_of_getElem? h), rfl⟩

/-- A new node joins the roster at its end. -/
theorem roster_addNode (g : Graph) (node : Node) :
    (g.addNode node).1.roster = g.roster ++ [node.bare] := by
  show (g.nodes.push node).toList.map Node.bare = _
  rw [Array.toList_push, List.map_append]
  rfl

/-- Entering edges in a node leaves the roster alone. -/
theorem roster_modify (g : Graph) (n : NodeId) {f : Node → Node}
    (same : ∀ node, (f node).bare = node.bare) :
    (g.nodes.modify n.index f).toList.map Node.bare = g.roster := by
  apply List.ext_getElem?
  intro m
  rw [roster, List.getElem?_map, List.getElem?_map, Array.getElem?_toList, Array.getElem?_toList,
    getElem?_modify_node g.nodes f n ⟨m⟩, Option.map_map]
  congr 1
  funext node
  by_cases h : (⟨m⟩ : NodeId) = n <;> simp [h, same]

@[simp] theorem roster_addUse (g : Graph) (source target : NodeId) :
    (g.addUse source target).roster = g.roster :=
  roster_modify g source fun _ => rfl

@[simp] theorem roster_addControl (g : Graph) (n : NodeId) (edge : ControlEdge) :
    (g.addControl n edge).roster = g.roster :=
  roster_modify g n fun _ => rfl

/-! ## Placed nodes -/

/-- Each bucket lists the values of the nodes that record it, in order of creation, and a bucket is
there if there is such a node. -/
structure Placed (g : Graph) : Prop where
  bucket_eq : ∀ b, g.buckets.bucket b = (g.roster.filter (·.bucket = b)).map (·.value)
  nonempty : ∀ e ∈ g.buckets.entries, e.2 ≠ []

/-- Edges and chains do not move a node. -/
theorem Placed.congr (h : g.Placed) (buckets : g'.buckets = g.buckets)
    (roster : g'.roster = g.roster) : g'.Placed where
  bucket_eq b := by rw [buckets, roster, h.bucket_eq]
  nonempty e he := h.nonempty e (buckets ▸ he)

/-- A node is listed by the bucket that it records when it is added. -/
theorem placed_addNode (h : g.Placed) (node : Node) : (g.addNode node).1.Placed where
  bucket_eq b := by
    show (g.buckets.place node.bucket node.value).bucket b = _
    rw [Buckets.bucket_place, roster_addNode, List.filter_append, List.map_append, ← h.bucket_eq]
    by_cases hb : node.bucket = b <;> simp [hb, Node.bare]
  nonempty e he := by
    rcases Buckets.mem_placeIn he with he | ⟨us, rfl⟩
    · exact h.nonempty e he
    · simp

/-- Every step keeps placed graphs placed: the only one that moves anything adds a node. -/
theorem kept_placed (s : Setting) (bucket : Nat) : Kept s bucket Placed where
  request hg h := by
    rcases request_eq_ok h with ⟨rfl, -⟩ | ⟨-, node, hadd, -⟩
    · exact hg
    · obtain rfl := congrArg Prod.fst hadd
      exact placed_addNode hg node
  use n hg _ := hg.congr rfl (roster_addUse ..)
  trace hg h := by
    obtain rfl | ⟨chain, widths, -, rfl⟩ := traceAddress_eq_ok h
    · exact hg
    · exact hg.congr rfl rfl
  control n hg _ := hg.congr rfl (roster_addControl ..)

/-- **What a bucket lists is what the nodes record.** -/
theorem placed_of_ofKernel {k : Kernel} {widths : Widths} (h : ofKernel k widths = .ok g) :
    g.Placed := by
  refine ofKernel_induction (fun guards feeds bucket => kept_placed _ bucket) ⟨?_, ?_⟩ h
  · intro b
    rw [buckets_numbered, roster, nodes_numbered]
    rfl
  · intro e he
    rw [buckets_numbered] at he
    cases he

/-! ## The order of buckets -/

/-- The nodes that are not parameters were created in the order of their buckets, none of which lies
behind `bucket`. -/
structure Ascending (bucket : Nat) (g : Graph) : Prop where
  within : ∀ node ∈ g.inner, 1 ≤ node.bucket ∧ node.bucket ≤ bucket
  sorted : g.inner.Pairwise fun x y => x.bucket ≤ y.bucket

/-- The sweep may go on to a later bucket. -/
theorem Ascending.mono {later : Nat} (h : g.Ascending bucket) (hle : bucket ≤ later) :
    g.Ascending later where
  within node hn := (h.within node hn).imp_right fun hb => Nat.le_trans hb hle
  sorted := h.sorted

theorem Ascending.congr (h : g.Ascending bucket) (roster : g'.roster = g.roster) :
    g'.Ascending bucket := by
  have hinner : g'.inner = g.inner := congrArg (List.filter _) roster
  exact ⟨hinner ▸ h.within, hinner ▸ h.sorted⟩

/-- A new node that is no parameter is put into the bucket at hand, behind which there is none. -/
theorem ascending_addNode (h : g.Ascending bucket) (hb : 1 ≤ bucket)
    (current : node.kind.isParam = false → node.bucket = bucket) :
    (g.addNode node).1.Ascending bucket := by
  have hinner : (g.addNode node).1.inner = g.inner ++ [node.bare].filter (!·.kind.isParam) := by
    rw [inner, roster_addNode, List.filter_append]
    rfl
  by_cases hparam : node.kind.isParam = true
  · -- a parameter is left out of the order
    have hsame : (g.addNode node).1.inner = g.inner := by
      rw [hinner]
      simp [Node.bare, hparam]
    exact ⟨hsame ▸ h.within, hsame ▸ h.sorted⟩
  · rw [Bool.not_eq_true] at hparam
    have hnew : (g.addNode node).1.inner = g.inner ++ [node.bare] := by
      rw [hinner]
      simp [Node.bare, hparam]
    have hlast : node.bare.bucket = bucket := current hparam
    constructor
    · rw [hnew]
      intro x hx
      rcases List.mem_append.mp hx with hx | hx
      · exact h.within x hx
      · obtain rfl := List.mem_singleton.mp hx
        omega
    · rw [hnew, List.pairwise_append]
      refine ⟨h.sorted, List.pairwise_singleton _ _, fun x hx y hy => ?_⟩
      obtain rfl := List.mem_singleton.mp hy
      exact hlast ▸ (h.within x hx).2

/-- Within a bucket, every step makes nodes of that bucket or of the interface. -/
theorem kept_ascending (s : Setting) (hb : 1 ≤ bucket) : Kept s bucket (Ascending bucket) where
  request hg h := by
    rcases request_eq_ok h with ⟨rfl, -⟩ | ⟨-, node, hadd, -, -, -, hbucket⟩
    · exact hg
    · obtain rfl := congrArg Prod.fst hadd
      refine ascending_addNode hg hb fun hparam => ?_
      rw [hbucket, hparam]
      rfl
  use n hg _ := hg.congr (roster_addUse ..)
  trace hg h := by
    obtain rfl | ⟨chain, widths, -, rfl⟩ := traceAddress_eq_ok h
    · exact hg
    · exact hg.congr rfl
  control n hg _ := hg.congr (roster_addControl ..)

theorem ascending_numbered (k : Kernel) : (numbered k).Ascending 0 := by
  constructor <;> simp [inner, roster]

/-- **Buckets are filled in ascending order**, and there are no more of them than blocks. -/
theorem ascending_of_ofKernel {k : Kernel} {widths : Widths} (h : ofKernel k widths = .ok g) :
    g.Ascending k.blocks.size := by
  obtain ⟨guards, -, h⟩ := Outcome.bind_eq_ok.mp h
  obtain ⟨feeds, hfeeds, h⟩ := Outcome.bind_eq_ok.mp h
  suffices hrun : g.Ascending (k.blocks.toList.zipIdx 1).length by simpa using hrun
  refine Outcome.foldlM_prefix_induction (motive := fun done g => g.Ascending done.length)
    (fun done entry rest g g' hsplit hg hblock => ?_) (ascending_numbered k) h
  -- the number of a block is one more than the blocks before it
  have hentry : entry.2 = done.length + 1 := by
    have hget : (k.blocks.toList.zipIdx 1)[done.length]? = some entry := by simp [hsplit]
    rw [List.getElem?_zipIdx, Option.map_eq_some_iff] at hget
    obtain ⟨block, -, rfl⟩ := hget
    exact Nat.add_comm ..
  rw [List.length_append, List.length_singleton, ← hentry]
  have hbefore : g.Ascending entry.2 := hg.mono (by omega)
  exact Outcome.foldlM_induction
    (fun _ _ _ => (kept_ascending ⟨k, widths, guards, feeds⟩ (by omega)).visit hfeeds) hbefore
    hblock

end Graph

/-- A list that is sorted by a key starts with the elements of the least key. -/
theorem filter_append_filter_of_sorted {α : Type} {key : α → Nat} {least : Nat} {l : List α}
    (sorted : l.Pairwise fun x y => key x ≤ key y) (bound : ∀ x ∈ l, least ≤ key x) :
    l.filter (key · = least) ++ l.filter (key · ≠ least) = l := by
  induction l with
  | nil => rfl
  | cons x rest ih =>
      rw [List.pairwise_cons] at sorted
      by_cases hx : key x = least
      · have hrest := ih sorted.2 fun y hy => bound y (List.mem_cons_of_mem x hy)
        simpa [hx] using hrest
      · -- no key is least any more, so nothing is taken out
        have hlater : ∀ y ∈ x :: rest, key y ≠ least := by
          intro y hy
          have hleast := bound x List.mem_cons_self
          rcases List.mem_cons.mp hy with rfl | hy
          · exact hx
          · have := sorted.1 y hy
            omega
        rw [List.filter_eq_nil_iff.mpr (by simpa using hlater),
          List.filter_eq_self.mpr (by simpa using hlater), List.nil_append]

/-- A list that is sorted by a key is put together from the sublists of each key. -/
theorem flatMap_filter_of_sorted {α : Type} {key : α → Nat} {count : Nat} :
    ∀ {first : Nat} {l : List α}, l.Pairwise (fun x y => key x ≤ key y) →
      (∀ x ∈ l, first ≤ key x ∧ key x < first + count) →
      (List.range' first count).flatMap (fun n => l.filter (key · = n)) = l := by
  induction count with
  | zero =>
      intro first l sorted bound
      cases l with
      | nil => rfl
      | cons x rest =>
          have := bound x List.mem_cons_self
          omega
  | succ count ih =>
      intro first l sorted bound
      have later : ∀ x ∈ l.filter (key · ≠ first),
          first + 1 ≤ key x ∧ key x < first + 1 + count := by
        intro x hx
        obtain ⟨hx, hne⟩ := List.mem_filter.mp hx
        have := bound x hx
        have : key x ≠ first := by simpa using hne
        omega
      -- what is left when the first sublist is taken out has the later keys only
      have hrest := ih (sorted.filter _) later
      have hsame : (List.range' (first + 1) count).flatMap (fun n => l.filter (key · = n)) =
          (List.range' (first + 1) count).flatMap fun n =>
            (l.filter (key · ≠ first)).filter (key · = n) := by
        rw [List.flatMap_congr]
        intro n hn
        have hn := (List.mem_range'_1.mp hn).1
        rw [List.filter_filter]
        apply List.filter_congr
        intro x _
        by_cases hx : key x = n
        · have hne : n ≠ first := by omega
          simp [hx, hne]
        · simp [hx]
      rw [List.range'_succ, List.flatMap_cons, hsame, hrest]
      exact filter_append_filter_of_sorted sorted fun x hx => (bound x hx).1

end Datapath
