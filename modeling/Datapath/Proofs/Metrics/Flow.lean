import Datapath.Metrics.Depth
import Mathlib.Data.List.Chain
import Mathlib.Data.List.Perm.Subperm
import Mathlib.Data.List.Sort
import Mathlib.Logic.Relation
import Mathlib.Order.Bounds.Basic

/-!
# Depths and longest paths

A labelling of the places of a flow is *exact* if each place is one deeper than the deepest it takes
data from. Then the depth of a place is the length of a longest path that begins there, and the
greatest depth that of a longest path (`Flow.Exact.isGreatest`). So all ways to an exact labelling
find the same length. There are two:

* in rounds, `height` counts the places of the longest paths with a bounded number of them. If the
  flow has no cycle, no path is longer than the number of places, and the bound stops to matter
  (`Flow.exact_height`);
* in an order in which each place comes after those it takes data from, one pass is enough
  (`Flow.exact_depths`).
-/

namespace Datapath.Flow

open Relation (TransGen)

variable {f : Flow} {depth depth' : Nat → Nat} {m n : Nat} {path rest order : List Nat}

/-! ## Paths -/

def Feeds (f : Flow) (m n : Nat) : Prop := (m, n) ∈ f.edges

theorem mem_into : m ∈ f.into n ↔ f.Feeds m n := by
  simp [into, Feeds]

def Closed (f : Flow) : Prop := ∀ {m n}, f.Feeds m n → m < f.size ∧ n < f.size

/-- No data flows back to where it came from. -/
def Acyclic (f : Flow) : Prop := ∀ n, ¬ TransGen f.Feeds n n

/-- Each place of the path takes data from the next. -/
structure IsPath (f : Flow) (path : List Nat) : Prop where
  chain : path.IsChain fun n m => f.Feeds m n
  within : ∀ n ∈ path, n < f.size

def pathLengths (f : Flow) : Set Nat := { length | ∃ path, f.IsPath path ∧ path.length = length }

theorem IsPath.singleton (hn : n < f.size) : f.IsPath [n] :=
  ⟨.singleton n, fun _ hm => List.mem_singleton.mp hm ▸ hn⟩

theorem IsPath.cons (h : f.IsPath (m :: rest)) (feeds : f.Feeds m n) (hn : n < f.size) :
    f.IsPath (n :: m :: rest) :=
  ⟨List.isChain_cons_cons.mpr ⟨feeds, h.chain⟩, List.forall_mem_cons.mpr ⟨hn, h.within⟩⟩

/-- Without a cycle, no path comes to a place again. -/
theorem Acyclic.nodup (acyclic : f.Acyclic) (h : f.IsPath path) : path.Nodup := by
  have flows : path.IsChain fun n m => TransGen f.Feeds m n := h.chain.imp fun _ _ => .single
  have trans : Trans (fun n m => TransGen f.Feeds m n) (fun n m => TransGen f.Feeds m n)
      (fun n m => TransGen f.Feeds m n) := ⟨fun h h' => h'.trans h⟩
  refine flows.pairwise.imp fun {n m} hflow e => ?_
  subst e
  exact acyclic n hflow

/-- Without a cycle, a path has no more places than there are. -/
theorem Acyclic.length_le (acyclic : f.Acyclic) (h : f.IsPath path) : path.length ≤ f.size := by
  have hsub : path ⊆ List.range f.size := fun n hn => List.mem_range.mpr (h.within n hn)
  simpa using ((acyclic.nodup h).subperm hsub).length_le

/-! ## The depth of one place -/

/-- The greatest of some numbers and zero is one of them, and no less than any. -/
theorem foldl_max_spec (l : List Nat) :
    l.foldl max 0 ∈ 0 :: l ∧ ∀ a ∈ 0 :: l, a ≤ l.foldl max 0 :=
  List.max?_eq_some_iff.mp List.max?_cons'

theorem foldl_max_congr {l l' : List Nat} (h : ∀ a, a ∈ l ↔ a ∈ l') :
    l.foldl max 0 = l'.foldl max 0 := by
  have hmem : ∀ a, a ∈ 0 :: l ↔ a ∈ 0 :: l' := by simp [h]
  obtain ⟨hl, hmax⟩ := foldl_max_spec l
  obtain ⟨hl', hmax'⟩ := foldl_max_spec l'
  exact Nat.le_antisymm (hmax' _ ((hmem _).mp hl)) (hmax _ ((hmem _).mpr hl'))

/-- A place is deeper than each place it takes data from. -/
theorem lt_depthOf (depth : Nat → Nat) (feeds : f.Feeds m n) : depth m < f.depthOf depth n := by
  have hle := (foldl_max_spec ((f.into n).map depth)).2 (depth m)
    (List.mem_cons_of_mem 0 (List.mem_map_of_mem (mem_into.mpr feeds)))
  exact Nat.lt_succ_of_le hle

/-- A place takes no data, or it is one deeper than some place it takes data from. -/
theorem depthOf_cases (f : Flow) (depth : Nat → Nat) (n : Nat) :
    f.depthOf depth n = 1 ∨ ∃ m, f.Feeds m n ∧ f.depthOf depth n = depth m + 1 := by
  rcases List.mem_cons.mp (foldl_max_spec ((f.into n).map depth)).1 with hzero | hmem
  · exact .inl (congrArg (· + 1) hzero)
  · obtain ⟨m, hm, hdepth⟩ := List.mem_map.mp hmem
    exact .inr ⟨m, mem_into.mp hm, congrArg (· + 1) hdepth.symm⟩

/-- A place gets deeper only if some place that it takes data from does. -/
theorem exists_lt_of_depthOf_lt (h : f.depthOf depth n < f.depthOf depth' n) :
    ∃ m, f.Feeds m n ∧ depth m < depth' m := by
  rcases f.depthOf_cases depth' n with hone | ⟨m, feeds, hdepth⟩
  · -- a depth of one cannot be greater than another
    have hpos : 0 < f.depthOf depth n := Nat.succ_pos _
    omega
  · refine ⟨m, feeds, ?_⟩
    have hlt := lt_depthOf depth feeds
    omega

/-- Where nothing below gets shallower, neither does the place. -/
theorem depthOf_mono (h : ∀ {m}, f.Feeds m n → depth m ≤ depth' m) :
    f.depthOf depth n ≤ f.depthOf depth' n := by
  by_contra hlt
  obtain ⟨m, feeds, hm⟩ := exists_lt_of_depthOf_lt (Nat.lt_of_not_le hlt)
  exact absurd hm (Nat.not_lt_of_le (h feeds))

theorem depthOf_congr (h : ∀ {m}, f.Feeds m n → depth m = depth' m) :
    f.depthOf depth n = f.depthOf depth' n :=
  Nat.le_antisymm (depthOf_mono fun feeds => Nat.le_of_eq (h feeds))
    (depthOf_mono fun feeds => Nat.le_of_eq (h feeds).symm)

/-! ## Exact labellings -/

/-- Each place is one deeper than the deepest it takes data from. -/
def Exact (f : Flow) (depth : Nat → Nat) : Prop := ∀ n < f.size, depth n = f.depthOf depth n

namespace Exact

/-- No path is longer than its first place is deep. -/
theorem length_le (exact : f.Exact depth) (h : f.IsPath (n :: rest)) :
    (n :: rest).length ≤ depth n := by
  induction rest generalizing n with
  | nil =>
      rw [exact n (h.within n List.mem_cons_self)]
      exact Nat.succ_pos _
  | cons m rest ih =>
      obtain ⟨feeds, chain⟩ := List.isChain_cons_cons.mp h.chain
      have hrest := ih ⟨chain, (List.forall_mem_cons.mp h.within).2⟩
      have hlt := lt_depthOf depth feeds
      rw [← exact n (h.within n List.mem_cons_self)] at hlt
      rw [List.length_cons]
      omega

/-- At each place some path begins that is as long as the place is deep. -/
theorem exists_path (exact : f.Exact depth) (closed : f.Closed) {n : Nat} (hn : n < f.size) :
    ∃ rest, f.IsPath (n :: rest) ∧ (n :: rest).length = depth n := by
  rcases f.depthOf_cases depth n with hone | ⟨m, feeds, hdepth⟩
  · refine ⟨[], .singleton hn, ?_⟩
    rw [exact n hn, hone]
    rfl
  · have hstep : depth n = depth m + 1 := (exact n hn).trans hdepth
    obtain ⟨rest, hpath, hlength⟩ := exists_path exact closed (closed feeds).1
    exact ⟨m :: rest, hpath.cons feeds hn, by rw [List.length_cons, hlength, hstep]⟩
termination_by depth n

/-- **The greatest depth is the length of a longest path.** -/
theorem isGreatest {depths : Array Nat} (exact : f.Exact fun n => depths[n]?.getD 0)
    (closed : f.Closed) (hsize : depths.size = f.size) :
    IsGreatest f.pathLengths (depths.foldl max 0) := by
  have hmax := foldl_max_spec depths.toList
  rw [Array.foldl_toList] at hmax
  constructor
  · -- without a place the empty path is the longest one
    rcases List.mem_cons.mp hmax.1 with hzero | hmem
    · exact ⟨[], ⟨.nil, nofun⟩, hzero.symm⟩
    · obtain ⟨n, hn⟩ := Array.mem_iff_getElem?.mp (Array.mem_toList_iff.mp hmem)
      have hlt : n < f.size := hsize ▸ (Array.getElem?_eq_some_iff.mp hn).1
      obtain ⟨rest, hpath, hlength⟩ := exact.exists_path closed hlt
      exact ⟨n :: rest, hpath, by rw [hlength, hn, Option.getD_some]⟩
  · rintro length ⟨path, hpath, rfl⟩
    cases path with
    | nil => exact Nat.zero_le _
    | cons n rest =>
        have hlt : n < depths.size := hsize ▸ hpath.within n List.mem_cons_self
        refine Nat.le_trans (exact.length_le hpath) ?_
        simp only [Array.getElem?_eq_getElem hlt, Option.getD_some]
        exact hmax.2 _ (List.mem_cons_of_mem 0 (Array.mem_toList_iff.mpr (Array.getElem_mem hlt)))

end Exact

/-! ## In rounds -/

/-- The depths after a number of rounds. -/
def height (f : Flow) : (rounds : Nat) → Nat → Nat
  | 0, _ => 0
  | rounds + 1, n => f.depthOf (f.height rounds) n

/-- Depths only grow from round to round. -/
theorem height_le_succ (f : Flow) (r n : Nat) : f.height r n ≤ f.height (r + 1) n := by
  induction r generalizing n with
  | zero => exact Nat.zero_le _
  | succ r ih => exact depthOf_mono fun {m} _ => ih m

/-- Where a round still changes something, a path begins with a place for each round. -/
theorem exists_path_of_height_lt (closed : f.Closed) {r : Nat} (hn : n < f.size)
    (h : f.height r n < f.height (r + 1) n) :
    ∃ rest, f.IsPath (n :: rest) ∧ (n :: rest).length = r + 1 := by
  induction r generalizing n with
  | zero => exact ⟨[], .singleton hn, rfl⟩
  | succ r ih =>
      -- a place below changed in the round before, and a path begins there
      obtain ⟨m, feeds, hm⟩ := exists_lt_of_depthOf_lt h
      obtain ⟨rest, hpath, hlength⟩ := ih (closed feeds).1 hm
      exact ⟨m :: rest, hpath.cons feeds hn, by rw [List.length_cons, hlength]⟩

/-- **After as many rounds as there are places, depths are exact.** -/
theorem exact_height (closed : f.Closed) (acyclic : f.Acyclic) : f.Exact (f.height f.size) := by
  intro n hn
  refine Nat.le_antisymm (f.height_le_succ f.size n) (Nat.le_of_not_lt fun hlt => ?_)
  -- a change after that many rounds would take a path with a place more than there are
  obtain ⟨rest, hpath, hlength⟩ := exists_path_of_height_lt closed hn hlt
  have := acyclic.length_le hpath
  omega

/-! ## In one pass -/

/-- The order lists every place once, each after those it takes data from. -/
structure Sorted (f : Flow) (order : List Nat) : Prop where
  perm : order.Perm (List.range f.size)
  forward : ∀ {m n}, f.Feeds m n → order.idxOf m < order.idxOf n

/-- The sort gives an order of the places wherever there is no cycle. -/
def Sorts (sort : Flow → Option (List Nat)) : Prop :=
  ∀ f : Flow, f.Closed → f.Acyclic → ∃ order, sort f = some order ∧ f.Sorted order

/-- What a place takes data from has been gone through before it. -/
theorem Sorted.mem_before (h : f.Sorted order) {before after : List Nat}
    (split : order = before ++ n :: after) (feeds : f.Feeds m n) : m ∈ before := by
  by_contra hm
  have hn : n ∉ before := by
    have hnodup := h.perm.nodup_iff.mpr List.nodup_range
    rw [split, List.nodup_append] at hnodup
    exact fun hn => hnodup.2.2 n hn n List.mem_cons_self rfl
  have hlt := h.forward feeds
  rw [split, List.idxOf_append_of_notMem hm, List.idxOf_append_of_notMem hn,
    List.idxOf_cons_self] at hlt
  omega

/-- Entering a depth changes that of one place. -/
theorem getElem?_enter (f : Flow) (depths : Array Nat) (n m : Nat) :
    (f.enter depths n)[m]?.getD 0 =
      if n = m ∧ n < depths.size then f.depthOf (fun m => depths[m]?.getD 0) n
      else depths[m]?.getD 0 := by
  rw [enter, Array.getElem?_setIfInBounds]
  by_cases hm : n = m
  · subst hm
    by_cases hn : n < depths.size <;> simp [hn]
  · simp [hm]

/-- When some places have been gone through, those have their depths for good. -/
structure Settled (f : Flow) (done : List Nat) (depths : Array Nat) : Prop where
  size : depths.size = f.size
  closed : ∀ {m n}, n ∈ done → f.Feeds m n → m ∈ done
  exact : ∀ n ∈ done, depths[n]?.getD 0 = f.depthOf (fun m => depths[m]?.getD 0) n

/-- One more place, after those it takes data from. -/
theorem Settled.enter {done : List Nat} {depths : Array Nat} (h : f.Settled done depths)
    (fresh : n ∉ done) (hn : n < f.size) (before : ∀ {m}, f.Feeds m n → m ∈ done) :
    f.Settled (done ++ [n]) (f.enter depths n) := by
  have keeps : ∀ m ∈ done, (f.enter depths n)[m]?.getD 0 = depths[m]?.getD 0 := by
    intro m hm
    have hne : n ≠ m := fun e => fresh (e ▸ hm)
    rw [getElem?_enter, if_neg fun hself => hne hself.1]
  refine ⟨?_, fun {m l} hl feeds => ?_, fun l hl => ?_⟩
  · rw [Flow.enter, Array.size_setIfInBounds, h.size]
  · rcases List.mem_append.mp hl with hl | hl
    · exact List.mem_append_left _ (h.closed hl feeds)
    · obtain rfl := List.mem_singleton.mp hl
      exact List.mem_append_left _ (before feeds)
  · rcases List.mem_append.mp hl with hl | hl
    · -- the places before, which take data from places before them
      rw [keeps l hl, h.exact l hl]
      exact depthOf_congr fun feeds => (keeps _ (h.closed hl feeds)).symm
    · obtain rfl := List.mem_singleton.mp hl
      rw [getElem?_enter, if_pos ⟨rfl, h.size ▸ hn⟩]
      exact depthOf_congr fun feeds => (keeps _ (before feeds)).symm

/-- **After one pass in a sorted order, depths are exact.** -/
theorem settled_depths (h : f.Sorted order) : f.Settled order (f.depths order) := by
  suffices later : ∀ (rest done : List Nat) (depths : Array Nat), order = done ++ rest →
      f.Settled done depths → f.Settled order (rest.foldl f.enter depths) by
    exact later order [] _ rfl ⟨Array.size_replicate, nofun, nofun⟩
  intro rest
  induction rest with
  | nil =>
      intro done depths hsplit settled
      rw [List.append_nil] at hsplit
      exact hsplit ▸ settled
  | cons n rest ih =>
      intro done depths hsplit settled
      -- the next place in the order is new, and what it takes data from has been gone through
      refine ih (done ++ [n]) _ (by rw [hsplit, List.append_assoc]; rfl) ?_
      have hnodup := h.perm.nodup_iff.mpr List.nodup_range
      have hn : n ∈ order := hsplit ▸ List.mem_append_right _ List.mem_cons_self
      rw [hsplit, List.nodup_append] at hnodup
      exact settled.enter (fun hd => hnodup.2.2 n hd n List.mem_cons_self rfl)
        (List.mem_range.mp (h.perm.mem_iff.mp hn)) fun feeds => h.mem_before hsplit feeds

theorem exact_depths (h : f.Sorted order) : f.Exact fun n => (f.depths order)[n]?.getD 0 :=
  fun n hn => (settled_depths h).exact n (h.perm.mem_iff.mpr (List.mem_range.mpr hn))

/-! ## A sort -/

def byHeight (f : Flow) : List Nat :=
  (List.range f.size).insertionSort fun m n => f.height f.size m ≤ f.height f.size n

/-- The places by height, if every edge leads on in that order. -/
def sortByHeight (f : Flow) : Option (List Nat) :=
  if ∀ e ∈ f.edges, f.byHeight.idxOf e.1 < f.byHeight.idxOf e.2 then some f.byHeight else none

/-- **Sorting by height is a sort**: if there is no cycle, edges lead to greater heights. -/
theorem sorts_sortByHeight : Sorts sortByHeight := by
  intro f closed acyclic
  have perm : f.byHeight.Perm (List.range f.size) := List.perm_insertionSort ..
  have ascending : f.byHeight.Pairwise fun m n => f.height f.size m ≤ f.height f.size n :=
    List.pairwise_insertionSort ..
  have forward : ∀ {m n}, f.Feeds m n → f.byHeight.idxOf m < f.byHeight.idxOf n := by
    intro m n feeds
    have hlt := lt_depthOf (f.height f.size) feeds
    rw [← exact_height closed acyclic n (closed feeds).2] at hlt
    have hm := List.idxOf_lt_length_iff.mpr (perm.mem_iff.mpr (List.mem_range.mpr (closed feeds).1))
    have hn := List.idxOf_lt_length_iff.mpr (perm.mem_iff.mpr (List.mem_range.mpr (closed feeds).2))
    rcases Nat.lt_trichotomy (f.byHeight.idxOf m) (f.byHeight.idxOf n) with h | h | h
    · exact h
    · have e := (List.idxOf_inj (List.idxOf_lt_length_iff.mp hm)).mp h
      rw [e] at hlt
      exact absurd hlt (Nat.lt_irrefl _)
    · -- the other way round the heights would not ascend
      have hle := List.pairwise_iff_getElem.mp ascending _ _ hn hm h
      rw [List.getElem_idxOf, List.getElem_idxOf] at hle
      omega
  exact ⟨f.byHeight, if_pos fun e he => forward he, perm, forward⟩

end Datapath.Flow
