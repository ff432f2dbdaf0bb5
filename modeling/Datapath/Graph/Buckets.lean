import Datapath.Id

/-!
# Buckets

`Buckets` sorts the values of a graph by where they come in. A bucket has a number and lists values
in the order in which they were placed. Buckets are kept in ascending order of number, each number
once, and this is part of the type; a bucket comes into being with its first value.
-/

namespace Datapath

/-! ## On lists -/

namespace Buckets

/-- Places a value at the end of its bucket, which is opened where its number belongs. -/
def placeIn (number : Nat) (v : ValueId) :
    List (Nat × List ValueId) → List (Nat × List ValueId)
  | [] => [(number, [v])]
  | (n, vs) :: rest =>
    if number < n then (number, [v]) :: (n, vs) :: rest
    else if number = n then (n, vs ++ [v]) :: rest
    else (n, vs) :: placeIn number v rest

/-- At most the bucket of the value is opened. -/
theorem map_fst_placeIn_subset (number : Nat) (v : ValueId) (l : List (Nat × List ValueId)) :
    ∀ n ∈ (placeIn number v l).map Prod.fst, n = number ∨ n ∈ l.map Prod.fst := by
  induction l with
  | nil => simp [placeIn]
  | cons p rest ih =>
    obtain ⟨m, vs⟩ := p
    intro n hn
    simp only [placeIn] at hn
    split at hn
    · simpa using hn
    · split at hn
      · exact .inr hn
      · rcases List.mem_cons.1 hn with rfl | hn
        · exact .inr List.mem_cons_self
        · exact (ih n hn).imp id (List.mem_cons_of_mem m)

/-- Buckets stay in ascending order. -/
theorem sorted_placeIn {number : Nat} {v : ValueId} {l : List (Nat × List ValueId)}
    (h : (l.map Prod.fst).Pairwise (· < ·)) :
    ((placeIn number v l).map Prod.fst).Pairwise (· < ·) := by
  induction l with
  | nil => simp [placeIn]
  | cons p rest ih =>
    obtain ⟨m, vs⟩ := p
    rw [List.map_cons, List.pairwise_cons] at h
    simp only [placeIn]
    split
    · -- the bucket is opened here, before all that follow
      next hlt =>
      rw [List.map_cons, List.pairwise_cons, List.map_cons, List.pairwise_cons]
      refine ⟨fun n hn => ?_, h⟩
      rcases List.mem_cons.1 hn with rfl | hn
      · exact hlt
      · exact Nat.lt_trans hlt (h.1 n hn)
    · split
      · exact List.pairwise_cons.2 h
      · -- it belongs further on
        next hge hne =>
        rw [List.map_cons, List.pairwise_cons]
        refine ⟨fun n hn => ?_, ih h.2⟩
        rcases map_fst_placeIn_subset number v rest n hn with rfl | hn
        · show m < n
          omega
        · exact h.1 n hn

end Buckets

/-! ## Buckets -/

structure Buckets where
  entries : List (Nat × List ValueId)
  sorted : (entries.map Prod.fst).Pairwise (· < ·)

namespace Buckets

def empty : Buckets := ⟨[], by simp⟩

def place (b : Buckets) (number : Nat) (v : ValueId) : Buckets :=
  ⟨placeIn number v b.entries, sorted_placeIn b.sorted⟩

def size (b : Buckets) : Nat := b.entries.length

/-- The values of a bucket in order of placement; a bucket that is not there has none. -/
def bucket (b : Buckets) (number : Nat) : List ValueId :=
  ((b.entries.find? fun e => e.1 = number).map (·.2)).getD []

/-- All values with their buckets, in ascending order of bucket. -/
def placements (b : Buckets) : List (ValueId × Nat) :=
  b.entries.flatMap fun (number, vs) => vs.map fun v => (v, number)

def bucketsOf (b : Buckets) (v : ValueId) : List Nat :=
  (b.placements.filter fun p => p.1 = v).map (·.2)

end Buckets

end Datapath
