/-!
# Tables in order of entry

A `Table` maps keys to values and remembers the order in which its keys were first entered. Entering
a key again replaces the value *in place*. That every key occurs once is part of the type, so a
table is read off by position or by key and both agree.

The view is `find?`; `keys` is the order. Each operation is pinned by one equation for either:
`find?_insert` and `keys_insert`.
-/

namespace Datapath

variable {α β : Type} [DecidableEq α]

/-! ## On lists of pairs -/

namespace Table

/-- The value paired with `a` at its first occurrence. -/
def lookup (a : α) : List (α × β) → Option β
  | [] => none
  | (c, d) :: rest => if c = a then some d else lookup a rest

/-- Replaces the value of `a` where it stands, or puts the pair at the end. -/
def upsert (a : α) (b : β) : List (α × β) → List (α × β)
  | [] => [(a, b)]
  | (c, d) :: rest => if c = a then (a, b) :: rest else (c, d) :: upsert a b rest

/-- A key that is new comes last; one that is known keeps its place. -/
theorem map_fst_upsert (a : α) (b : β) (l : List (α × β)) :
    (upsert a b l).map Prod.fst =
      if a ∈ l.map Prod.fst then l.map Prod.fst else l.map Prod.fst ++ [a] := by
  induction l with
  | nil => simp [upsert]
  | cons p rest ih =>
    obtain ⟨c, d⟩ := p
    by_cases h : c = a
    · simp [upsert, h]
    · have h' : ¬ a = c := fun e => h e.symm
      simp only [upsert, h, if_false, List.map_cons, ih, List.mem_cons, h', false_or]
      split <;> simp

theorem nodup_upsert {a : α} {b : β} {l : List (α × β)} (h : (l.map Prod.fst).Nodup) :
    ((upsert a b l).map Prod.fst).Nodup := by
  rw [map_fst_upsert]
  split
  · exact h
  · next hmem =>
    rw [List.nodup_append]
    refine ⟨h, by simp, fun x hx y hy => ?_⟩
    rw [List.mem_singleton] at hy
    exact fun e => hmem (hy ▸ e ▸ hx)

/-- What is found under a key is what was last put there. -/
theorem lookup_upsert (a c : α) (b : β) (l : List (α × β)) :
    lookup c (upsert a b l) = if a = c then some b else lookup c l := by
  induction l with
  | nil => rfl
  | cons p rest ih =>
    obtain ⟨x, d⟩ := p
    by_cases hx : x = a
    · -- the pair that is replaced
      subst hx
      by_cases h : x = c <;> simp [upsert, lookup, h]
    · -- a pair that is passed over, and may be the one that is looked up
      by_cases h : x = c
      · subst h
        have h' : ¬ a = x := fun e => hx e.symm
        simp [upsert, hx, lookup, h']
      · simp [upsert, hx, lookup, h, ih]

theorem lookup_isSome (a : α) (l : List (α × β)) :
    (lookup a l).isSome ↔ a ∈ l.map Prod.fst := by
  induction l with
  | nil => simp [lookup]
  | cons p rest ih =>
    obtain ⟨c, d⟩ := p
    by_cases h : c = a
    · simp [lookup, h]
    · rw [lookup, if_neg h, ih, List.map_cons, List.mem_cons]
      exact ⟨.inr, fun e => e.resolve_left fun e => h e.symm⟩

/-- If every key occurs once, it does not matter which occurrence is looked up first. -/
theorem lookup_eq_some {l : List (α × β)} (nodup : (l.map Prod.fst).Nodup) (a : α) (b : β) :
    lookup a l = some b ↔ (a, b) ∈ l := by
  induction l with
  | nil => simp [lookup]
  | cons p rest ih =>
    obtain ⟨c, d⟩ := p
    rw [List.map_cons, List.nodup_cons] at nodup
    by_cases h : c = a
    · subst h
      simp only [lookup, if_true, Option.some.injEq, List.mem_cons, Prod.mk.injEq, true_and]
      refine ⟨fun e => .inl e.symm, fun e => e.elim Eq.symm fun e => ?_⟩
      -- the key does not occur again in the rest
      exact absurd (List.mem_map_of_mem e) nodup.1
    · have h' : ¬ a = c := fun e => h e.symm
      simp [lookup, h, h', ih nodup.2]

end Table

/-! ## Tables -/

/-- A finite map that keeps the order of first entry. -/
structure Table (α β : Type) [DecidableEq α] where
  entries : List (α × β)
  nodup : (entries.map Prod.fst).Nodup

namespace Table

def empty : Table α β := ⟨[], by simp⟩

def find? (t : Table α β) (a : α) : Option β := lookup a t.entries

def insert (t : Table α β) (a : α) (b : β) : Table α β :=
  ⟨upsert a b t.entries, nodup_upsert t.nodup⟩

def contains (t : Table α β) (a : α) : Bool := (t.find? a).isSome

def keys (t : Table α β) : List α := t.entries.map Prod.fst

def values (t : Table α β) : List β := t.entries.map Prod.snd

def size (t : Table α β) : Nat := t.entries.length

def isEmpty (t : Table α β) : Bool := t.entries.isEmpty

/-- Enters a list of pairs from left to right: of two with one key, the later one counts. -/
def insertAll (t : Table α β) (pairs : List (α × β)) : Table α β :=
  pairs.foldl (fun t p => t.insert p.1 p.2) t

def ofList (pairs : List (α × β)) : Table α β := empty.insertAll pairs

/-! ## The view -/

@[simp] theorem find?_empty (a : α) : (empty : Table α β).find? a = none := rfl

theorem find?_insert (t : Table α β) (a c : α) (b : β) :
    (t.insert a b).find? c = if a = c then some b else t.find? c :=
  lookup_upsert a c b t.entries

@[simp] theorem find?_insert_self (t : Table α β) (a : α) (b : β) :
    (t.insert a b).find? a = some b := by
  simp [find?_insert]

theorem find?_insert_of_ne {t : Table α β} {a c : α} {b : β} (h : a ≠ c) :
    (t.insert a b).find? c = t.find? c := by
  simp [find?_insert, h]

/-! ## The order -/

theorem keys_insert (t : Table α β) (a : α) (b : β) :
    (t.insert a b).keys = if a ∈ t.keys then t.keys else t.keys ++ [a] :=
  map_fst_upsert a b t.entries

theorem nodup_keys (t : Table α β) : t.keys.Nodup := t.nodup

theorem find?_eq_some_iff (t : Table α β) (a : α) (b : β) :
    t.find? a = some b ↔ (a, b) ∈ t.entries :=
  lookup_eq_some t.nodup a b

end Table

end Datapath
