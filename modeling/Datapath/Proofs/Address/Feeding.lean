import Datapath.Address.Feeds
import Datapath.Proofs.Kernel.Consistent

/-!
# Feeding an address

A value feeds an address if its users lead to an address computation, by a path that passes through
no load, no store and no other address computation. `Kernel.FeedsAddress` says so with the path as a
derivation; `feeds_iff` says that the table of a kernel answers the same.

The table is filled by a recursion that reads flags which may still be provisional: a value that is
being resolved is entered with a flag that says nothing about it. Such values come before the one at
hand, and no path leads back to them, so from the value at hand on the flags are right
(`FeedTable.Right`), and resolving keeps it so (`FeedTable.Resolved`).
-/

namespace Datapath

def Opcode.isAccess : Opcode → Bool
  | .load | .store => true
  | _ => false

theorem Opcode.isAccess_iff {o : Opcode} : o.isAccess = true ↔ o = .load ∨ o = .store := by
  cases o <;> simp [isAccess]

variable {k : Kernel}

/-! ## Paths -/

/-- Users lead from a value to an address computation, without passing through memory. -/
inductive Kernel.FeedsAddress (k : Kernel) : ValueId → Prop
  | address {v : ValueId} (opcode : k.opcode? v = some .getElementPtr) : FeedsAddress k v
  | user {v u : ValueId} (load : k.opcode? v ≠ some .load) (store : k.opcode? v ≠ some .store)
      (user : u ∈ k.usersOf v) (rest : FeedsAddress k u) : FeedsAddress k v

/-- What passes through memory feeds no address. -/
theorem Kernel.not_feedsAddress_of_access {v : ValueId} {op : Opcode} (hop : k.opcode? v = some op)
    (access : op.isAccess = true) : ¬ k.FeedsAddress v := by
  intro hfeeds
  cases hfeeds with
  | address hgep =>
      cases hop.symm.trans hgep
      cases access
  | user load store =>
      rcases Opcode.isAccess_iff.mp access with rfl | rfl
      · exact load hop
      · exact store hop

/-- Any other value feeds an address if one of its users does. -/
theorem Kernel.feedsAddress_iff_of_data {v : ValueId} (address : k.opcode? v ≠ some .getElementPtr)
    (load : k.opcode? v ≠ some .load) (store : k.opcode? v ≠ some .store) :
    k.FeedsAddress v ↔ ∃ u ∈ k.usersOf v, k.FeedsAddress u := by
  constructor
  · intro hfeeds
    cases hfeeds with
    | address hop => exact absurd hop address
    | user _ _ hu rest => exact ⟨_, hu, rest⟩
  · rintro ⟨u, hu, hfeeds⟩
    exact .user load store hu hfeeds

namespace FeedTable

variable {t t' t'' : FeedTable} {v w : ValueId}

/-! ## Resolving -/

/-- What is known of a value is right. -/
def Right (k : Kernel) (t : FeedTable) (v : ValueId) : Prop :=
  ∀ flag : Bool, t.flag? v = some flag → (flag = true ↔ k.FeedsAddress v)

/-- Values were resolved between `t` and `t'`: nothing was lost, and whatever is new is right. -/
structure Resolved (k : Kernel) (t t' : FeedTable) : Prop where
  size : t'.flags.size = t.flags.size
  kept : ∀ {v : ValueId}, (t.flag? v).isSome = true → (t'.flag? v).isSome = true
  new : ∀ v, t'.flag? v = t.flag? v ∨ t'.Right k v

theorem Right.congr (h : t.Right k v) (same : t'.flag? v = t.flag? v) : t'.Right k v := by
  intro flag hflag
  exact h flag (same ▸ hflag)

namespace Resolved

theorem refl (t : FeedTable) : Resolved k t t := ⟨rfl, id, fun _ => .inl rfl⟩

/-- What was right stays right. -/
theorem right (h : Resolved k t t') (hv : t.Right k v) : t'.Right k v := by
  rcases h.new v with same | new
  · exact hv.congr same
  · exact new

/-- Two stages of resolving make one. -/
theorem trans (h : Resolved k t t') (h' : Resolved k t' t'') : Resolved k t t'' where
  size := h'.size.trans h.size
  kept := h'.kept ∘ h.kept
  new v := by
    rcases h'.new v with same | new
    · rcases h.new v with same' | new
      · exact .inl (same.trans same')
      · exact .inr (new.congr same)
    · exact .inr new

/-- The provisional flag of `v` goes once the right one is there. -/
theorem record {flag provisional : Bool} (hv : v.index < t.flags.size)
    (h : Resolved k (t.record v provisional) t') (hflag : flag = true ↔ k.FeedsAddress v) :
    Resolved k t (t'.record v flag) := by
  have hsize : t'.flags.size = t.flags.size := h.size.trans (size_record ..)
  have hv' : v.index < t'.flags.size := hsize ▸ hv
  have self : (t'.record v flag).flag? v = some flag := by rw [flag?_record hv', if_pos rfl]
  have other (w : ValueId) (hw : w ≠ v) : (t'.record v flag).flag? w = t'.flag? w := by
    rw [flag?_record hv', if_neg hw]
  have before (w : ValueId) (hw : w ≠ v) : (t.record v provisional).flag? w = t.flag? w := by
    rw [flag?_record hv, if_neg hw]
  refine ⟨(size_record ..).trans hsize, fun {w} hw => ?_, fun w => ?_⟩
  · by_cases e : w = v
    · rw [e, self]
      rfl
    · rw [other w e]
      exact h.kept ((before w e).symm ▸ hw)
  · by_cases e : w = v
    · subst e
      -- `v` itself: its flag is the right one now
      refine .inr fun _ hget => ?_
      obtain rfl := Option.some.inj (self.symm.trans hget)
      exact hflag
    · -- any other value is as it was left
      rcases h.new w with same | new
      · exact .inl ((other w e).trans (same.trans (before w e)))
      · exact .inr (new.congr (other w e))

end Resolved

/-- **Asking finds out whether a value feeds an address**, if users are answered rightly. -/
theorem ask_spec {next : ValueId → FeedTable → Outcome (Bool × FeedTable)} {c : Bool × FeedTable}
    (step : ∀ u ∈ k.usersOf v, ∀ {r b r'}, Resolved k t r → next u r = .ok (b, r') →
      Resolved k r r' ∧ (b = true ↔ k.FeedsAddress u))
    (h : ask k next v t = .ok c) : Resolved k t c.2 ∧ (c.1 = true ↔ k.FeedsAddress v) := by
  unfold ask at h
  split at h
  · next hop =>
    cases h
    exact ⟨.refl t, fun _ => .address hop, fun _ => rfl⟩
  · next hop =>
    cases h
    exact ⟨.refl t, iff_of_false Bool.false_ne_true (k.not_feedsAddress_of_access hop rfl)⟩
  · next hop =>
    cases h
    exact ⟨.refl t, iff_of_false Bool.false_ne_true (k.not_feedsAddress_of_access hop rfl)⟩
  · next hgep hload hstore =>
    rw [k.feedsAddress_iff_of_data hgep hload hstore]
    -- the invariant: the answer so far is that of the users asked so far
    refine Outcome.foldlM_prefix_induction (motive := fun done c =>
      Resolved k t c.2 ∧ (c.1 = true ↔ ∃ u ∈ done, k.FeedsAddress u)) ?_ ⟨.refl t, by simp⟩ h
    rintro done u rest ⟨sofar, r⟩ d hus ⟨hresolved, hsofar⟩ hu
    obtain ⟨⟨b, r'⟩, hnext, hd⟩ := Outcome.bind_eq_ok.mp hu
    obtain rfl := Outcome.pure_eq_ok.mp hd
    obtain ⟨hr, hb⟩ := step u (by simp [hus]) hresolved hnext
    refine ⟨hresolved.trans hr, ?_⟩
    show (sofar || b) = true ↔ _
    rw [Bool.or_eq_true, hsofar, hb]
    simp [or_and_right, exists_or]

/-- **Resolving a value answers whether it feeds an address**, if the flags from there on are right
before. -/
theorem resolve_spec {v : ValueId} {t t' : FeedTable} {b : Bool} (size : t.flags.size = k.size)
    (hv : v.index < k.size) (before : ∀ w : ValueId, v.index ≤ w.index → t.Right k w)
    (h : resolve k v t = .ok (b, t')) :
    Resolved k t t' ∧ t'.flag? v = some b ∧ (b = true ↔ k.FeedsAddress v) := by
  rw [resolve] at h
  cases hflag : t.flag? v with
  | some flag =>
      -- the flag is known, and right
      simp only [hflag] at h
      cases Outcome.pure_eq_ok.mp h
      exact ⟨.refl t, hflag, before v (Nat.le_refl _) b hflag⟩
  | none =>
      simp only [hflag] at h
      obtain ⟨⟨flag, r⟩, hask, h⟩ := Outcome.bind_eq_ok.mp h
      cases Outcome.pure_eq_ok.mp h
      have hv' : v.index < t.flags.size := size ▸ hv
      obtain ⟨hresolved, hiff⟩ := ask_spec (fun u _ s c s' hs hnext => by
        split at hnext
        · next hlt =>
          -- of the values from `v` on only `v` has a provisional flag, and `u` comes after it
          have hright (w : ValueId) (hw : u.index ≤ w.index) : s.Right k w := by
            refine hs.right ((before w (by omega)).congr ?_)
            rw [flag?_record hv', if_neg (by rintro rfl; omega)]
          have hsize : s.flags.size = k.size := by rw [hs.size, size_record, size]
          obtain ⟨hs', -, hc⟩ := resolve_spec hsize hlt.2 hright hnext
          exact ⟨hs', hc⟩
        · cases hnext) hask
      refine ⟨hresolved.record hv' hiff, ?_, hiff⟩
      rw [flag?_record (by rwa [hresolved.size, size_record]), if_pos rfl]
termination_by k.size - v.index

/-- **The table of a kernel answers whether a value feeds an address.** -/
theorem feeds_iff {t : FeedTable} (h : ofKernel k = .ok t) {v : ValueId} (hv : v.index < k.size) :
    t.feeds v = true ↔ k.FeedsAddress v := by
  -- nothing has a provisional flag between one question and the next
  obtain ⟨-, hright, hasked⟩ := Outcome.foldlM_prefix_induction (motive := fun done t =>
    t.flags.size = k.size ∧ (∀ w, t.Right k w) ∧ ∀ w ∈ done, (t.flag? w).isSome = true)
    (fun done w rest t t' hids ⟨hsize, hright, hdone⟩ hw => by
      obtain ⟨⟨b, r⟩, hresolve, hr⟩ := Outcome.bind_eq_ok.mp hw
      obtain rfl := Outcome.pure_eq_ok.mp hr
      have hlt : w.index < k.size := Kernel.mem_ids.mp (by simp [hids])
      obtain ⟨hresolved, hget, -⟩ := resolve_spec hsize hlt (fun w _ => hright w) hresolve
      refine ⟨hresolved.size.trans hsize, fun u => hresolved.right (hright u), fun u hu => ?_⟩
      rcases List.mem_append.mp hu with hu | hu
      · -- resolved before
        exact hresolved.kept (hdone u hu)
      · obtain rfl := List.mem_singleton.mp hu
        rw [hget]
        rfl)
    ⟨by simp [unresolved], fun w flag hflag => by simp at hflag, nofun⟩ h
  obtain ⟨flag, hflag⟩ := Option.isSome_iff_exists.mp (hasked v (Kernel.mem_ids.mpr hv))
  rw [feeds, hflag, Option.getD_some]
  exact hright v flag hflag

end FeedTable

end Datapath
