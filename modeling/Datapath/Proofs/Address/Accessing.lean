import Datapath.Address.Access
import Datapath.Proofs.Address.Feeding
import Datapath.Proofs.Kernel.Consistent
import Mathlib.Logic.Relation

/-!
# Accessing memory through a value

`Kernel.access` walks over users and visits no value twice. What it reports can be said without the
walk: `Kernel.AccessedThrough op v` says that there is a way from `v`, by the steps that the walk
may take, to an instruction with the opcode `op`.

That a visited value is passed over loses nothing, since its accesses have been met by then
(`Access.Trail.Done`). This holds because users come after what they use: what was visited and is
still being walked from comes before the value at hand.
-/

namespace Datapath

open Access (Trail)

variable {k : Kernel}

/-! ## Ways forward -/

namespace Kernel

/-- The walk goes on from `v` to its user `u`: from an address to addresses computed from it, from a
load or a store nowhere, and from any other value to all users. -/
inductive Follows (k : Kernel) (v u : ValueId) : Prop
  | address (opcode : k.opcode? v = some .getElementPtr) (user : u ∈ k.usersOf v)
      (next : k.opcode? u = some .getElementPtr)
  | data (address : k.opcode? v ≠ some .getElementPtr) (load : k.opcode? v ≠ some .load)
      (store : k.opcode? v ≠ some .store) (user : u ∈ k.usersOf v)

/-- `u` is a load, or a store under the address `v`. -/
def Accesses (k : Kernel) (op : Opcode) (u v : ValueId) : Prop :=
  ∃ i, k.instruction? u = some i ∧ i.opcode = op ∧ (op = .store → i.address? = some v)

/-- At `v` an access is met: `v` is one, or it is an address that one goes to. -/
def AccessedAt (k : Kernel) (op : Opcode) (v : ValueId) : Prop :=
  k.opcode? v = some op ∨
    k.opcode? v = some .getElementPtr ∧ ∃ u ∈ k.usersOf v, k.Accesses op u v

/-- A way forward from `v` leads to an access with the opcode `op`. -/
def AccessedThrough (k : Kernel) (op : Opcode) (v : ValueId) : Prop :=
  ∃ w, Relation.ReflTransGen k.Follows v w ∧ k.AccessedAt op w

variable {op : Opcode} {v u : ValueId}

/-- A way forward is empty, or it begins with a step to a user. -/
theorem accessedThrough_iff : k.AccessedThrough op v ↔
    k.AccessedAt op v ∨ ∃ u, k.Follows v u ∧ k.AccessedThrough op u := by
  constructor
  · rintro ⟨w, way, hw⟩
    rcases way.cases_head with rfl | ⟨u, hu, way⟩
    · exact .inl hw
    · exact .inr ⟨u, hu, w, way, hw⟩
  · rintro (hv | ⟨u, hu, w, way, hw⟩)
    · exact ⟨v, .refl, hv⟩
    · exact ⟨w, .head hu way, hw⟩

/-! One equation for each sort of value that the walk tells apart: -/

/-- The part that a user of the address `v` has in what is accessed through `v`. -/
def AccessedBy (k : Kernel) (v u : ValueId) (op : Opcode) : Prop :=
  k.Accesses op u v ∨ k.opcode? u = some .getElementPtr ∧ k.AccessedThrough op u

/-- Through an address is accessed what its users access, each with its part. -/
theorem accessedThrough_of_address (opcode : k.opcode? v = some .getElementPtr)
    (access : op.isAccess = true) :
    k.AccessedThrough op v ↔ ∃ u ∈ k.usersOf v, k.AccessedBy v u op := by
  have hne : some Opcode.getElementPtr ≠ some op := by
    rintro ⟨⟩
    cases access
  rw [accessedThrough_iff]
  constructor
  · -- an address is no access, so a user accesses it or the way goes on to one
    rintro ((hop | ⟨-, u, hu, haccess⟩) | ⟨u, hfollows, hthrough⟩)
    · exact absurd (opcode.symm.trans hop) hne
    · exact ⟨u, hu, .inl haccess⟩
    · cases hfollows with
      | address _ hu next => exact ⟨u, hu, .inr ⟨next, hthrough⟩⟩
      | data address => exact absurd opcode address
  · rintro ⟨u, hu, haccess | ⟨next, hthrough⟩⟩
    · exact .inl (.inr ⟨opcode, u, hu, haccess⟩)
    · exact .inr ⟨u, .address opcode hu next, hthrough⟩

/-- A load or a store is where the walk stops. -/
theorem accessedThrough_of_access {o : Opcode} (opcode : k.opcode? v = some o)
    (stops : o.isAccess = true) : k.AccessedThrough op v ↔ op = o := by
  rw [accessedThrough_iff]
  constructor
  · rintro ((hop | ⟨hop, -⟩) | ⟨u, hfollows, -⟩)
    · exact Option.some.inj (hop.symm.trans opcode)
    · obtain rfl := Option.some.inj (hop.symm.trans opcode)
      cases stops
    · -- no step leads on from a load or a store
      rcases Opcode.isAccess_iff.mp stops with rfl | rfl
      · cases hfollows with
        | address hop => cases hop.symm.trans opcode
        | data _ load => exact absurd opcode load
      · cases hfollows with
        | address hop => cases hop.symm.trans opcode
        | data _ _ store => exact absurd opcode store
  · rintro rfl
    exact .inl (.inl opcode)

/-- Through any other value is accessed what is accessed through its users. -/
theorem accessedThrough_of_data (address : k.opcode? v ≠ some .getElementPtr)
    (load : k.opcode? v ≠ some .load) (store : k.opcode? v ≠ some .store)
    (access : op.isAccess = true) :
    k.AccessedThrough op v ↔ ∃ u ∈ k.usersOf v, k.AccessedThrough op u := by
  rw [accessedThrough_iff]
  constructor
  · rintro ((hop | ⟨hop, -⟩) | ⟨u, hfollows, hthrough⟩)
    · rcases Opcode.isAccess_iff.mp access with rfl | rfl
      · exact absurd hop load
      · exact absurd hop store
    · exact absurd hop address
    · cases hfollows with
      | address hop => exact absurd hop address
      | data _ _ _ hu => exact ⟨u, hu, hthrough⟩
  · rintro ⟨u, hu, hthrough⟩
    exact .inr ⟨u, .data address load store hu, hthrough⟩

end Kernel

/-! ## Trails -/

namespace Access.Trail

def met (t : Trail) : Opcode → Bool
  | .load => t.reads
  | .store => t.writes
  | _ => false

/-- Everything that is accessed through `v` was met. -/
def Done (k : Kernel) (t : Trail) (v : ValueId) : Prop :=
  ∀ {op : Opcode}, op.isAccess = true → k.AccessedThrough op v → t.met op = true

/-- Between `t` and `t'` the walk has met `found` and nothing else, and it is done with what it has
visited. -/
structure Walked (k : Kernel) (found : Opcode → Prop) (t t' : Trail) : Prop where
  met_iff : ∀ {op : Opcode}, op.isAccess = true → (t'.met op = true ↔ t.met op = true ∨ found op)
  visited : ∀ {w}, w ∈ t'.visited → w ∈ t.visited ∨ t'.Done k w

variable {found more : Opcode → Prop} {t t' t'' : Trail} {v w : ValueId}

theorem Walked.done (h : Walked k found t t') (hw : t.Done k w) : t'.Done k w := by
  intro op access through
  exact (h.met_iff access).mpr (.inl (hw access through))

theorem Walked.congr (h : Walked k found t t') (same : ∀ {op : Opcode}, op.isAccess = true →
      (found op ↔ more op)) : Walked k more t t' where
  met_iff access := by rw [h.met_iff access, same access]
  visited := h.visited

/-- Nothing is met, or nothing that was not met before. -/
theorem Walked.stay (known : ∀ {op : Opcode}, op.isAccess = true → found op → t.met op = true) :
    Walked k found t t where
  met_iff access := ⟨.inl, fun h => h.elim id (known access)⟩
  visited := .inl

/-- Two stretches of the walk meet together what each of them meets. -/
theorem Walked.trans (h : Walked k found t t') (h' : Walked k more t' t'') :
    Walked k (fun op => found op ∨ more op) t t'' where
  met_iff access := by rw [h'.met_iff access, h.met_iff access, or_assoc]
  visited hw := by
    rcases h'.visited hw with hw | hw
    · exact (h.visited hw).imp id h'.done
    · exact .inr hw

theorem walked_read (only : ∀ {op : Opcode}, op.isAccess = true → (found op ↔ op = .load)) :
    Walked k found t { t with reads := true } where
  met_iff access := by
    rw [only access]
    rcases Opcode.isAccess_iff.mp access with rfl | rfl <;> simp [met]
  visited := .inl

theorem walked_write (only : ∀ {op : Opcode}, op.isAccess = true → (found op ↔ op = .store)) :
    Walked k found t { t with writes := true } where
  met_iff access := by
    rw [only access]
    rcases Opcode.isAccess_iff.mp access with rfl | rfl <;> simp [met]
  visited := .inl

/-- The walk is done with everything that it visited among the values after `v`. -/
def DoneAfter (k : Kernel) (v : ValueId) (t : Trail) : Prop :=
  ∀ w ∈ t.visited, v.index < w.index → t.Done k w

/-- What the walk was done with it stays done with, and the new values it is done with as well. -/
theorem Walked.doneAfter (h : Walked k found t t') (ready : t.DoneAfter k v) :
    t'.DoneAfter k v := by
  intro w hw hlt
  rcases h.visited hw with hw | hw
  · exact h.done (ready w hw hlt)
  · exact hw

end Access.Trail

/-! ## The walk -/

namespace Kernel

open Access.Trail

variable {t : Trail} {v : ValueId}

/-- Going through the users of a value, where each is taken in with its part. -/
theorem exists_foldlM_users {β : Type} (trail : β → Trail) (step : β → ValueId → Outcome β)
    (part : ValueId → Opcode → Prop) {us : List ValueId}
    (next : ∀ u ∈ us, ∀ b, (trail b).DoneAfter k v →
      ∃ c, step b u = .ok c ∧ Walked k (part u) (trail b) (trail c))
    {b : β} (ready : (trail b).DoneAfter k v) :
    ∃ c, us.foldlM step b = .ok c ∧
      Walked k (fun op => ∃ u ∈ us, part u op) (trail b) (trail c) := by
  refine Outcome.exists_foldlM_eq_ok (motive := fun done c =>
    Walked k (fun op => ∃ u ∈ done, part u op) (trail b) (trail c)) ?_ (.stay (by simp))
  intro done u rest c hus hwalked
  obtain ⟨d, hd, hu⟩ := next u (by simp [hus]) c (hwalked.doneAfter ready)
  refine ⟨d, hd, (hwalked.trans hu).congr fun _ => ?_⟩
  simp [or_and_right, exists_or]

/-- A user that is followed, with a walk for it at hand. -/
theorem exists_followUser {next : ValueId → Trail → Outcome (Bool × Trail)} {u : ValueId}
    (walk : ∀ t : Trail, (∀ w ∈ t.visited, u.index ≤ w.index → t.Done k w) →
      ∃ b t', next u t = .ok (b, t') ∧ Walked k (k.AccessedThrough · u) t t')
    (hlt : v.index < u.index) (sofar : Bool × Trail) (ready : sofar.2.DoneAfter k v) :
    ∃ c, followUser next sofar u = .ok c ∧
      Walked k (k.AccessedThrough · u) sofar.2 c.2 := by
  unfold followUser
  by_cases hu : u ∈ sofar.2.visited
  · rw [if_pos hu]
    -- visited before, and done with
    exact ⟨sofar, rfl, .stay (ready u hu hlt)⟩
  · rw [if_neg hu]
    obtain ⟨b, t', hnext, hwalked⟩ := walk sofar.2 fun w hw hle => ready w hw (by omega)
    exact ⟨(sofar.1 || b, t'), by rw [hnext]; rfl, hwalked⟩

/-- The part of a user, by its opcode. -/
theorem accessedBy_iff {u : ValueId} {i : Instruction} {op : Opcode}
    (hi : k.instruction? u = some i) : k.AccessedBy v u op ↔
      i.opcode = op ∧ (op = .store → i.address? = some v) ∨
        i.opcode = .getElementPtr ∧ k.AccessedThrough op u := by
  simp [AccessedBy, Accesses, opcode?, hi]

/-- A user of an address that is taken in, with a walk for it at hand. -/
theorem exists_noteAddressUser {next : ValueId → Trail → Outcome (Bool × Trail)} {u : ValueId}
    {i : Instruction} (hi : k.instruction? u = some i)
    (walk : ∀ t : Trail, (∀ w ∈ t.visited, u.index ≤ w.index → t.Done k w) →
      ∃ b t', next u t = .ok (b, t') ∧ Walked k (k.AccessedThrough · u) t t')
    (hlt : v.index < u.index) (t : Trail) (ready : t.DoneAfter k v) :
    ∃ c, noteAddressUser k next v t u = .ok c ∧ Walked k (k.AccessedBy v u) t c := by
  obtain ⟨x, hx, hxi⟩ := Option.bind_eq_some_iff.mp hi
  unfold noteAddressUser
  rw [value_eq_ok.mpr hx]
  simp only [bind, Except.bind, hxi]
  have hpart {op : Opcode} : k.AccessedBy v u op ↔ _ := accessedBy_iff hi
  split
  · next hop =>
    -- a load reads what the address leads to
    refine ⟨_, rfl, walked_read fun {op} _ => ?_⟩
    rw [hpart, hop]
    constructor
    · rintro (⟨rfl, -⟩ | ⟨⟨⟩, -⟩)
      rfl
    · rintro rfl
      exact .inl ⟨rfl, nofun⟩
  · next hop =>
    refine ⟨_, rfl, ?_⟩
    split
    · next haddress =>
      -- a store under the address
      refine walked_write fun {op} _ => ?_
      rw [hpart, hop]
      constructor
      · rintro (⟨rfl, -⟩ | ⟨⟨⟩, -⟩)
        rfl
      · rintro rfl
        exact .inl ⟨rfl, fun _ => haddress⟩
    · next haddress =>
      -- a store that has the address for its value writes nothing there
      refine .stay fun {op} _ h => ?_
      rw [hpart, hop] at h
      rcases h with ⟨rfl, h⟩ | ⟨⟨⟩, -⟩
      exact absurd (h rfl) haddress
  · next hop =>
    -- an address computed from this one: the walk goes on from it
    have hthrough {op : Opcode} (access : op.isAccess = true) :
        k.AccessedThrough op u ↔ k.AccessedBy v u op := by
      rw [hpart, hop]
      constructor
      · exact fun h => .inr ⟨rfl, h⟩
      · rintro (⟨rfl, -⟩ | ⟨-, h⟩)
        · cases access
        · exact h
    by_cases hu : u ∈ t.visited
    · rw [if_pos hu]
      exact ⟨t, rfl, .stay fun access h => ready u hu hlt access ((hthrough access).mpr h)⟩
    · rw [if_neg hu]
      obtain ⟨b, t', hnext, hwalked⟩ := walk t fun w hw hle => ready w hw (by omega)
      exact ⟨t', by rw [hnext]; rfl, hwalked.congr hthrough⟩
  · next hload hstore haddress =>
    -- any other user of an address is ignored
    refine ⟨t, rfl, .stay fun {op} access h => ?_⟩
    rcases hpart.mp h with ⟨rfl, -⟩ | ⟨hop, -⟩
    · rcases Opcode.isAccess_iff.mp access with hop | hop
      · exact absurd hop hload
      · exact absurd hop hstore
    · exact absurd hop haddress

/-- **The walk from a value succeeds and meets what is accessed through the value**, if it is done
with what it has visited from there on. -/
theorem exists_follow (h : k.Consistent) {v : ValueId} (hv : v.index < k.size) (t : Trail)
    (before : ∀ w ∈ t.visited, v.index ≤ w.index → t.Done k w) :
    ∃ b t', k.follow v t = .ok (b, t') ∧ Walked k (k.AccessedThrough · v) t t' := by
  obtain ⟨x, hx⟩ := Option.isSome_iff_exists.mp ((value?_isSome k v).mpr hv)
  have hop := opcode?_of_value? hx
  -- the users of `v` are walked from with `v` among the visited, where it is not done yet
  have enter {found : Opcode → Prop} {t' : Trail}
      (hwalked : Walked k found { t with visited := v :: t.visited } t')
      (same : ∀ {op : Opcode}, op.isAccess = true → (found op ↔ k.AccessedThrough op v)) :
      Walked k (k.AccessedThrough · v) t t' := by
    refine ⟨(hwalked.congr same).met_iff, fun {w} hw => ?_⟩
    rcases hwalked.visited hw with hw | hw
    · -- `v` itself is done once all that is accessed through it was met
      rcases List.mem_cons.mp hw with rfl | hw
      · exact .inr fun access through => ((hwalked.congr same).met_iff access).mpr (.inr through)
      · exact .inl hw
    · exact .inr hw
  have ready : DoneAfter k v { t with visited := v :: t.visited } := by
    intro w hw hlt
    rcases List.mem_cons.mp hw with rfl | hw
    · omega
    · exact before w hw (by omega)
  let next (u : ValueId) (t : Trail) : Outcome (Bool × Trail) :=
    if _h : v.index < u.index ∧ u.index < k.size then k.follow u t
    else throw (.outOfRange u.index)
  have walk (u : ValueId) (hu : u ∈ k.usersOf v) (t : Trail)
      (before : ∀ w ∈ t.visited, u.index ≤ w.index → t.Done k w) :
      ∃ b t', next u t = .ok (b, t') ∧ Walked k (k.AccessedThrough · u) t t' := by
    have hlt := h.user_lt hu
    simp only [next, dif_pos hlt]
    exact exists_follow h hlt.2 t before
  rw [follow, hx]
  simp only
  split
  · next hgep =>
    -- an address
    rw [← hop] at hgep
    obtain ⟨c, hc, hwalked⟩ := exists_foldlM_users id (noteAddressUser k next v)
      (k.AccessedBy v) (fun u hu t ready => by
        obtain ⟨i, hi, -⟩ := h.mem_usersOf.mp hu
        exact exists_noteAddressUser hi (walk u hu) (h.user_lt hu).1 t ready) ready
    refine ⟨true, c, by rw [hc]; rfl, enter hwalked fun access => ?_⟩
    exact (accessedThrough_of_address hgep access).symm
  · next hload =>
    rw [← hop] at hload
    refine ⟨_, _, rfl, enter (walked_read fun _ => ?_) fun _ => Iff.rfl⟩
    exact accessedThrough_of_access hload rfl
  · next hstore =>
    rw [← hop] at hstore
    refine ⟨_, _, rfl, enter (walked_write fun _ => ?_) fun _ => Iff.rfl⟩
    exact accessedThrough_of_access hstore rfl
  · next hgep hload hstore =>
    -- a value that is followed to all of its users
    rw [← hop] at hgep hload hstore
    obtain ⟨⟨b, t'⟩, hc, hwalked⟩ := exists_foldlM_users Prod.snd (followUser next)
      (fun u op => k.AccessedThrough op u) (fun u hu sofar ready =>
        exists_followUser (walk u hu) (h.user_lt hu).1 sofar ready)
      (b := (false, { t with visited := v :: t.visited })) ready
    refine ⟨b, t', hc, enter hwalked fun access => ?_⟩
    exact (accessedThrough_of_data hgep hload hstore access).symm
termination_by k.size - v.index
decreasing_by
  have := h.user_lt hu
  omega

/-- **What is reported of a value** is what is accessed through it. -/
theorem exists_access (h : k.Consistent) {v : ValueId} (hv : v.index < k.size) :
    ∃ a, k.access v = .ok a ∧ (a.reads = true ↔ k.AccessedThrough .load v) ∧
      (a.writes = true ↔ k.AccessedThrough .store v) := by
  obtain ⟨b, t, hfollow, hwalked⟩ := exists_follow h hv {} nofun
  refine ⟨⟨b, t.reads, t.writes⟩, by rw [access, hfollow]; rfl, ?_, ?_⟩
  · have hload := hwalked.met_iff (rfl : Opcode.load.isAccess = true)
    simpa [met] using hload
  · have hstore := hwalked.met_iff (rfl : Opcode.store.isAccess = true)
    simpa [met] using hstore

end Kernel

end Datapath
