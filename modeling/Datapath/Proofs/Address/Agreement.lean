import Datapath.Proofs.Address.Accessing
import Datapath.Proofs.Address.Answers

/-!
# The table and the walk agree

Whether a value feeds an address is asked in two ways. The table of a kernel is filled once and for
all values; `Kernel.access` walks anew from the value it is asked about. Both find out whether users
lead from the value to an address computation (`Kernel.feedsAddress_iff_exists_path`).

The flag of a walk leaves things out: it counts no user that was visited, and nothing that is found
behind an address computation. A flag that a part of the walk returns can therefore be false though
the value feeds an address. Where that happens, a value that feeds an address was visited before,
and the flag of the walk as a whole is true by then. So what is carried along is a statement about
flags that are false: *nothing* that was visited up to here feeds an address (`Flagged`).
-/

namespace Datapath

open Access (Trail)
open Relation (ReflTransGen)

variable {k : Kernel}

/-! ## Paths of users -/

namespace Kernel

/-- A path of users leads on from `v` to `u`, and `v` itself neither is an address computation nor
accesses memory. -/
structure PassesTo (k : Kernel) (v u : ValueId) : Prop where
  address : k.opcode? v ≠ some .getElementPtr
  load : k.opcode? v ≠ some .load
  store : k.opcode? v ≠ some .store
  user : u ∈ k.usersOf v

instance (k : Kernel) (v u : ValueId) : Decidable (k.PassesTo v u) :=
  decidable_of_iff (k.opcode? v ≠ some .getElementPtr ∧ k.opcode? v ≠ some .load ∧
      k.opcode? v ≠ some .store ∧ u ∈ k.usersOf v)
    ⟨fun ⟨address, load, store, user⟩ => ⟨address, load, store, user⟩,
      fun h => ⟨h.address, h.load, h.store, h.user⟩⟩

/-- **A value feeds an address if a path of users ends in an address computation.** -/
theorem feedsAddress_iff_exists_path {v : ValueId} : k.FeedsAddress v ↔
    ∃ w, ReflTransGen k.PassesTo v w ∧ k.opcode? w = some .getElementPtr := by
  constructor
  · intro h
    induction h with
    | address opcode => exact ⟨_, .refl, opcode⟩
    | @user v u load store user _ ih =>
        -- a path may stop at the first address computation that it meets
        by_cases address : k.opcode? v = some .getElementPtr
        · exact ⟨v, .refl, address⟩
        · obtain ⟨w, way, hw⟩ := ih
          exact ⟨w, .head ⟨address, load, store, user⟩ way, hw⟩
  · rintro ⟨w, way, hw⟩
    induction way using ReflTransGen.head_induction_on with
    | refl => exact .address hw
    | head step _ ih => exact .user step.load step.store step.user ih

end Kernel

/-! ## Flags of a walk -/

namespace Access.Trail

variable {t t' t'' : Trail} {v w : ValueId} {b : Bool}

/-- Nothing that was visited among the values after `v` feeds an address. -/
def FeedsNothingAfter (k : Kernel) (v : ValueId) (t : Trail) : Prop :=
  ∀ w ∈ t.visited, v.index < w.index → ¬ k.FeedsAddress w

/-- Nothing that was visited between `t` and `t'` feeds an address. -/
def AddsNoFeed (k : Kernel) (t t' : Trail) : Prop :=
  ∀ w ∈ t'.visited, w ∈ t.visited ∨ ¬ k.FeedsAddress w

theorem AddsNoFeed.trans (h : AddsNoFeed k t t') (h' : AddsNoFeed k t' t'') :
    AddsNoFeed k t t'' :=
  fun w hw => (h' w hw).elim (h w) .inr

theorem FeedsNothingAfter.add (h : t.FeedsNothingAfter k v) (more : AddsNoFeed k t t') :
    t'.FeedsNothingAfter k v :=
  fun w hw hlt => (more w hw).elim (h w · hlt) id

/-- What the flag `b` says of a walk that looks for `found` behind `v`: if it is true then `found`
holds. If it is false then not, and the walk has visited nothing that feeds an address, unless it
started with something of that kind visited. -/
structure Flagged (k : Kernel) (v : ValueId) (found : Prop) (t t' : Trail) (b : Bool) : Prop where
  sound : b = true → found
  nothing : t.FeedsNothingAfter k v → b = false → ¬ found ∧ AddsNoFeed k t t'

theorem Flagged.start (t : Trail) : Flagged k v False t t false :=
  ⟨nofun, fun _ _ => ⟨id, fun _ => .inl⟩⟩

theorem Flagged.congr {found found' : Prop} (h : Flagged k v found t t' b)
    (same : found ↔ found') : Flagged k v found' t t' b where
  sound hb := same.mp (h.sound hb)
  nothing clean hb := (h.nothing clean hb).imp (mt same.mpr) id

end Access.Trail

namespace Kernel

open Access.Trail

variable {t t' : Trail} {v : ValueId} {b : Bool}

/-- One more user is followed, with what walks from it say at hand. -/
theorem flagged_of_followUser {next : ValueId → Trail → Outcome (Bool × Trail)} {u : ValueId}
    {found : Prop} {sofar c : Bool × Trail}
    (walk : ∀ {r b r'}, next u r = .ok (b, r') → Flagged k u (k.FeedsAddress u) r r' b)
    (hlt : v.index < u.index) (before : Flagged k v found t sofar.2 sofar.1)
    (h : followUser next sofar u = .ok c) :
    Flagged k v (found ∨ k.FeedsAddress u) t c.2 c.1 := by
  unfold followUser at h
  split at h
  · next hvisited =>
    -- visited before: it fed no address, or the walk did not start clean
    obtain rfl := Outcome.pure_eq_ok.mp h
    refine ⟨fun hb => .inl (before.sound hb), fun clean hb => ?_⟩
    obtain ⟨hnot, hadds⟩ := before.nothing clean hb
    exact ⟨not_or.mpr ⟨hnot, clean.add hadds u hvisited hlt⟩, hadds⟩
  · obtain ⟨⟨d, r⟩, hnext, h⟩ := Outcome.bind_eq_ok.mp h
    obtain rfl := Outcome.pure_eq_ok.mp h
    have hu := walk hnext
    refine ⟨fun hb => (Bool.or_eq_true_iff.mp hb).imp before.sound hu.sound, fun clean hb => ?_⟩
    obtain ⟨hsofar, hd⟩ := Bool.or_eq_false_iff.mp hb
    obtain ⟨hnot, hadds⟩ := before.nothing clean hsofar
    -- what comes after `u` comes after `v` as well
    have hclean : sofar.2.FeedsNothingAfter k u :=
      fun w hw hw' => clean.add hadds w hw (Nat.lt_trans hlt hw')
    obtain ⟨hnot', hmore⟩ := hu.nothing hclean hd
    exact ⟨not_or.mpr ⟨hnot, hnot'⟩, hadds.trans hmore⟩

/-- A walk that starts by visiting `v`, and finds out about `v` by what comes after. -/
theorem flagged_visit
    (h : Flagged k v (k.FeedsAddress v) { t with visited := v :: t.visited } t' b) :
    Flagged k v (k.FeedsAddress v) t t' b where
  sound := h.sound
  nothing clean hb := by
    have hclean : FeedsNothingAfter k v { t with visited := v :: t.visited } := by
      intro w hw hlt
      -- the value itself is no later than itself
      rcases List.mem_cons.mp hw with rfl | hw
      · omega
      · exact clean w hw hlt
    obtain ⟨hnot, hadds⟩ := h.nothing hclean hb
    refine ⟨hnot, fun w hw => ?_⟩
    rcases hadds w hw with hw | hw
    · rcases List.mem_cons.mp hw with rfl | hw
      · exact .inr hnot
      · exact .inl hw
    · exact .inr hw

/-- **What the flag of a walk says** of the value that the walk starts from. -/
theorem flagged_of_follow (h : k.Consistent) {v : ValueId} {t t' : Trail} {b : Bool}
    (walk : k.follow v t = .ok (b, t')) : Flagged k v (k.FeedsAddress v) t t' b := by
  rw [follow] at walk
  cases hx : k.value? v with
  | none =>
      rw [hx] at walk
      cases walk
  | some x =>
      have hop := opcode?_of_value? hx
      simp only [hx] at walk
      apply flagged_visit
      split at walk
      · next hgep =>
        -- an address computation feeds an address, whatever the walk meets
        obtain ⟨r, -, walk⟩ := Outcome.bind_eq_ok.mp walk
        cases Outcome.pure_eq_ok.mp walk
        exact ⟨fun _ => .address (hop.trans hgep), fun _ hb => Bool.noConfusion hb⟩
      · next hload =>
        cases Outcome.pure_eq_ok.mp walk
        have hnot := k.not_feedsAddress_of_access (hop.trans hload) rfl
        exact ⟨fun hb => Bool.noConfusion hb, fun _ _ => ⟨hnot, fun _ => .inl⟩⟩
      · next hstore =>
        cases Outcome.pure_eq_ok.mp walk
        have hnot := k.not_feedsAddress_of_access (hop.trans hstore) rfl
        exact ⟨fun hb => Bool.noConfusion hb, fun _ _ => ⟨hnot, fun _ => .inl⟩⟩
      · next hgep hload hstore =>
        rw [← hop] at hgep hload hstore
        refine Flagged.congr ?_ (feedsAddress_iff_of_data hgep hload hstore).symm
        -- the invariant says of the users done so far what the flag says of all
        refine Outcome.foldlM_prefix_induction (motive := fun done c =>
          Flagged k v (∃ u ∈ done, k.FeedsAddress u) { t with visited := v :: t.visited } c.2 c.1)
          ?_ ((Flagged.start _).congr (by simp)) walk
        intro done u rest c d hus before hu
        have hlt := h.user_lt (v := v) (u := u) (by simp [hus])
        refine (flagged_of_followUser (fun hnext => ?_) hlt.1 before hu).congr
          (by simp [or_and_right, exists_or])
        rw [dif_pos hlt] at hnext
        exact flagged_of_follow h hnext
termination_by k.size - v.index

/-- **The flag that is reported of a value says whether the value feeds an address.** -/
theorem feedsAddress_iff_of_access (h : k.Consistent) {a : Access} (ha : k.access v = .ok a) :
    a.feedsAddress = true ↔ k.FeedsAddress v := by
  obtain ⟨⟨b, t⟩, walk, ha⟩ := Outcome.bind_eq_ok.mp ha
  obtain rfl := Outcome.pure_eq_ok.mp ha
  have hflag := flagged_of_follow h walk
  refine ⟨hflag.sound, fun hfeeds => ?_⟩
  cases hb : b with
  | true => rfl
  | false => exact absurd hfeeds (hflag.nothing nofun hb).1

/-- **The table and the walk agree.** For a kernel that was built, the table can be filled and the
walk from each value succeeds. Both say the same of the value: whether a path of users, possibly
empty, ends in an address computation and passes before it only through values that neither are
address computations nor access memory. -/
theorem feeds_eq_feedsAddress {name : String} {script : List Step}
    (built : Kernel.ofScript? name script = some k) :
    ∃ t, FeedTable.ofKernel k = .ok t ∧ ∀ v : ValueId, v.index < k.size →
      ∃ a, k.access v = .ok a ∧ t.feeds v = a.feedsAddress ∧
        (a.feedsAddress = true ↔
          ∃ w, ReflTransGen k.PassesTo v w ∧ k.opcode? w = some .getElementPtr) := by
  have h := ofScript?_consistent built
  obtain ⟨t, ht⟩ := FeedTable.exists_ofKernel h
  refine ⟨t, ht, fun v hv => ?_⟩
  obtain ⟨a, ha, -⟩ := exists_access h hv
  have hwalk := feedsAddress_iff_of_access h ha
  refine ⟨a, ha, Bool.eq_iff_iff.mpr ?_, hwalk.trans feedsAddress_iff_exists_path⟩
  rw [hwalk, FeedTable.feeds_iff ht hv]

/-- An offset goes into the address of a row and again into that of a cell in it, and what the cell
holds is scaled by it. -/
def cellScript : List Step :=
  [.param "a" (.pointer (.int 32)), .param "x" (.int 32), .block "entry", .moveTo ⟨0⟩,
    .binary .add ⟨1⟩ ⟨1⟩ "offset", .binary .mul ⟨2⟩ ⟨1⟩ "start", .elementPointer ⟨0⟩ [⟨3⟩] "row",
    .elementPointer ⟨4⟩ [⟨2⟩] "cell", .load ⟨5⟩ "y", .binary .mul ⟨6⟩ ⟨2⟩ "scaled", .store ⟨7⟩ ⟨5⟩,
    .ret none]

def cell : Kernel := (Kernel.ofScript? "cell" cellScript).getD (.empty "cell")

/-- The offset feeds an address, and what is loaded does not. -/
theorem feeds_eq_feedsAddress_cell : Kernel.ofScript? "cell" cellScript = some cell ∧
    ∃ t, FeedTable.ofKernel cell = .ok t ∧ t.feeds ⟨2⟩ = true ∧ t.feeds ⟨6⟩ = false := by
  have built : Kernel.ofScript? "cell" cellScript = some cell := rfl
  obtain ⟨t, ht, hagree⟩ := feeds_eq_feedsAddress built
  refine ⟨built, t, ht, ?_, ?_⟩
  · obtain ⟨a, -, heq, hiff⟩ := hagree ⟨2⟩ (by decide +kernel)
    have first : cell.PassesTo ⟨2⟩ ⟨3⟩ := by decide +kernel
    have second : cell.PassesTo ⟨3⟩ ⟨4⟩ := by decide +kernel
    rw [heq, hiff]
    exact ⟨⟨4⟩, .head first (.single second), by decide +kernel⟩
  · obtain ⟨a, ha, heq, -⟩ := hagree ⟨6⟩ (by decide +kernel)
    have hwalk : (cell.access ⟨6⟩).toOption.map (·.feedsAddress) = some false := by decide +kernel
    rw [ha] at hwalk
    exact heq.trans (Option.some.inj hwalk)

end Kernel

end Datapath
