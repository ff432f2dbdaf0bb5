import Datapath.Proofs.Address.Agreement

/-!
# Walking without a trail

`Kernel.access` visits no value twice, and what it has met goes into one trail that both ways of
walking share: from an address to what is done with it, and from any other value to all of its
users. `Kernel.accessAnew` is the same recursion without a trail. A value that is come to in several
ways is walked from each time, and an answer is put together from the answers of the users.

Both answer the same (`Kernel.access_eq_accessAnew`), since each of them says what is accessed
through the value, and only one answer does (`Access.Describes`).
-/

namespace Datapath

open Relation (ReflTransGen)

/-! ## The recursion -/

/-- Answers put together: what is in one of them is in all of them together. -/
def Access.join (parts : List Access) : Access where
  feedsAddress := parts.any (·.feedsAddress)
  reads := parts.any (·.reads)
  writes := parts.any (·.writes)

namespace Kernel

/-- The part that a user of the address `v` has in what is accessed through `v`. Addresses computed
from `v` are left to `next`. -/
def addressUserAnew (k : Kernel) (next : ValueId → Outcome Access) (v user : ValueId) :
    Outcome Access := do
  match (← k.value user).instruction? with
  | none => return .join []
  | some i =>
    match i.opcode with
    | .load => return ⟨false, true, false⟩
    | .store => return ⟨false, false, i.address? = some v⟩
    | .getElementPtr => next user
    | _ => return .join []

/-- How memory is accessed through a value, worked out from what is accessed through its users.
These are looked for among the values defined after. -/
def accessAnew (k : Kernel) (v : ValueId) : Outcome Access := do
  match k.value? v with
  | none => throw (.outOfRange v.index)
  | some x =>
    let next (user : ValueId) : Outcome Access :=
      if _h : v.index < user.index ∧ user.index < k.size then accessAnew k user
      else throw (.outOfRange user.index)
    match x.opcode? with
    | some .getElementPtr =>
      let parts ← (k.usersOf v).mapM (k.addressUserAnew next v)
      return { Access.join parts with feedsAddress := true }
    | some .load => return ⟨false, true, false⟩
    | some .store => return ⟨false, false, true⟩
    | _ =>
      let parts ← (k.usersOf v).mapM next
      return .join parts
termination_by k.size - v.index

end Kernel

/-! ## Answers -/

namespace Access

variable {k : Kernel} {v : ValueId} {a b : Access}

/-- Reads and writes are reported where loads and stores are found. -/
structure Reports (found : Opcode → Prop) (a : Access) : Prop where
  reads : a.reads = true ↔ found .load
  writes : a.writes = true ↔ found .store

/-- The answer is right for `v`. -/
structure Describes (k : Kernel) (v : ValueId) (a : Access) : Prop extends
    Reports (k.AccessedThrough · v) a where
  feedsAddress : a.feedsAddress = true ↔ k.FeedsAddress v

/-- An answer is its three flags, and what is accessed settles each of them. -/
theorem Describes.unique (ha : a.Describes k v) (hb : b.Describes k v) : a = b := by
  have hfeeds := Bool.eq_iff_iff.mpr (ha.feedsAddress.trans hb.feedsAddress.symm)
  have hreads := Bool.eq_iff_iff.mpr (ha.reads.trans hb.reads.symm)
  have hwrites := Bool.eq_iff_iff.mpr (ha.writes.trans hb.writes.symm)
  cases a
  cases b
  congr

/-- Only loads and stores are asked about. -/
theorem Reports.congr {found found' : Opcode → Prop} (h : a.Reports found)
    (same : ∀ {op : Opcode}, op.isAccess = true → (found op ↔ found' op)) : a.Reports found' :=
  ⟨h.reads.trans (same rfl), h.writes.trans (same rfl)⟩

theorem reports_read : Reports (· = .load) ⟨false, true, false⟩ := ⟨by simp, by simp⟩

theorem reports_write : Reports (· = .store) ⟨false, false, true⟩ := ⟨by simp, by simp⟩

theorem reports_join_nil : (join []).Reports fun _ => False := ⟨by simp [join], by simp [join]⟩

/-- A flag of answers put together, if the flag of each says something of one of the users. -/
theorem any_eq_true_iff {flag : Access → Bool} {us : List ValueId} {part : ValueId → Prop}
    {parts : List Access} (h : List.Forall₂ (fun u a => flag a = true ↔ part u) us parts) :
    parts.any flag = true ↔ ∃ u ∈ us, part u := by
  induction h with
  | nil => simp
  | cons hu _ ih => simp [hu, ih]

/-- What is found for all users is what is found for one of them. -/
theorem reports_join {us : List ValueId} {part : ValueId → Opcode → Prop} {parts : List Access}
    (h : List.Forall₂ (fun u a => a.Reports (part u)) us parts) :
    (join parts).Reports fun op => ∃ u ∈ us, part u op where
  reads := any_eq_true_iff (h.imp fun _ _ h => h.reads)
  writes := any_eq_true_iff (h.imp fun _ _ h => h.writes)

end Access

namespace Kernel

open Access

variable {k : Kernel} {v u : ValueId}

/-- The part of a user of an address, where addresses computed from it are answered rightly. -/
theorem exists_addressUserAnew {next : ValueId → Outcome Access} {i : Instruction}
    (hi : k.instruction? u = some i) (walk : ∃ a, next u = .ok a ∧ a.Describes k u) :
    ∃ a, k.addressUserAnew next v u = .ok a ∧ a.Reports (k.AccessedBy v u) := by
  obtain ⟨x, hx, hxi⟩ := Option.bind_eq_some_iff.mp hi
  unfold addressUserAnew
  rw [value_eq_ok.mpr hx]
  simp only [bind, Except.bind, hxi]
  have hpart {op : Opcode} : k.AccessedBy v u op ↔ _ := accessedBy_iff hi
  split
  · next hop => exact ⟨_, rfl, ⟨by simp [hpart, hop], by simp [hpart, hop]⟩⟩
  · next hop => exact ⟨_, rfl, ⟨by simp [hpart, hop], by simp [hpart, hop]⟩⟩
  · next hop =>
    -- an address computed from this one is walked from; it is no access itself
    obtain ⟨a, ha, right⟩ := walk
    refine ⟨a, ha, right.toReports.congr fun {op} access => ?_⟩
    have hne : Opcode.getElementPtr ≠ op := by
      rintro rfl
      cases access
    simp [hpart, hop, hne]
  · next hload hstore haddress =>
    -- every other user neither accesses the address nor computes one from it
    have none {op : Opcode} (access : op.isAccess = true) : False ↔ k.AccessedBy v u op := by
      rw [false_iff, hpart]
      rintro (⟨rfl, -⟩ | ⟨hop, -⟩)
      · exact (Opcode.isAccess_iff.mp access).elim hload hstore
      · exact haddress hop
    exact ⟨_, rfl, reports_join_nil.congr none⟩

/-- **Walking anew succeeds, and the answer is right.** -/
theorem exists_accessAnew (h : k.Consistent) {v : ValueId} (hv : v.index < k.size) :
    ∃ a, k.accessAnew v = .ok a ∧ a.Describes k v := by
  obtain ⟨x, hx⟩ := exists_value? hv
  have hop := opcode?_of_value? hx
  let next (u : ValueId) : Outcome Access :=
    if _h : v.index < u.index ∧ u.index < k.size then k.accessAnew u
    else throw (.outOfRange u.index)
  have walk (u : ValueId) (hu : u ∈ k.usersOf v) : ∃ a, next u = .ok a ∧ a.Describes k u := by
    have hlt := h.user_lt hu
    simp only [next, dif_pos hlt]
    exact exists_accessAnew h hlt.2
  rw [accessAnew, hx]
  simp only
  split
  · next hgep =>
    -- an address: its users are asked what they do with it
    rw [← hop] at hgep
    obtain ⟨parts, hparts, right⟩ := Outcome.exists_mapM_eq_ok_forall₂ fun u hu => by
      obtain ⟨i, hi, -⟩ := h.mem_usersOf.mp hu
      exact exists_addressUserAnew (v := v) hi (walk u hu)
    refine ⟨_, by rw [hparts]; rfl, ?_, by simp [FeedsAddress.address hgep]⟩
    have reports := (reports_join right).congr fun access =>
      (accessedThrough_of_address hgep access).symm
    exact ⟨reports.reads, reports.writes⟩
  · next hload =>
    -- a load answers for itself
    rw [← hop] at hload
    refine ⟨_, rfl, reports_read.congr fun _ => (accessedThrough_of_access hload rfl).symm, ?_⟩
    simp [not_feedsAddress_of_access hload rfl]
  · next hstore =>
    rw [← hop] at hstore
    refine ⟨_, rfl, reports_write.congr fun _ => (accessedThrough_of_access hstore rfl).symm, ?_⟩
    simp [not_feedsAddress_of_access hstore rfl]
  · next hgep hload hstore =>
    -- any other value: the answers of its users are put together
    rw [← hop] at hgep hload hstore
    obtain ⟨parts, hparts, right⟩ := Outcome.exists_mapM_eq_ok_forall₂ walk
    refine ⟨_, by rw [hparts]; rfl, ?_, ?_⟩
    · exact (reports_join (right.imp fun _ _ h => h.toReports)).congr fun access =>
        (accessedThrough_of_data hgep hload hstore access).symm
    · rw [feedsAddress_iff_of_data hgep hload hstore]
      exact any_eq_true_iff (right.imp fun _ _ h => h.feedsAddress)
termination_by k.size - v.index
decreasing_by
  have := h.user_lt hu
  omega

theorem accessedThrough_load_iff : k.AccessedThrough .load v ↔
    ∃ w, ReflTransGen k.Follows v w ∧ (k.opcode? w = some .load ∨
      k.opcode? w = some .getElementPtr ∧ ∃ u ∈ k.usersOf w, k.opcode? u = some .load) := by
  simp [AccessedThrough, AccessedAt, Accesses, opcode?]

theorem accessedThrough_store_iff : k.AccessedThrough .store v ↔
    ∃ w, ReflTransGen k.Follows v w ∧ (k.opcode? w = some .store ∨
      k.opcode? w = some .getElementPtr ∧ ∃ u ∈ k.usersOf w, ∃ i, k.instruction? u = some i ∧
        i.opcode = .store ∧ i.address? = some w) := by
  simp [AccessedThrough, AccessedAt, Accesses]

/-- **Visiting no value twice loses nothing.** For a kernel that was built, the walk from each value
and the recursion that visits values again both succeed, with the same answer. A read is reported if
a way forward leads to a load or to an address that is loaded from, and a write if one leads to a
store or to an address that is stored to. -/
theorem access_eq_accessAnew {name : String} {script : List Step} {k : Kernel}
    (built : Kernel.ofScript? name script = some k) {v : ValueId} (hv : v.index < k.size) :
    ∃ a, k.access v = .ok a ∧ k.accessAnew v = .ok a ∧
      (a.reads = true ↔ ∃ w, ReflTransGen k.Follows v w ∧ (k.opcode? w = some .load ∨
        k.opcode? w = some .getElementPtr ∧ ∃ u ∈ k.usersOf w, k.opcode? u = some .load)) ∧
      (a.writes = true ↔ ∃ w, ReflTransGen k.Follows v w ∧ (k.opcode? w = some .store ∨
        k.opcode? w = some .getElementPtr ∧ ∃ u ∈ k.usersOf w, ∃ i, k.instruction? u = some i ∧
          i.opcode = .store ∧ i.address? = some w)) := by
  have h := ofScript?_consistent built
  obtain ⟨a, ha, reads, writes⟩ := exists_access h hv
  obtain ⟨b, hb, right⟩ := exists_accessAnew h hv
  -- both answers are right, and there is only one right answer
  have describes : a.Describes k v := ⟨⟨reads, writes⟩, feedsAddress_iff_of_access h ha⟩
  obtain rfl := describes.unique right
  exact ⟨a, ha, hb, reads.trans accessedThrough_load_iff, writes.trans accessedThrough_store_iff⟩

/-- Two ways lead from the offset to the cell, and the cell is read and written. -/
theorem access_eq_accessAnew_cell : Kernel.ofScript? "cell" cellScript = some cell ∧
    cell.access ⟨2⟩ = .ok ⟨true, true, true⟩ ∧ cell.accessAnew ⟨2⟩ = .ok ⟨true, true, true⟩ := by
  have built : Kernel.ofScript? "cell" cellScript = some cell := rfl
  have haccess : cell.access ⟨2⟩ = .ok ⟨true, true, true⟩ := by
    rw [← Outcome.toOption_eq_some]
    decide +kernel
  obtain ⟨a, ha, hanew, -⟩ := access_eq_accessAnew built (v := ⟨2⟩) (by decide +kernel)
  obtain rfl := Except.ok.inj (haccess.symm.trans ha)
  exact ⟨built, haccess, hanew⟩

end Kernel

end Datapath
