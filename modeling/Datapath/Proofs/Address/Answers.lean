import Datapath.Address.Base
import Datapath.Address.Feeds
import Datapath.Address.Operations
import Datapath.Proofs.Kernel.Consistent

/-!
# Which walks answer

Walks go from a value to its operands or to its users. In a consistent kernel these are values of
the kernel, operands with smaller numbers and users with larger ones, so nothing that a walk looks
up is out of range.

Collecting bases and filling the table of what feeds an address always succeed then. The walk to the
base pointer and the flattening of an index may refuse what they meet, each for one reason. What
either does at an instruction is said once (`findBasePointer_cases`, `flatten_cases`), and whatever
else is proved about them starts from that.
-/

namespace Datapath

namespace Kernel

variable {k : Kernel} {v : ValueId}

theorem exists_value? (hv : v.index < k.size) : ∃ x, k.value? v = some x :=
  Option.isSome_iff_exists.mp ((value?_isSome k v).mpr hv)

/-- Looking through an operand leads further down. -/
theorem WellFormed.underlying_lt (wf : k.WellFormed) {i : Instruction} {o : ValueId}
    (hi : k.instruction? v = some i) (ho : o ∈ i.operands) :
    (k.underlying o).index < v.index := by
  have hlt := wf.operand_lt hi ho
  rcases k.underlying_eq_or_mem o with h | ⟨j, hj, hmem⟩
  · rwa [h]
  · have hlt' := wf.operand_lt hj hmem
    omega

/-- What a value of the kernel is underneath is a value of the kernel. -/
theorem WellFormed.underlying_lt_size (wf : k.WellFormed) (hv : v.index < k.size) :
    (k.underlying v).index < k.size := by
  rcases k.underlying_eq_or_mem v with h | ⟨i, hi, hmem⟩
  · rwa [h]
  · exact wf.operand_lt_size hi hmem

/-! ## Bases -/

/-- Inputs of an address stand before it. -/
theorem WellFormed.input_lt (wf : k.WellFormed) {i : Instruction} {o : ValueId}
    (hi : k.instruction? v = some i) (ho : o ∈ k.addressInputs i) : o.index < v.index := by
  have hbase {o : ValueId} (ho : o ∈ i.address?.toList) : o ∈ i.operands :=
    Instruction.mem_operands_of_address? (Option.mem_toList.mp ho)
  cases hop : i.opcode with
  | getElementPtr =>
      simp only [addressInputs, hop, List.mem_append, List.mem_map] at ho
      rcases ho with ho | ⟨x, hx, rfl⟩
      · -- the base, which is taken as it is
        exact wf.operand_lt hi (hbase ho)
      · -- an index, which is taken through a cast
        exact wf.underlying_lt hi (Instruction.mem_operands_of_mem_indices hx)
  | load =>
      simp only [addressInputs, hop, List.mem_map] at ho
      obtain ⟨x, hx, rfl⟩ := ho
      exact wf.underlying_lt hi (hbase hx)
  | add | sub | mul | sdiv | udiv | ashr =>
      simp only [addressInputs, hop, List.mem_map] at ho
      obtain ⟨x, hx, rfl⟩ := ho
      exact wf.underlying_lt hi hx
  | _ => simp [addressInputs, hop] at ho

/-- Collecting never fails: the inputs of an instruction stand before it, down to values without
any. -/
theorem exists_collectBases (wf : k.WellFormed) {v : ValueId} (hv : v.index < k.size)
    (found : List ValueId) : ∃ bases, k.collectBases found v = .ok bases := by
  obtain ⟨x, hx⟩ := exists_value? hv
  rw [collectBases, hx]
  cases hk : x.kind with
  | constant | argument | global =>
      simp only [hk]
      exact ⟨_, rfl⟩
  | instruction i block =>
      have hi : k.instruction? v = some i := by
        rw [instruction?_of_value? hx, Value.instruction?, hk]
      simp only [hk]
      apply Outcome.exists_foldlM_eq_ok_of_forall
      intro o ho found
      have hlt := wf.input_lt hi ho
      rw [dif_pos hlt]
      exact exists_collectBases wf (Nat.lt_trans hlt hv) found
termination_by v.index

/-- **The bases of an address can be collected.** -/
theorem exists_bases (wf : k.WellFormed) (hv : v.index < k.size) :
    ∃ bases, k.bases v = .ok bases :=
  exists_collectBases wf hv []

/-! ## Base pointers -/

/-- The pointer that an operand of `v` leads to; operands are looked for before `v`. -/
def pointerBelow (k : Kernel) (v o : ValueId) : Outcome (Option ValueId) :=
  if o.index < v.index then k.findBasePointer o else throw (.outOfRange o.index)

/-- An answer from below is that of an operand that stands before. -/
theorem pointerBelow_eq_ok {o : ValueId} {answer : Option ValueId}
    (h : k.pointerBelow v o = .ok answer) :
    o.index < v.index ∧ k.findBasePointer o = .ok answer := by
  unfold pointerBelow at h
  split at h
  · next hlt => exact ⟨hlt, h⟩
  · cases h

theorem pointerBelow_of_lt {o : ValueId} (hlt : o.index < v.index) :
    k.pointerBelow v o = k.findBasePointer o :=
  if_pos hlt

/-- Arguments and globals lead to themselves, if they are pointers, and constants nowhere. -/
theorem findBasePointer_of_instruction?_eq_none {x : Value} (hx : k.value? v = some x)
    (hnone : x.instruction? = none) : k.findBasePointer v = .ok none ∨
      k.findBasePointer v = .ok (some v) ∧ x.isBase = true ∧ x.type.isPointer = true := by
  rw [findBasePointer, hx]
  cases hk : x.kind with
  | instruction => simp [Value.instruction?, hk] at hnone
  | constant c =>
      simp only [hk]
      exact .inl rfl
  | argument n | global =>
      have base : x.isBase = true := by simp [Value.isBase, Value.isArgument, Value.isGlobal, hk]
      simp only [hk]
      by_cases hpointer : x.type.isPointer = true
      · exact .inr ⟨by rw [if_pos hpointer]; rfl, base, hpointer⟩
      · exact .inl (by rw [if_neg hpointer]; rfl)

/-- Loads lead nowhere, an address computation has to lead where its base leads, a sum, a difference
or a product leads where its operands lead, and anything else is refused. -/
theorem findBasePointer_cases {i : Instruction} (hi : k.instruction? v = some i) :
    k.findBasePointer v = .ok none ∨
      (i.opcode = .getElementPtr ∧ ∃ base, i.address? = some base ∧ k.findBasePointer v = do
        match ← k.pointerBelow v base with
        | some pointer => return some pointer
        | none => reject (.untraceableAddress v)) ∨
      ((i.opcode = .add ∨ i.opcode = .sub ∨ i.opcode = .mul) ∧
        k.findBasePointer v = i.operands.findSomeM? fun o => k.pointerBelow v (k.underlying o)) ∨
      k.findBasePointer v = .error (.rejected (.untraceableAddress v)) := by
  obtain ⟨x, hx, hxi⟩ := Option.bind_eq_some_iff.mp hi
  cases hk : x.kind with
  | constant | argument | global => simp [Value.instruction?, hk] at hxi
  | instruction j block =>
      obtain rfl : j = i := by simpa [Value.instruction?, hk] using hxi
      rw [findBasePointer, hx]
      simp only [hk]
      cases hop : j.opcode
      case load => exact .inl rfl
      case getElementPtr =>
        cases ha : j.address? with
        | none => exact .inr (.inr (.inr rfl))
        | some base => exact .inr (.inl ⟨rfl, base, rfl, rfl⟩)
      case add => exact .inr (.inr (.inl ⟨.inl rfl, rfl⟩))
      case sub => exact .inr (.inr (.inl ⟨.inr (.inl rfl), rfl⟩))
      case mul => exact .inr (.inr (.inl ⟨.inr (.inr rfl), rfl⟩))
      all_goals exact .inr (.inr (.inr rfl))

/-- **There is one reason to refuse a base pointer**: the address cannot be traced to one. -/
theorem untraceable_of_findBasePointer (wf : k.WellFormed) {v : ValueId} (hv : v.index < k.size)
    {fault : Fault} (h : k.findBasePointer v = .error fault) :
    ∃ u, fault = .rejected (.untraceableAddress u) := by
  obtain ⟨x, hx⟩ := exists_value? hv
  cases hxi : x.instruction? with
  | none =>
      rcases findBasePointer_of_instruction?_eq_none hx hxi with heq | ⟨heq, -⟩
      · cases heq.symm.trans h
      · cases heq.symm.trans h
  | some i =>
      have hi : k.instruction? v = some i := (instruction?_of_value? hx).trans hxi
      have below {o : ValueId} (hlt : o.index < v.index)
          (h : k.pointerBelow v o = .error fault) :
          ∃ u, fault = .rejected (.untraceableAddress u) := by
        rw [pointerBelow_of_lt hlt] at h
        exact untraceable_of_findBasePointer wf (Nat.lt_trans hlt hv) h
      rcases findBasePointer_cases hi with heq | ⟨-, base, ha, heq⟩ | ⟨-, heq⟩ | heq
      · cases heq.symm.trans h
      · rw [heq] at h
        rcases Outcome.bind_eq_error.mp h with h | ⟨answer, -, h⟩
        · exact below (wf.operand_lt hi (Instruction.mem_operands_of_address? ha)) h
        · -- the base leads nowhere
          cases answer with
          | some pointer => cases h
          | none => exact ⟨v, (Outcome.reject_eq_error.mp h).symm⟩
      · rw [heq] at h
        -- one of the operands is refused
        obtain ⟨o, ho, h⟩ := Outcome.exists_of_findSomeM?_eq_error h
        exact below (wf.underlying_lt hi ho) h
      · exact ⟨v, Except.error.inj (h.symm.trans heq)⟩
termination_by v.index

/-- A base pointer is refused for the same reason. -/
theorem untraceable_of_basePointer (wf : k.WellFormed) (hv : v.index < k.size) {fault : Fault}
    (h : k.basePointer v = .error fault) : ∃ u, fault = .rejected (.untraceableAddress u) := by
  rcases Outcome.bind_eq_error.mp h with h | ⟨answer, -, h⟩
  · exact untraceable_of_findBasePointer wf hv h
  · split at h
    · cases h
    · exact ⟨v, (Outcome.reject_eq_error.mp h).symm⟩

/-! ## Indices -/

/-- Arithmetic is flattened operands first, a load is a leaf, and other instructions are refused. -/
theorem flatten_cases {i : Instruction} (hi : k.instruction? v = some i) :
    (i.opcode.isArithmetic = true ∧ k.flatten v = do
        let earlier ← i.operands.mapM fun o =>
          if _h : (k.underlying o).index < v.index then k.flatten (k.underlying o)
          else throw (.outOfRange (k.underlying o).index)
        return earlier.flatten ++ [v]) ∨
      (i.opcode = .load ∧ k.flatten v = .ok []) ∨
        (i.opcode.isArithmetic = false ∧ i.opcode ≠ .load ∧
          k.flatten v = .error (.rejected (.unsupportedOpcode k.name v i.opcode))) := by
  obtain ⟨x, hx, hxi⟩ := Option.bind_eq_some_iff.mp hi
  rw [flatten, hx]
  simp only [hxi]
  cases hop : i.opcode
  case add | sub | mul | sdiv | udiv | ashr => exact .inl ⟨rfl, rfl⟩
  case load => exact .inr (.inl ⟨rfl, rfl⟩)
  all_goals exact .inr (.inr ⟨rfl, by decide, rfl⟩)

/-- Whatever is no instruction leaves no trace. -/
theorem flatten_of_instruction?_eq_none (hv : v.index < k.size) (hnone : k.instruction? v = none) :
    k.flatten v = .ok [] := by
  obtain ⟨x, hx⟩ := exists_value? hv
  rw [instruction?_of_value? hx] at hnone
  rw [flatten, hx]
  simp only [hnone]
  rfl

/-- **There is one reason to refuse an index**: an instruction that is neither arithmetic nor a load
has no place in it. -/
theorem unsupported_of_flatten (wf : k.WellFormed) {v : ValueId} (hv : v.index < k.size)
    {fault : Fault} (h : k.flatten v = .error fault) :
    ∃ u o, fault = .rejected (.unsupportedOpcode k.name u o) := by
  cases hi : k.instruction? v with
  | none => cases (flatten_of_instruction?_eq_none hv hi).symm.trans h
  | some i =>
      rcases flatten_cases hi with ⟨-, heq⟩ | ⟨-, heq⟩ | ⟨-, -, heq⟩
      · rw [heq] at h
        rcases Outcome.bind_eq_error.mp h with h | ⟨earlier, -, h⟩
        · -- one of the operands has no place
          obtain ⟨o, ho, h⟩ := Outcome.exists_of_mapM_eq_error h
          have hlt := wf.underlying_lt hi ho
          rw [dif_pos hlt] at h
          exact unsupported_of_flatten wf (Nat.lt_trans hlt hv) h
        · cases h
      · cases heq.symm.trans h
      · exact ⟨v, i.opcode, Except.error.inj (h.symm.trans heq)⟩
termination_by v.index

end Kernel

/-! ## Feeding -/

namespace FeedTable

variable {k : Kernel}

/-- Asking goes through, if users can be resolved. -/
theorem exists_ask {next : ValueId → FeedTable → Outcome (Bool × FeedTable)} {v : ValueId}
    (step : ∀ u ∈ k.usersOf v, ∀ t, ∃ c, next u t = .ok c) (t : FeedTable) :
    ∃ c, ask k next v t = .ok c := by
  unfold ask
  split
  · exact ⟨_, rfl⟩
  · exact ⟨_, rfl⟩
  · exact ⟨_, rfl⟩
  · apply Outcome.exists_foldlM_eq_ok_of_forall
    intro u hu sofar
    obtain ⟨c, hc⟩ := step u hu sofar.2
    exact ⟨_, by rw [askUser, hc]; rfl⟩

/-- A value can be resolved, since its users come after it and are finite in number. -/
theorem exists_resolve (h : k.Consistent) (v : ValueId) (t : FeedTable) :
    ∃ c, resolve k v t = .ok c := by
  rw [resolve]
  cases hflag : t.flag? v with
  | some flag => exact ⟨_, rfl⟩
  | none =>
      have step (u : ValueId) (hu : u ∈ k.usersOf v) (t : FeedTable) :
          ∃ c, (if _h : v.index < u.index ∧ u.index < k.size then resolve k u t
            else throw (.outOfRange u.index)) = .ok c := by
        rw [dif_pos (h.user_lt hu)]
        exact exists_resolve h u t
      obtain ⟨c, hc⟩ := exists_ask step (t.record v false)
      exact ⟨_, by simp only [hc]; rfl⟩
termination_by k.size - v.index
decreasing_by
  have := h.user_lt hu
  omega

/-- **The table of what feeds an address can be filled.** -/
theorem exists_ofKernel (h : k.Consistent) : ∃ t, ofKernel k = .ok t := by
  apply Outcome.exists_foldlM_eq_ok_of_forall
  intro v _ t
  obtain ⟨c, hc⟩ := exists_resolve h v t
  exact ⟨c.2, by rw [settle, hc]; rfl⟩

end FeedTable

end Datapath
