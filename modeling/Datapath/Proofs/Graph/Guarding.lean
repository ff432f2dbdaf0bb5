import Datapath.Proofs.Graph.Numbering
import Datapath.Proofs.Kernel.Consistent
import Datapath.Proofs.Width.Rules

/-!
# Entering guards

Every conditional branch ends its block, so it is met when guards are entered, and its first two
successors have to be blocks of the kernel. `Kernel.Dangling` is the fault of a branch that leads
elsewhere. There is no other, if the branch has a condition and no block ends in a `switch`, as the
rules of inference demand.
-/

namespace Datapath

/-- The fault of a conditional branch that leads to a block which is not there. -/
inductive Kernel.Dangling (k : Kernel) : Fault → Prop
  | successor {v : ValueId} {i : Instruction} {b : BlockId} (known : k.instruction? v = some i)
      (branches : i.opcode = .condBr) (leads : b ∈ i.successors.take 2)
      (missing : k.blocks.size ≤ b.index) :
      Dangling k (.rejected (.malformed (.unnumberedBlock b)))

namespace Guards

variable {k : Kernel} {w : ValueId → Option Nat} {v : ValueId} {i : Instruction} {block : Block}
  {b : BlockId} {bs : List BlockId} {guards guards' : Guards} {fault : Fault}

/-- A block has a bucket exactly if it is a block of the kernel. -/
theorem exists_bucketOf_iff :
    (∃ n, bucketOf (Graph.numbered k) b = .ok n) ↔ b.index < k.blocks.size := by
  rw [← (Graph.numbers_numbered k).isSome_blockIndex?_iff, bucketOf]
  cases (Graph.numbered k).blockIndex? b <;> simp

theorem bucketOf_eq_error (h : bucketOf (Graph.numbered k) b = .error fault) :
    k.blocks.size ≤ b.index ∧ fault = .rejected (.malformed (.unnumberedBlock b)) := by
  constructor
  · by_contra hlt
    obtain ⟨n, hn⟩ := exists_bucketOf_iff.mpr (Nat.lt_of_not_le hlt)
    cases hn.symm.trans h
  · unfold bucketOf at h
    split at h
    · cases h
    · exact (Outcome.reject_eq_error.mp h).symm

/-- Only the first two successors stand for an outcome. -/
theorem mem_zip_polarities :
    (∃ p, (b, p) ∈ bs.zip [Polarity.whenTrue, Polarity.whenFalse]) ↔ b ∈ bs.take 2 := by
  match bs with
  | [] => simp
  | [c] => simp
  | c :: d :: rest => simp [exists_or]

/-- A terminator enters the guards of the blocks that exist, and fails at any other. -/
theorem dangling_of_enter (hi : k.instruction? v = some i) (ready : i.Ready w)
    (terminates : i.opcode.isTerminator = true)
    (h : enter k (Graph.numbered k) block v i guards = .error fault) : k.Dangling fault := by
  unfold enter at h
  cases hop : i.opcode <;> simp only [hop] at h terminates ready
  case condBr =>
    simp only [Instruction.Ready, hop] at ready
    obtain ⟨c, hc⟩ := ready
    have hcondition : i.condition? = some c := by simp [Instruction.condition?, hop, hc]
    simp only [hcondition] at h
    obtain ⟨g, ⟨b, p⟩, hmem, h⟩ := Outcome.exists_of_foldlM_eq_error h
    rcases Outcome.bind_eq_error.mp h with h | ⟨n, -, h⟩
    · obtain ⟨hle, rfl⟩ := bucketOf_eq_error h
      exact .successor hi hop (mem_zip_polarities.mp ⟨p, hmem⟩) hle
    · cases h
  -- these enter nothing, so they do not fail
  case br | ret => cases h
  -- inference has refused it
  case switch => simp [Instruction.Ready, hop] at ready
  all_goals cases terminates

/-- What a conditional branch entered, it found a bucket for. -/
theorem successor_lt_of_enter (hop : i.opcode = .condBr)
    (h : enter k (Graph.numbered k) block v i guards = .ok guards')
    (hb : b ∈ i.successors.take 2) : b.index < k.blocks.size := by
  unfold enter at h
  simp only [hop] at h
  split at h
  · cases h
  · obtain ⟨p, hmem⟩ := mem_zip_polarities.mpr hb
    obtain ⟨g, g', hstep⟩ := Outcome.exists_of_foldlM_eq_ok h _ hmem
    obtain ⟨n, hn, -⟩ := Outcome.bind_eq_ok.mp hstep
    exact exists_bucketOf_iff.mp ⟨n, hn⟩

/-- What guards a block is the condition of a conditional branch. -/
def Branching (k : Kernel) (guards : Guards) : Prop :=
  ∀ bucket guard, guards.find? bucket = some guard → ∃ v i, k.instruction? v = some i ∧
    i.opcode = .condBr ∧ i.operand? 0 = some guard.condition

/-- A terminator that enters a guard is a conditional branch, and the guard is its condition. -/
theorem branching_enter (hi : k.instruction? v = some i) (hg : Branching k guards)
    (h : enter k (Graph.numbered k) block v i guards = .ok guards') : Branching k guards' := by
  unfold enter at h
  split at h
  · next hop =>
    split at h
    · cases h
    · next c hc =>
      have hc : i.operand? 0 = some c := by simpa [Instruction.condition?, hop] using hc
      refine Outcome.foldlM_induction (motive := Branching k) (fun g ⟨b, p⟩ g' hg hstep => ?_) hg h
      obtain ⟨n, -, hstep⟩ := Outcome.bind_eq_ok.mp hstep
      obtain rfl := Outcome.pure_eq_ok.mp hstep
      intro bucket guard hguard
      rw [Table.find?_insert] at hguard
      split at hguard
      · -- the guard that is entered by this branch
        obtain rfl := Option.some.inj hguard
        exact ⟨v, i, hi, hop, hc⟩
      · exact hg bucket guard hguard
  · obtain rfl := Outcome.pure_eq_ok.mp h
    exact hg
  · obtain rfl := Outcome.pure_eq_ok.mp h
    exact hg
  · cases h

theorem branching_of_ofKernel (h : ofKernel k (Graph.numbered k) = .ok guards) :
    Branching k guards := by
  refine Outcome.foldlM_induction (motive := Branching k) (fun g block g' hg hstep => ?_) ?_ h
  · split at hstep
    · obtain rfl := Outcome.pure_eq_ok.mp hstep
      exact hg
    · split at hstep
      · obtain rfl := Outcome.pure_eq_ok.mp hstep
        exact hg
      · next i hi => exact branching_enter hi hg hstep
  · intro bucket guard hguard
    simp at hguard

/-- **Guards fail at a successor that does not exist.** -/
theorem dangling_of_ofKernel (ready : ∀ v i, k.instruction? v = some i → i.Ready w)
    (h : ofKernel k (Graph.numbered k) = .error fault) : k.Dangling fault := by
  obtain ⟨g, block, -, h⟩ := Outcome.exists_of_foldlM_eq_error h
  split at h
  · cases h
  · next v hv =>
    split at h
    · cases h
    · next i hi =>
      obtain ⟨-, terminates⟩ := Option.filter_eq_some_iff.mp hv
      have terminates : i.opcode.isTerminator = true := by
        simpa [Kernel.opcode?, hi] using terminates
      exact dangling_of_enter hi (ready v i hi) terminates h

/-- A terminator is found at the end of its block. -/
theorem exists_terminator? (h : k.Consistent) (hi : k.instruction? v = some i)
    (terminates : i.opcode.isTerminator = true) :
    ∃ block ∈ k.blocks.toList, k.terminator? block = some v := by
  obtain ⟨x, hx, hxi⟩ := Option.bind_eq_some_iff.mp hi
  cases hk : x.kind with
  | instruction j b =>
      obtain ⟨block, hb, hv⟩ := h.placed hx hk
      refine ⟨block, Array.mem_toList_iff.mpr (Array.mem_of_getElem? hb), ?_⟩
      have hop : k.opcode? v = some i.opcode := by rw [Kernel.opcode?, hi, Option.map_some]
      -- before the end of a block no instruction is a terminator
      have hlast : block.instructions.getLast? = some v := by
        by_contra hne
        have hinner := List.mem_dropLast_of_mem_of_ne_getLast? hv fun e => hne e.symm
        rw [h.terminator_last hb hinner hop] at terminates
        cases terminates
      simp [Kernel.terminator?, hlast, hop, terminates]
  | constant | argument | global => simp [Value.instruction?, hk] at hxi

/-- Where guards can be entered, every terminator has entered those it sets up. -/
theorem exists_enter_of_ofKernel (h : k.Consistent)
    (hg : ofKernel k (Graph.numbered k) = .ok guards) (hi : k.instruction? v = some i)
    (terminates : i.opcode.isTerminator = true) :
    ∃ block before after, enter k (Graph.numbered k) block v i before = .ok after := by
  obtain ⟨block, hblock, hv⟩ := exists_terminator? h hi terminates
  obtain ⟨before, after, hstep⟩ := Outcome.exists_of_foldlM_eq_ok hg block hblock
  simp only [hv, hi] at hstep
  exact ⟨block, before, after, hstep⟩

/-- **Where guards can be entered, the successors exist.** -/
theorem successor_lt_of_ofKernel (h : k.Consistent)
    (hg : ofKernel k (Graph.numbered k) = .ok guards) (hi : k.instruction? v = some i)
    (hop : i.opcode = .condBr) (hb : b ∈ i.successors.take 2) : b.index < k.blocks.size := by
  obtain ⟨block, before, after, hstep⟩ := exists_enter_of_ofKernel h hg hi (by rw [hop]; rfl)
  exact successor_lt_of_enter hop hstep hb

end Guards

end Datapath
