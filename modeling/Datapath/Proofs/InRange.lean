import Datapath.Address.Written
import Datapath.Proofs.Acceptance

/-!
# Nothing is looked up out of range

`Outcome.InRange` says of a result that it is an answer or a rejection, and `Infer.FaultsAre` says
the same of a step of inference when what it allows for is `Fault.IsRejection`. Both are kept by
sequencing. So it comes down to the places where a number is looked up: in a well-formed kernel
operands are there, and so are the blocks that instructions stand in.

What opcodes or arities an instruction has does not come in. A rule or a walk that meets something
it is not made for rejects it.
-/

namespace Datapath

/-- A fault that has a reason, and is not a number that nobody handed out. -/
def Fault.IsRejection : Fault → Prop
  | .rejected _ => True
  | .outOfRange _ => False

/-! ## Results -/

namespace Outcome

variable {α β : Type}

/-- There is an answer or a rejection. -/
def InRange (x : Outcome α) : Prop := ∀ fault, x = .error fault → fault.IsRejection

namespace InRange

theorem of_exists {x : Outcome α} (h : ∃ a, x = .ok a) : x.InRange := by
  rintro fault hfault
  obtain ⟨a, ha⟩ := h
  cases ha.symm.trans hfault

protected theorem pure (a : α) : InRange (pure a : Outcome α) := .of_exists ⟨a, rfl⟩

protected theorem reject (why : Rejection) : InRange (reject why : Outcome α) := by
  rintro fault hfault
  obtain rfl := reject_eq_error.mp hfault
  trivial

/-- A sequence is in range if its parts are, the second after each answer of the first. -/
theorem bind {x : Outcome α} {f : α → Outcome β} (hx : x.InRange)
    (hf : ∀ a, x = .ok a → (f a).InRange) : (x >>= f).InRange := by
  rintro fault hfault
  rcases bind_eq_error.mp hfault with h | ⟨a, ha, h⟩
  · exact hx fault h
  · exact hf a ha fault h

/-- What is in range and has no answer is rejected. -/
theorem exists_rejection {x : Outcome α} (h : x.InRange) (fails : x.toOption.isNone = true) :
    ∃ why, x = .error (.rejected why) := by
  cases x with
  | ok a => cases fails
  | error fault =>
      cases fault with
      | outOfRange n => exact (h _ rfl).elim
      | rejected why => exact ⟨why, rfl⟩

/-- A fold of steps that are in range from anywhere is in range. -/
protected theorem foldlM {f : β → α → Outcome β} {l : List α}
    (h : ∀ b, ∀ a ∈ l, (f b a).InRange) (b : β) : InRange (l.foldlM f b) := by
  rintro fault hfault
  obtain ⟨c, a, ha, hstep⟩ := exists_of_foldlM_eq_error hfault
  exact h c a ha fault hstep

protected theorem mapM {f : α → Outcome β} {l : List α} (h : ∀ a ∈ l, (f a).InRange) :
    InRange (l.mapM f) := by
  rintro fault hfault
  obtain ⟨a, ha, hstep⟩ := exists_of_mapM_eq_error hfault
  exact h a ha fault hstep

end InRange

end Outcome

namespace Widths

theorem inRange_width (w : Widths) (v : ValueId) : (w.width v).InRange := by
  unfold width
  split
  · exact .pure _
  · exact .reject _

end Widths

namespace Kernel

variable {k : Kernel} {v : ValueId}

theorem inRange_value (hv : v.index < k.size) : (k.value v).InRange := by
  obtain ⟨x, hx⟩ := exists_value? hv
  exact .of_exists ⟨x, value_eq_ok.mpr hx⟩

theorem inRange_block {b : BlockId} (hb : b.index < k.blocks.size) : (k.block b).InRange := by
  refine .of_exists ⟨k.blocks[b.index], ?_⟩
  rw [block, Array.getElem?_eq_getElem hb]

/-- Instructions stand in blocks that are there. -/
theorem WellFormed.block_lt (wf : k.WellFormed) {x : Value} {i : Instruction} {b : BlockId}
    (hx : k.value? v = some x) (hk : x.kind = .instruction i b) : b.index < k.blocks.size := by
  obtain ⟨block, hb, -⟩ := wf.placed hx hk
  exact (Array.getElem?_eq_some_iff.mp hb).1

end Kernel

/-! ## Inference -/

namespace Infer

variable {k : Kernel}

theorem allowsRejections_isRejection : AllowsRejections Fault.IsRejection := fun _ _ => trivial

/-- Handling a value of the kernel looks nothing up out of range, wherever inference stands. -/
theorem rejects_process (wf : k.WellFormed) {v : ValueId} (hv : v.index < k.size) :
    FaultsAre Fault.IsRejection (process k v) := by
  obtain ⟨x, hx⟩ := Kernel.exists_value? hv
  have allows := allowsRejections_isRejection
  refine faultsAre_process_of_rule allows (fun hnone => ?_) fun y i block hy hk => ?_
  · cases hx.symm.trans hnone
  · have hi : k.instruction? v = some i := by
      rw [Kernel.instruction?_of_value? hy, Value.instruction?, hk]
    refine faultsAre_rule allows (fun o ho => ?_) (Kernel.inRange_block (wf.block_lt hy hk))
    -- operands stand before the value, so the lookup among those succeeds
    have hlt := wf.operand_lt hi ho
    rw [if_pos hlt]
    exact rejects_process wf (Nat.lt_trans hlt hv)
termination_by v.index

/-- A pass visits instructions of the kernel, and so no number out of range. -/
theorem rejects_pass (wf : k.WellFormed) : FaultsAre Fault.IsRejection (pass k) := by
  refine faultsAre_pass_of_process fun v hv => ?_
  obtain ⟨i, hi⟩ := wf.mem_instructions.mp hv
  exact rejects_process wf (Kernel.instruction?_lt hi)

end Infer

namespace Kernel

variable {k : Kernel} {v : ValueId}

/-- However many passes there are, each of them stays in range. -/
theorem inRange_settle (wf : k.WellFormed) (fuel : Nat) (p : Progress) :
    (k.settle fuel p).InRange := by
  induction fuel generalizing p with
  | zero => exact .reject _
  | succ fuel ih =>
      rw [settle]
      split
      · next q _ => exact ih q
      · exact .pure _
      · next fault q hpass =>
        -- the pass fails, as passes may
        intro fault' e
        cases e
        exact Infer.rejects_pass wf p fault q hpass

theorem inRange_seeds (wf : k.WellFormed) (o : Overrides) : (k.seeds o).InRange := by
  intro fault h
  cases unseeded_of_seeds wf h <;> trivial

/-- Inference ends in widths or in a rejection. -/
theorem inRange_inferWithin (wf : k.WellFormed) (o : Overrides) (cap : Option Nat) :
    (k.inferWithin o cap).InRange :=
  (inRange_seeds wf o).bind fun _ _ => inRange_settle wf _ _

/-! ## Addresses and indices -/

/-- A trace breaks off for a reason. -/
theorem inRange_basePointer (wf : k.WellFormed) (hv : v.index < k.size) :
    (k.basePointer v).InRange := by
  intro fault h
  obtain ⟨u, rfl⟩ := untraceable_of_basePointer wf hv h
  trivial

theorem inRange_operations (wf : k.WellFormed) (hv : v.index < k.size) :
    (k.operations v).InRange := by
  intro fault h
  obtain ⟨u, o, rfl⟩ := unsupported_of_flatten wf (wf.underlying_lt_size hv) h
  trivial

/-! ## Text -/

theorem inRange_symbol (hv : v.index < k.size) : (k.symbol v).InRange := by
  refine (inRange_value hv).bind fun x _ => ?_
  split
  · exact .reject _
  · next i _ =>
    cases i.opcode with
    | icmp =>
        dsimp only
        split
        · exact .reject _
        · split
          · exact .pure _
          · exact .pure _
          · exact .reject _
    | add | sub | mul | sdiv | udiv | ashr => exact .pure _
    | _ => exact .reject _

theorem inRange_writtenOperand (k : Kernel) (v : ValueId) (i : Instruction) (n : Nat) :
    (k.writtenOperand v i n).InRange := by
  unfold writtenOperand
  split
  · exact .pure _
  · exact .reject _

/-- An operand that is written stands before the instruction. -/
theorem WellFormed.writtenOperand_lt (wf : k.WellFormed) {i : Instruction} {o : ValueId} {n : Nat}
    (hi : k.instruction? v = some i) (h : k.writtenOperand v i n = .ok o) :
    o.index < v.index := by
  unfold writtenOperand at h
  split at h
  · next o' ho =>
    cases h
    exact wf.underlying_lt hi (Instruction.mem_operands_of_operand? ho)
  · cases h

/-- Whatever is mentioned in a text stands before it, down to values that are no instructions. -/
theorem inRange_written (wf : k.WellFormed) {v : ValueId} (hv : v.index < k.size) :
    (k.written v).InRange := by
  obtain ⟨x, hx⟩ := exists_value? hv
  rw [written, hx]
  cases hk : x.kind with
  | argument | global | constant =>
      simp only [hk]
      exact .pure _
  | instruction i block =>
      have hi : k.instruction? v = some i := by
        rw [instruction?_of_value? hx, Value.instruction?, hk]
      -- an operand is looked for below the value, where it is
      have next {o : ValueId} (ho : o.index < v.index) :
          (if _h : o.index < v.index then k.written o
            else throw (.outOfRange o.index) : Outcome String).InRange := by
        rw [dif_pos ho]
        exact inRange_written wf (Nat.lt_trans ho hv)
      have operand (n : Nat) := inRange_writtenOperand k v i n
      have symbol := inRange_symbol (k := k) hv
      simp only [hk]
      cases i.opcode with
      | getElementPtr =>
          refine (operand 0).bind fun base hbase => (next (wf.writtenOperand_lt hi hbase)).bind
            fun _ _ => Outcome.InRange.bind (.mapM fun o ho => ?_) fun _ _ => .pure _
          exact next (wf.underlying_lt hi (Instruction.mem_operands_of_mem_indices ho))
      | load => exact (operand 0).bind fun o ho => next (wf.writtenOperand_lt hi ho)
      | add | sub | ashr =>
          refine (operand 0).bind fun l hl => (next (wf.writtenOperand_lt hi hl)).bind fun _ _ => ?_
          refine symbol.bind fun _ _ => (operand 1).bind fun r hr => ?_
          exact (next (wf.writtenOperand_lt hi hr)).bind fun _ _ => .pure _
      | mul | sdiv =>
          refine (operand 0).bind fun l hl => (next (wf.writtenOperand_lt hi hl)).bind fun _ _ => ?_
          refine symbol.bind fun _ _ => (operand 1).bind fun r hr => ?_
          exact (next (wf.writtenOperand_lt hi hr)).bind fun _ _ => .pure _
      | _ => exact .reject _
termination_by v.index

end Kernel

end Datapath
