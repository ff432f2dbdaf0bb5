import Datapath.Proofs.Width.Faults
import Datapath.Proofs.Written.Formula
import Mathlib.Logic.Relation

/-!
# What can be written

The text of an address or an index is put together from the texts of the values that it *mentions*.
Address computations, loads and most arithmetic have a text, and so has everything that is no
instruction. Comparisons, and casts that are not looked through, have none.

A value can be written if nothing that its text mentions, near or far, is without a text
(`Kernel.exists_written_iff`); otherwise it is refused, and the refusal names something without a
text that is mentioned (`Kernel.unwritable_of_written`).
-/

namespace Datapath

open Relation (ReflTransGen)

def Opcode.isWritable : Opcode → Bool
  | getElementPtr | load | add | sub | ashr | mul | sdiv => true
  | _ => false

/-- The operands that the text of an instruction mentions, in order. -/
def Instruction.mentioned (i : Instruction) : List ValueId :=
  match i.opcode with
  | .getElementPtr => i.operands
  | .load => i.operands.take 1
  | .add | .sub | .ashr | .mul | .sdiv => i.operands.take 2
  | _ => []

theorem Instruction.mem_operands_of_mem_mentioned {i : Instruction} {x : ValueId}
    (h : x ∈ i.mentioned) : x ∈ i.operands := by
  unfold mentioned at h
  split at h
  · exact h
  all_goals first
    | exact List.mem_of_mem_take h
    | cases h

namespace Kernel

variable {k : Kernel} {v w o : ValueId} {i : Instruction} {fault : Fault}

/-- The text of `v` mentions that of `o`, which is one of its operands when a cast is looked
through. -/
def Mentions (k : Kernel) (v o : ValueId) : Prop :=
  ∃ i, k.instruction? v = some i ∧ ∃ x ∈ i.mentioned, k.underlying x = o

def Unwritable (k : Kernel) (v : ValueId) : Prop :=
  ∃ i, k.instruction? v = some i ∧ i.opcode.isWritable = false

/-- Every instruction has the operands that its rule asks for. -/
def Complete (k : Kernel) : Prop :=
  ∀ {v i}, k.instruction? v = some i → i.opcode.arity ≤ i.operands.length

theorem mentions_iff (hi : k.instruction? v = some i) :
    k.Mentions v o ↔ ∃ x ∈ i.mentioned, k.underlying x = o := by
  simp [Mentions, hi]

theorem unwritable_iff (hi : k.instruction? v = some i) :
    k.Unwritable v ↔ i.opcode.isWritable = false := by
  simp [Unwritable, hi]

/-! ## One step -/

/-- Arguments, globals and constants have texts of their own. -/
theorem exists_written_of_instruction?_eq_none (hv : v.index < k.size)
    (hi : k.instruction? v = none) : ∃ text, k.written v = .ok text := by
  obtain ⟨x, hx⟩ := exists_value? hv
  rw [instruction?_of_value? hx, Value.instruction?] at hi
  rw [written, hx]
  cases hk : x.kind with
  | instruction i b => simp [hk] at hi
  | argument | global | constant =>
      simp only [hk]
      exact ⟨_, rfl⟩

/-- An address computation writes its base, and behind it each index in brackets. -/
theorem written_of_elementPointer (wf : k.WellFormed) (hi : k.instruction? v = some i)
    (opcode : i.opcode = .getElementPtr) {base : ValueId} {rest : List ValueId}
    (operands : i.operands = base :: rest) : k.written v = do
      let text ← k.written (k.underlying base)
      let indices ← rest.mapM fun x => k.written (k.underlying x)
      return text ++ String.join (indices.map fun index => "[" ++ index ++ "]") := by
  have below {x : ValueId} (h : x ∈ i.operands) : (k.underlying x).index < v.index :=
    wf.underlying_lt hi h
  have hbase : k.writtenOperand v i 0 = .ok (k.underlying base) :=
    writtenOperand_of_operand? (by simp [Instruction.operand?, operands])
  have hindices : i.indices = rest := by simp [Instruction.indices, opcode, operands]
  obtain ⟨x, b, hx, hk⟩ := exists_kind_of_instruction? hi
  rw [written, hx]
  simp only [hk, opcode, hbase, hindices, bind, Except.bind,
    dif_pos (below (operands ▸ List.mem_cons_self))]
  rw [Outcome.mapM_congr fun y hy => dif_pos (below (operands ▸ List.mem_cons_of_mem base hy))]

/-- A load is written as its address. -/
theorem written_of_load (wf : k.WellFormed) (hi : k.instruction? v = some i)
    (opcode : i.opcode = .load) {address : ValueId} {rest : List ValueId}
    (operands : i.operands = address :: rest) : k.written v = k.written (k.underlying address) := by
  have hlt := wf.underlying_lt hi (operands ▸ List.mem_cons_self : address ∈ i.operands)
  have haddress : k.writtenOperand v i 0 = .ok (k.underlying address) :=
    writtenOperand_of_operand? (by simp [Instruction.operand?, operands])
  obtain ⟨x, b, hx, hk⟩ := exists_kind_of_instruction? hi
  rw [written, hx]
  simp only [hk, opcode, haddress, bind, Except.bind, dif_pos hlt]

/-- Any other instruction is refused. -/
theorem written_of_not_isWritable (hi : k.instruction? v = some i)
    (opcode : i.opcode.isWritable = false) :
    k.written v = .error (.rejected (.unsupportedOpcode k.name v i.opcode)) := by
  obtain ⟨x, b, hx, hk⟩ := exists_kind_of_instruction? hi
  rw [written, hx]
  simp only [hk]
  cases hop : i.opcode <;> rw [hop] at opcode <;> first
    | rfl
    | cases opcode

/-- **The text of an instruction** is put together from those of the operands that it mentions. -/
theorem exists_compose (wf : k.WellFormed) (hi : k.instruction? v = some i)
    (complete : i.opcode.arity ≤ i.operands.length) (opcode : i.opcode.isWritable = true) :
    ∃ compose : List String → String, k.written v = do
      let texts ← i.mentioned.mapM fun x => k.written (k.underlying x)
      return compose texts := by
  have one (harity : i.opcode.arity = 1) : ∃ x rest, i.operands = x :: rest :=
    List.exists_cons_of_length_pos (by omega)
  -- an operation puts its symbol between the texts of its operands
  have two {o : Operator} (hop : i.opcode = o.opcode) : ∃ compose : List String → String,
      k.written v = do
        let texts ← (i.operands.take 2).mapM fun x => k.written (k.underlying x)
        return compose texts := by
    have harity : i.opcode.arity = 2 := by
      rw [hop]
      cases o <;> rfl
    obtain ⟨l, others, hl⟩ := List.exists_cons_of_length_pos (l := i.operands) (by omega)
    obtain ⟨r, rest, hr⟩ := List.exists_cons_of_length_pos (l := others) (by
      rw [hl, List.length_cons] at complete
      omega)
    have operands : i.operands = l :: r :: rest := by rw [hl, hr]
    have left : k.writtenOperand v i 0 = .ok (k.underlying l) :=
      writtenOperand_of_operand? (by simp [Instruction.operand?, operands])
    have right : k.writtenOperand v i 1 = .ok (k.underlying r) :=
      writtenOperand_of_operand? (by simp [Instruction.operand?, operands])
    refine ⟨fun texts => if o.isTight
      then k.parenthesised (k.underlying l) (texts.getD 0 "") ++ " " ++ o.symbol ++ " "
        ++ k.parenthesised (k.underlying r) (texts.getD 1 "")
      else texts.getD 0 "" ++ " " ++ o.symbol ++ " " ++ texts.getD 1 "", ?_⟩
    rw [written_of_operator wf hi hop left right, operands]
    simp
  cases hop : i.opcode <;> rw [hop] at opcode <;> simp only [Instruction.mentioned, hop] <;>
    try cases opcode
  case getElementPtr =>
    obtain ⟨base, rest, operands⟩ := one (by rw [hop]; rfl)
    refine ⟨fun texts => texts.headD "" ++
      String.join (texts.tail.map fun index => "[" ++ index ++ "]"), ?_⟩
    rw [written_of_elementPointer wf hi hop operands, operands]
    simp
  case load =>
    obtain ⟨address, rest, operands⟩ := one (by rw [hop]; rfl)
    refine ⟨fun texts => texts.headD "", ?_⟩
    rw [written_of_load wf hi hop operands, operands]
    simp
  case add => exact two (o := .add) hop
  case sub => exact two (o := .sub) hop
  case mul => exact two (o := .mul) hop
  case sdiv => exact two (o := .div) hop
  case ashr => exact two (o := .shr) hop

/-! ## What has a text -/

/-- **A value is written if everything that is mentioned has a text.** -/
theorem exists_written_iff (wf : k.WellFormed) (complete : k.Complete) {v : ValueId}
    (hv : v.index < k.size) : (∃ text, k.written v = .ok text) ↔
      ∀ w, ReflTransGen k.Mentions v w → ¬ k.Unwritable w := by
  cases hi : k.instruction? v with
  | none =>
      refine iff_of_true (exists_written_of_instruction?_eq_none hv hi) fun w way => ?_
      rcases way.cases_head with rfl | ⟨o, ⟨i, known, -⟩, -⟩
      · simp [Unwritable, hi]
      · simp [hi] at known
  | some i =>
      cases hop : i.opcode.isWritable with
      | false =>
          rw [written_of_not_isWritable hi hop]
          -- the value has no text, and it mentions itself
          refine iff_of_false nofun fun h => h v .refl ((unwritable_iff hi).mpr hop)
      | true =>
          -- one step, and then the induction for what the operands mention
          obtain ⟨compose, heq⟩ := exists_compose wf hi (complete hi) hop
          have hself : ¬ k.Unwritable v := by simp [unwritable_iff hi, hop]
          have below {x : ValueId} (hx : x ∈ i.mentioned) :
              (∃ text, k.written (k.underlying x) = .ok text) ↔ _ :=
            have hlt := wf.underlying_lt hi (Instruction.mem_operands_of_mem_mentioned hx)
            exists_written_iff wf complete (Nat.lt_trans hlt hv)
          rw [heq]
          constructor
          · rintro ⟨text, h⟩ w way
            obtain ⟨texts, htexts, -⟩ := Outcome.bind_eq_ok.mp h
            rcases way.cases_head with rfl | ⟨o, mentions, rest⟩
            · exact hself
            · obtain ⟨x, hx, rfl⟩ := (mentions_iff hi).mp mentions
              exact (below hx).mp (Outcome.exists_of_mapM_eq_ok htexts x hx) w rest
          · intro h
            obtain ⟨texts, htexts⟩ := Outcome.exists_mapM_eq_ok
              (f := fun x => k.written (k.underlying x)) (l := i.mentioned) fun x hx =>
                (below hx).mpr fun w rest => h w (.head ((mentions_iff hi).mpr ⟨x, hx, rfl⟩) rest)
            exact ⟨compose texts, by rw [htexts]; rfl⟩
termination_by v.index

/-- **A refusal names something without a text** that is mentioned. -/
theorem unwritable_of_written (wf : k.WellFormed) (complete : k.Complete) {v : ValueId}
    (hv : v.index < k.size) (h : k.written v = .error fault) :
    ∃ w i, ReflTransGen k.Mentions v w ∧ k.instruction? w = some i ∧
      i.opcode.isWritable = false ∧ fault = .rejected (.unsupportedOpcode k.name w i.opcode) := by
  cases hi : k.instruction? v with
  | none =>
      obtain ⟨text, htext⟩ := exists_written_of_instruction?_eq_none hv hi
      cases htext.symm.trans h
  | some i =>
      cases hop : i.opcode.isWritable with
      | false =>
          rw [written_of_not_isWritable hi hop] at h
          exact ⟨v, i, .refl, hi, hop, (Except.error.inj h).symm⟩
      | true =>
          obtain ⟨compose, heq⟩ := exists_compose wf hi (complete hi) hop
          rw [heq] at h
          rcases Outcome.bind_eq_error.mp h with h | ⟨texts, -, h⟩
          · obtain ⟨x, hx, h⟩ := Outcome.exists_of_mapM_eq_error h
            have hlt := wf.underlying_lt hi (Instruction.mem_operands_of_mem_mentioned hx)
            obtain ⟨w, j, way, hw, unwritable, hfault⟩ :=
              unwritable_of_written wf complete (Nat.lt_trans hlt hv) h
            exact ⟨w, j, .head ((mentions_iff hi).mpr ⟨x, hx, rfl⟩) way, hw, unwritable, hfault⟩
          · cases h
termination_by v.index

end Kernel

end Datapath
