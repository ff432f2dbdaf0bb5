import Datapath.Proofs.Kernel.WellFormed
import Datapath.Proofs.Width.Order

/-!
# The rules as inequalities

Apart from how inference applies it, the rule of an instruction *states* something about an
assignment of widths to values: that of `a + b` is at least that of `a`, an address computation is
exactly as wide as its base. `Instruction.Obeyed` is that statement for each opcode, and
`Kernel.Obeys` asks it of all instructions.

The statement is about any assignment, and an assignment may leave widths unknown, where a rule asks
for nothing. `Instruction.Ready` adds what a rule needs in order to be applied at all: the operands
are there, and those whose width is read have one.
-/

namespace Datapath

namespace Instruction

/-- What the rule of an instruction states about the widths. -/
def Obeyed (w : ValueId → Option Nat) (v : ValueId) (i : Instruction) : Prop :=
  match i.opcode with
  | .add | .sub | .mul | .sdiv | .udiv | .ashr =>
    (∀ l, i.operand? 0 = some l → w l ≤ w v) ∧ ∀ r, i.operand? 1 = some r → w r ≤ w v
  | .icmp => some 1 ≤ w v
  | .getElementPtr => ∀ base, i.operand? 0 = some base → w v = w base
  | .load | .trunc | .zext | .ret => ∀ o, i.operand? 0 = some o → w o ≤ w v
  | .store =>
    ∀ stored, i.operand? 0 = some stored →
      w stored ≤ w v ∧ ∀ address, i.operand? 1 = some address → w stored ≤ w address
  | .br | .condBr => some 0 ≤ w v
  | _ => True

/-- What the rule of an instruction needs in order to be applied. -/
def Ready (w : ValueId → Option Nat) (i : Instruction) : Prop :=
  match i.opcode with
  | .add | .sub | .mul | .sdiv | .udiv | .ashr =>
    (∃ l, i.operand? 0 = some l ∧ (w l).isSome) ∧ ∃ r, i.operand? 1 = some r ∧ (w r).isSome
  | .icmp => (∃ l, i.operand? 0 = some l) ∧ ∃ r, i.operand? 1 = some r
  | .getElementPtr | .load | .trunc | .zext => ∃ o, i.operand? 0 = some o ∧ (w o).isSome
  | .store =>
    (∃ stored, i.operand? 0 = some stored ∧ (w stored).isSome) ∧
      ∃ address, i.operand? 1 = some address
  | .ret => ∀ o, i.operand? 0 = some o → (w o).isSome
  | .br => True
  | .condBr => ∃ condition, i.operand? 0 = some condition
  | _ => False

def handled (i : Instruction) : List ValueId :=
  match i.opcode with
  | .add | .sub | .mul | .sdiv | .udiv | .ashr | .icmp | .store => i.operands.take 2
  | .load | .trunc | .zext | .ret | .condBr => i.operands.take 1
  | .getElementPtr => i.operands
  | _ => []

theorem mem_operands_of_mem_handled {i : Instruction} {o : ValueId} (h : o ∈ i.handled) :
    o ∈ i.operands := by
  unfold handled at h
  split at h
  all_goals first | exact List.mem_of_mem_take h | exact h | cases h

theorem mem_take_of_operand? {i : Instruction} {o : ValueId} {n m : Nat}
    (h : i.operand? n = some o) (hn : n < m) : o ∈ i.operands.take m := by
  apply List.mem_of_getElem? (i := n)
  rw [List.getElem?_take_of_lt hn]
  exact h

theorem eq_of_mem_take_one {i : Instruction} {o a : ValueId} (h : i.operand? 0 = some a)
    (ho : o ∈ i.operands.take 1) : o = a := by
  unfold operand? at h
  cases hi : i.operands with
  | nil => simp [hi] at ho
  | cons b rest => simp_all

/-- The first two operands are the left and the right one. -/
theorem eq_or_eq_of_mem_take_two {i : Instruction} {o a b : ValueId} (ha : i.operand? 0 = some a)
    (hb : i.operand? 1 = some b) (ho : o ∈ i.operands.take 2) : o = a ∨ o = b := by
  unfold operand? at ha hb
  match hi : i.operands with
  | [] => simp [hi] at ho
  | [c] => simp [hi] at hb
  | c :: d :: rest => simp_all

theorem operands_eq_of_operand?_none {i : Instruction} (h : i.operand? 0 = none) :
    i.operands = [] := by
  unfold operand? at h
  cases hi : i.operands with
  | nil => rfl
  | cons b rest => simp [hi] at h

/-- The base stands before the indices. -/
theorem operands_eq_of_elementPointer {i : Instruction} {base : ValueId}
    (opcode : i.opcode = .getElementPtr) (h : i.operand? 0 = some base) :
    i.operands = base :: i.indices := by
  unfold operand? at h
  unfold indices
  rw [opcode]
  cases hi : i.operands with
  | nil => simp [hi] at h
  | cons b rest => simp_all

/-! ## Opcodes that share a rule -/

section

variable {w : ValueId → Option Nat} {v : ValueId} {i : Instruction}

/-- The rule of arithmetic goes through its two operands. -/
theorem handled_of_isArithmetic (h : i.opcode.isArithmetic = true) :
    i.handled = i.operands.take 2 := by
  cases ho : i.opcode <;> simp_all [handled, Opcode.isArithmetic]

/-- It needs the widths of both. -/
theorem ready_of_isArithmetic (h : i.opcode.isArithmetic = true) :
    i.Ready w ↔ (∃ l, i.operand? 0 = some l ∧ (w l).isSome) ∧
      ∃ r, i.operand? 1 = some r ∧ (w r).isSome := by
  cases ho : i.opcode <;> simp_all [Ready, Opcode.isArithmetic]

/-- And it states that the result is no narrower than either. -/
theorem obeyed_of_isArithmetic (h : i.opcode.isArithmetic = true) :
    i.Obeyed w v ↔ (∀ l, i.operand? 0 = some l → w l ≤ w v) ∧
      ∀ r, i.operand? 1 = some r → w r ≤ w v := by
  cases ho : i.opcode <;> simp_all [Obeyed, Opcode.isArithmetic]

/-- Loads, casts and returns go through one operand. -/
theorem handled_of_copy (h : i.opcode ∈ [.load, .trunc, .zext, .ret]) :
    i.handled = i.operands.take 1 := by
  cases ho : i.opcode <;> simp_all [handled]

theorem ready_of_copy (h : i.opcode ∈ [.load, .trunc, .zext, .ret]) {o : ValueId}
    (hop : i.operand? 0 = some o) : i.Ready w ↔ (w o).isSome := by
  cases ho : i.opcode <;> simp_all [Ready]

/-- They are no narrower than that operand. -/
theorem obeyed_of_copy (h : i.opcode ∈ [.load, .trunc, .zext, .ret]) {o : ValueId}
    (hop : i.operand? 0 = some o) : i.Obeyed w v ↔ w o ≤ w v := by
  cases ho : i.opcode <;> simp_all [Obeyed]

end

end Instruction

namespace Kernel

def Obeys (k : Kernel) (w : ValueId → Option Nat) : Prop :=
  ∀ v i, k.instruction? v = some i → i.Obeyed w v

/-- If the value is a constant, it has at least the width that constants start from. -/
def HoldsConstant (k : Kernel) (w : ValueId → Option Nat) (v : ValueId) : Prop :=
  ∀ x c, k.value? v = some x → x.kind = .constant c → some (Width.ofConstant c) ≤ w v

def BasesKnown (k : Kernel) (w : ValueId → Option Nat) : Prop :=
  ∀ v x, k.value? v = some x → x.isBase = true → (w v).isSome

/-- The rule of some instruction goes through a value. -/
def Reads (k : Kernel) (o : ValueId) : Prop := ∃ v i, k.instruction? v = some i ∧ o ∈ i.handled

/-- In the text, an instruction stands behind those it has as operands. -/
def OperandsFirst (k : Kernel) : Prop :=
  ∀ before v after i o, k.instructions = before ++ v :: after → k.instruction? v = some i →
    o ∈ i.operands → (k.instruction? o).isSome → o ∈ before

/-- A text in order of creation has operands first. -/
theorem operandsFirst_of_ascending {k : Kernel} (wf : k.WellFormed)
    (h : k.instructions.Pairwise (·.index < ·.index)) : k.OperandsFirst := by
  intro before v after i o hsplit hi ho hoi
  have hlt := wf.operand_lt hi ho
  have hmem := wf.mem_instructions.mpr (Option.isSome_iff_exists.mp hoi)
  rw [hsplit] at hmem h
  rcases List.mem_append.mp hmem with hmem | hmem
  · exact hmem
  · -- an operand behind its user would have the larger number
    have hafter := (List.pairwise_cons.mp (List.pairwise_append.mp h).2.1).1
    rcases List.mem_cons.mp hmem with rfl | hmem
    · omega
    · have hgt := hafter o hmem
      omega

/-- Wider still holds the constant. -/
theorem HoldsConstant.mono {k : Kernel} {w u : ValueId → Option Nat} {v : ValueId}
    (h : k.HoldsConstant w v) (hle : w v ≤ u v) : k.HoldsConstant u v := by
  intro x c hx hc
  exact Width.le_trans (h x c hx hc) hle

/-- An instruction is no constant. -/
theorem HoldsConstant.of_instruction {k : Kernel} {w : ValueId → Option Nat} {v : ValueId}
    {i : Instruction} (h : k.instruction? v = some i) : k.HoldsConstant w v := by
  intro x c hx hc
  rw [instruction?_of_constant hx hc] at h
  cases h

theorem HoldsConstant.of_isBase {k : Kernel} {w : ValueId → Option Nat} {v : ValueId} {x : Value}
    (h : k.value? v = some x) (base : x.isBase = true) : k.HoldsConstant w v := by
  intro y c hy hc
  obtain rfl : x = y := Option.some.inj (h.symm.trans hy)
  exact absurd hc (isBase_ne_constant base)

/-- Known widths stay known upwards. -/
theorem BasesKnown.mono {k : Kernel} {w u : ValueId → Option Nat} (h : k.BasesKnown w)
    (hle : ∀ v, w v ≤ u v) : k.BasesKnown u := by
  intro v x hx hb
  exact Width.isSome_of_le (hle v) (h v x hx hb)

end Kernel

/-! ## Keeping what is known

Rules that are ready look at known widths only, so nothing that keeps these can break them. -/

/-- The known widths of the first assignment are those of the second. -/
def Extends (w u : ValueId → Option Nat) : Prop := ∀ v a, w v = some a → u v = some a

/-- A comparison between known widths is kept. -/
theorem Extends.le {w u : ValueId → Option Nat} (h : Extends w u) {x y : ValueId}
    (known : (w x).isSome) (hle : w x ≤ w y) : u x ≤ u y := by
  obtain ⟨a, ha⟩ := Option.isSome_iff_exists.mp known
  rw [ha] at hle
  obtain ⟨b, hb, hab⟩ := Width.some_le_iff.mp hle
  rw [h x a ha, h y b hb]
  exact Option.some_le_some.mpr hab

theorem Extends.some_le {w u : ValueId → Option Nat} (h : Extends w u) {v : ValueId} {a : Nat}
    (hle : some a ≤ w v) : some a ≤ u v := by
  obtain ⟨b, hb, hab⟩ := Width.some_le_iff.mp hle
  rw [h v b hb]
  exact Option.some_le_some.mpr hab

theorem Extends.isSome {w u : ValueId → Option Nat} (h : Extends w u) {v : ValueId}
    (known : (w v).isSome) : (u v).isSome := by
  obtain ⟨a, ha⟩ := Option.isSome_iff_exists.mp known
  rw [h v a ha]
  rfl

namespace Instruction

variable {w u : ValueId → Option Nat} {v : ValueId} {i : Instruction}

/-- A rule that can be applied can still be applied when more is known. -/
theorem Ready.mono (h : i.Ready w) (hwu : ∀ v, (w v).isSome → (u v).isSome) : i.Ready u := by
  unfold Ready at *
  split at h
  all_goals first
    | exact ⟨h.1.imp fun _ ho => ⟨ho.1, hwu _ ho.2⟩, h.2.imp fun _ ho => ⟨ho.1, hwu _ ho.2⟩⟩
    | exact ⟨h.1.imp fun _ ho => ⟨ho.1, hwu _ ho.2⟩, h.2⟩
    | exact h.imp fun _ ho => ⟨ho.1, hwu _ ho.2⟩
    | exact fun o ho => hwu _ (h o ho)
    | exact h

/-- **What a ready rule states is kept** wherever the widths that are known are kept. -/
theorem Obeyed.extend (h : i.Obeyed w v) (ready : i.Ready w) (hwu : Extends w u) :
    i.Obeyed u v := by
  cases ho : i.opcode with
  | add | sub | mul | sdiv | udiv | ashr =>
      simp only [Obeyed, Ready, ho] at *
      obtain ⟨⟨l, hl, hlk⟩, r, hr, hrk⟩ := ready
      constructor
      · intro l' hl'
        obtain rfl : l = l' := Option.some.inj (hl.symm.trans hl')
        exact hwu.le hlk (h.1 l hl)
      · intro r' hr'
        obtain rfl : r = r' := Option.some.inj (hr.symm.trans hr')
        exact hwu.le hrk (h.2 r hr)
  | icmp | br | condBr =>
      simp only [Obeyed, ho] at *
      exact hwu.some_le h
  | getElementPtr =>
      simp only [Obeyed, Ready, ho] at *
      obtain ⟨base, hbase, hk⟩ := ready
      intro base' hbase'
      obtain rfl : base = base' := Option.some.inj (hbase.symm.trans hbase')
      -- the base is known, and the address is as wide, so both are kept
      obtain ⟨a, ha⟩ := Option.isSome_iff_exists.mp hk
      rw [hwu base a ha, hwu v a ((h base hbase).trans ha)]
  | load | trunc | zext =>
      simp only [Obeyed, Ready, ho] at *
      obtain ⟨o, hop, hk⟩ := ready
      intro o' hop'
      obtain rfl : o = o' := Option.some.inj (hop.symm.trans hop')
      exact hwu.le hk (h o hop)
  | ret =>
      simp only [Obeyed, Ready, ho] at *
      -- a return has an operand or not; if it has, the operand is known
      exact fun o hop => hwu.le (ready o hop) (h o hop)
  | store =>
      simp only [Obeyed, Ready, ho] at *
      obtain ⟨⟨stored, hs, hk⟩, -⟩ := ready
      intro stored' hs'
      obtain rfl : stored = stored' := Option.some.inj (hs.symm.trans hs')
      exact ⟨hwu.le hk (h stored hs).1, fun address ha => hwu.le hk ((h stored hs).2 address ha)⟩
  | switch | phi | call | and | or | xor | shl | lshr | sext | select => simp [Obeyed, ho]

/-- A rule is about the instruction and the operands that it goes through, and no other value. -/
theorem Obeyed.congr (h : i.Obeyed w v) (hv : w v = u v) (ho : ∀ o ∈ i.handled, w o = u o) :
    i.Obeyed u v := by
  have at_operand {n m : Nat} {o : ValueId} (hop : i.operand? n = some o) (hn : n < m)
      (hm : i.handled = i.operands.take m) : w o = u o :=
    ho o (hm ▸ mem_take_of_operand? hop hn)
  cases hop : i.opcode with
  | add | sub | mul | sdiv | udiv | ashr =>
      simp only [Obeyed, handled, hop] at *
      constructor
      · intro l hl
        exact at_operand hl (by omega) rfl ▸ hv ▸ h.1 l hl
      · intro r hr
        exact at_operand hr (by omega) rfl ▸ hv ▸ h.2 r hr
  | icmp | br | condBr =>
      simp only [Obeyed, hop] at *
      exact hv ▸ h
  | getElementPtr =>
      simp only [Obeyed, handled, hop] at *
      intro base hbase
      rw [← hv, ← ho base (mem_operands_of_operand? hbase)]
      exact h base hbase
  | load | trunc | zext | ret =>
      simp only [Obeyed, handled, hop] at *
      intro o hoper
      exact at_operand hoper (by omega) rfl ▸ hv ▸ h o hoper
  | store =>
      simp only [Obeyed, handled, hop] at *
      intro stored hs
      have hstored := at_operand hs (by omega) rfl
      refine ⟨hstored ▸ hv ▸ (h stored hs).1, fun address ha => ?_⟩
      exact hstored ▸ at_operand ha (by omega) rfl ▸ (h stored hs).2 address ha
  | switch | phi | call | and | or | xor | shl | lshr | sext | select => simp [Obeyed, hop]

end Instruction

end Datapath
