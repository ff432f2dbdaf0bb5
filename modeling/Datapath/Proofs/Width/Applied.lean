import Datapath.Proofs.Width.Growth

/-!
# What an applied rule leaves behind

Handling an instruction applies its rule, and afterwards the rule was ready: its operands are there,
count as handled and, where they were read, have widths. Whether the rule is also *obeyed* is
another question. It is right after it was applied, but a width that it read may grow later.

So `Handles.obeyed` asks for a stretch that is `Calm`: no recorded width changes, and at most
constants come in, with the widths that they start from. `Handles.le_of_obeys` is the bound from
above, which needs nothing of the sort.
-/

namespace Datapath

/-! ## Readiness -/

/-- What a rule leaves behind. -/
structure Progress.Applied (p : Progress) (i : Instruction) : Prop where
  ready : i.Ready p.width?
  handled : ∀ o ∈ i.handled, o ∈ p.visited

theorem Progress.Applied.mono {p q : Progress} {i : Instruction} (h : p.Applied i)
    (hpq : p.Before q) : q.Applied i where
  ready := h.ready.mono fun u => Width.isSome_of_le (hpq.width u)
  handled := fun o ho => hpq.visited o (h.handled o ho)

namespace Handles

variable {k : Kernel} {vs : List ValueId} {v : ValueId} {i : Instruction} {p q : Progress}
  {c : Bool}

theorem applied_self (h : Handles k [v] p c q) (new : v ∉ p.visited)
    (hi : k.instruction? v = some i) : q.Applied i := by
  -- operands that a rule goes through count as handled once each of them was visited
  have two {a b : ValueId} {q : Progress} (ha : i.operand? 0 = some a)
      (hb : i.operand? 1 = some b) (hqa : a ∈ q.visited) (hqb : b ∈ q.visited) :
      ∀ o ∈ i.operands.take 2, o ∈ q.visited := by
    intro o ho
    rcases Instruction.eq_or_eq_of_mem_take_two ha hb ho with rfl | rfl
    · exact hqa
    · exact hqb
  have one {a : ValueId} {q : Progress} (ha : i.operand? 0 = some a) (hqa : a ∈ q.visited) :
      ∀ o ∈ i.operands.take 1, o ∈ q.visited := by
    intro o ho
    exact Instruction.eq_of_mem_take_one ha ho ▸ hqa
  cases h with
  -- a value that counted as handled before is not handled here
  | visited _ old => exact absurd old new
  -- arguments, globals and constants are no instructions
  | seeded hx _ base | natural hx _ base =>
      rw [Kernel.instruction?_of_isBase hx base] at hi
      cases hi
  | constant hx _ kind =>
      rw [Kernel.instruction?_of_constant hx kind] at hi
      cases hi
  -- the left operand was read before the right one was visited, and has kept its width
  | @arithmetic _ l r j _ q s _ _ a b known _ opcode left h width right h' width' =>
      obtain rfl : i = j := Option.some.inj (hi.symm.trans known)
      have hl := Width.isSome_of_le (h'.le l) (by rw [width]; rfl)
      have hlq := h'.visited_subset (h.mem_visited l List.mem_cons_self)
      have hrq := h'.mem_visited r List.mem_cons_self
      refine Progress.Applied.mono ⟨?_, ?_⟩ (Progress.Before.refl s).raise
      · exact (Instruction.ready_of_isArithmetic opcode).mpr
          ⟨⟨l, left, hl⟩, r, right, by rw [width']; rfl⟩
      · rw [Instruction.handled_of_isArithmetic opcode]
        exact two left right hlq hrq
  | @comparison _ l r j _ q s _ _ known _ opcode left h right h' =>
      obtain rfl : i = j := Option.some.inj (hi.symm.trans known)
      have hlq := h'.visited_subset (h.mem_visited l List.mem_cons_self)
      have hrq := h'.mem_visited r List.mem_cons_self
      refine Progress.Applied.mono ⟨?_, ?_⟩ (Progress.Before.refl s).raise
      · simp only [Instruction.Ready, opcode]
        exact ⟨⟨l, left⟩, r, right⟩
      · simp only [Instruction.handled, opcode]
        exact two left right hlq hrq
  | @elementPointer _ base j _ q _ _ a _ known _ opcode start h width _ raised =>
      obtain rfl : i = j := Option.some.inj (hi.symm.trans known)
      subst raised
      refine Progress.Applied.mono ⟨?_, ?_⟩ (Progress.Before.refl q).raise.raise
      · simp only [Instruction.Ready, opcode]
        exact ⟨base, start, by rw [width]; rfl⟩
      · simp only [Instruction.handled, opcode]
        rw [Instruction.operands_eq_of_elementPointer opcode start]
        exact h.mem_visited
  | @copy _ o j _ q _ a known _ opcode operand h width =>
      obtain rfl : i = j := Option.some.inj (hi.symm.trans known)
      refine Progress.Applied.mono ⟨?_, ?_⟩ (Progress.Before.refl q).raise
      · exact (Instruction.ready_of_copy opcode operand).mpr (by rw [width]; rfl)
      · rw [Instruction.handled_of_copy opcode]
        exact one operand (h.mem_visited o List.mem_cons_self)
  -- raising the address and then the store takes no width away
  | @store _ stored address j _ q s _ _ _ a known _ opcode data h width target h' raised =>
      obtain rfl : i = j := Option.some.inj (hi.symm.trans known)
      subst raised
      have hs := Width.isSome_of_le (h'.le stored) (by rw [width]; rfl)
      have hsq := h'.visited_subset (h.mem_visited stored List.mem_cons_self)
      have haq := h'.mem_visited address List.mem_cons_self
      refine Progress.Applied.mono ⟨?_, ?_⟩ (Progress.Before.refl s).raise.raise
      · simp only [Instruction.Ready, opcode]
        exact ⟨⟨stored, data, hs⟩, address, target⟩
      · simp only [Instruction.handled, opcode]
        exact two data target hsq haq
  | @returnVoid _ j _ known _ opcode bare =>
      obtain rfl : i = j := Option.some.inj (hi.symm.trans known)
      constructor
      · simp [Instruction.Ready, opcode, bare]
      · simp only [Instruction.handled, opcode]
        simp [Instruction.operands_eq_of_operand?_none bare]
  | @jump _ j _ known _ opcode =>
      obtain rfl : i = j := Option.some.inj (hi.symm.trans known)
      constructor <;> simp [Instruction.Ready, Instruction.handled, opcode]
  | @branch _ condition j _ q _ known _ opcode operand h =>
      obtain rfl : i = j := Option.some.inj (hi.symm.trans known)
      refine Progress.Applied.mono ⟨?_, ?_⟩ (Progress.Before.refl q).raise
      · simp only [Instruction.Ready, opcode]
        exact ⟨condition, operand⟩
      · simp only [Instruction.handled, opcode]
        exact one operand (h.mem_visited condition List.mem_cons_self)

/-- Each instruction that came to count as handled has had its rule applied. -/
theorem applied (h : Handles k vs p c q) (hi : k.instruction? v = some i) (new : v ∉ p.visited)
    (old : v ∈ q.visited) : q.Applied i := by
  obtain ⟨p', d, q', hw⟩ := h.exists_within new old
  exact (hw.run.applied_self hw.new hi).mono hw.after

end Handles

/-! ## Calm stretches -/

/-- From one stage to another no recorded width changes, and what is recorded in addition are
constants with the widths that they start from. -/
def Progress.Calm (k : Kernel) (p q : Progress) : Prop :=
  ∀ u, q.width? u = p.width? u ∨ p.width? u = none ∧
    ∃ x c, k.value? u = some x ∧ x.kind = .constant c ∧ q.width? u = some (Width.ofConstant c)

namespace Progress.Calm

variable {k : Kernel} {p q r s : Progress}

protected theorem refl (p : Progress) : p.Calm k p := fun _ => .inl rfl

protected theorem trans (h : p.Calm k q) (h' : q.Calm k r) : p.Calm k r := by
  intro u
  -- a constant that came in on the first stretch stays on the second
  rcases h u with hpq | ⟨hp, x, c, hx, hk, hq⟩
  · rw [← hpq]
    exact h' u
  · rcases h' u with hqr | ⟨hq', -⟩
    · exact .inr ⟨hp, x, c, hx, hk, hqr.trans hq⟩
    · rw [hq] at hq'
      cases hq'

/-- Within a calm stretch, whatever is recorded at one stage is the same at a later one. Between the
ends a constant could only be narrower than at the end, which is as narrow as it can be. -/
theorem keeps (h : p.Calm k q) (hpr : p.Before r) (hr : r.Started k) (hrs : r.Before s)
    (hsq : s.Before q) : Extends r.width? s.width? := by
  intro u a ha
  have hle : s.width? u ≤ some a := by
    -- known at the first stage, or a constant that came in later
    rcases h u with hpq | ⟨-, x, c, hx, hk, hq⟩
    · rw [← ha]
      exact Width.le_trans (hsq.width u) (hpq ▸ hpr.width u)
    · have hc := hr u (.inr (by rw [ha]; rfl)) x c hx hk
      rw [ha] at hc
      exact Width.le_trans (hsq.width u) (hq ▸ hc)
  exact Width.le_antisymm hle (ha ▸ hrs.width u)

end Progress.Calm

/-! ## Obedience -/

namespace Handles

variable {k : Kernel} {vs : List ValueId} {v : ValueId} {i : Instruction} {p q : Progress}
  {c : Bool}

/-- A rule is obeyed after it was applied, if nothing that was read on the way has changed since. -/
theorem obeyed_self (wf : k.WellFormed) (h : Handles k [v] p c q) (new : v ∉ p.visited)
    (hi : k.instruction? v = some i) (started : p.Started k)
    (keeps : ∀ r, p.Before r → r.Started k → r.Before q → Extends r.width? q.width?) :
    i.Obeyed q.width? v := by
  have marked : (p.mark v).Started k := started.mark (.of_instruction hi)
  have hmark := Progress.Before.mark p v
  cases h with
  | visited _ old => exact absurd old new
  | seeded hx _ base | natural hx _ base =>
      rw [Kernel.instruction?_of_isBase hx base] at hi
      cases hi
  | constant hx _ kind =>
      rw [Kernel.instruction?_of_constant hx kind] at hi
      cases hi
  | @arithmetic _ l r j _ q s _ _ a b known _ opcode left h width right h' width' =>
      obtain rfl : i = j := Option.some.inj (hi.symm.trans known)
      have hq := h.started marked
      have hl := keeps q (hmark.trans h.before) hq h'.before.raise l a width
      have hr := keeps s ((hmark.trans h.before).trans h'.before) (h'.started hq)
        (Progress.Before.refl s).raise r b width'
      have hv := s.le_raise_self v (max a b)
      rw [Instruction.obeyed_of_isArithmetic opcode]
      constructor
      · intro o ho
        obtain rfl : l = o := Option.some.inj (left.symm.trans ho)
        rw [hl]
        exact Width.le_trans (Option.some_le_some.mpr (Nat.le_max_left a b)) hv
      · intro o ho
        obtain rfl : r = o := Option.some.inj (right.symm.trans ho)
        rw [hr]
        exact Width.le_trans (Option.some_le_some.mpr (Nat.le_max_right a b)) hv
  | @comparison _ l r j _ q s _ _ known _ opcode =>
      obtain rfl : i = j := Option.some.inj (hi.symm.trans known)
      simp only [Instruction.Obeyed, opcode]
      exact s.le_raise_self v 1
  | @elementPointer _ base j _ q s _ a bits known _ opcode start h width wider raised =>
      obtain rfl : i = j := Option.some.inj (hi.symm.trans known)
      have hbase := keeps q (hmark.trans h.before) (h.started marked)
        (raised ▸ (Progress.Before.refl q).raise.raise) base a width
      -- the base stands before the address, so raising the one leaves the other alone
      have hlt := wf.operand_lt hi (Instruction.mem_operands_of_operand? start)
      have hne : base ≠ v := fun e => by simp [e] at hlt
      -- both ends are as wide as was joined into them, and the base was that wide to begin with
      have hv : (s.raise base bits).width? v = some bits := by
        rw [Progress.width?_raise_of_ne hne, raised, Progress.width?_raise_self]
        exact Width.join_eq_right (by omega)
      have hle : some bits ≤ some a := hbase ▸ s.le_raise_self base bits
      have hbits : bits = a := by
        rw [Option.some_le_some] at hle
        omega
      simp only [Instruction.Obeyed, opcode]
      intro base' hbase'
      obtain rfl : base = base' := Option.some.inj (start.symm.trans hbase')
      rw [hv, hbase, hbits]
  | @copy _ o j _ q _ a known _ opcode operand h width =>
      obtain rfl : i = j := Option.some.inj (hi.symm.trans known)
      have ho := keeps q (hmark.trans h.before) (h.started marked) (Progress.Before.refl q).raise
        o a width
      rw [Instruction.obeyed_of_copy opcode operand, ho]
      exact q.le_raise_self v a
  | @store _ stored address j _ q s _ _ _ a known _ opcode data h width target h' raised =>
      obtain rfl : i = j := Option.some.inj (hi.symm.trans known)
      subst raised
      -- what is stored was read before the address was visited
      have hs := keeps q (hmark.trans h.before) (h.started marked) h'.before.raise.raise
        stored a width
      simp only [Instruction.Obeyed, opcode]
      intro stored' hstored
      obtain rfl : stored = stored' := Option.some.inj (data.symm.trans hstored)
      rw [hs]
      refine ⟨Progress.le_raise_self _ v a, fun address' haddress => ?_⟩
      obtain rfl : address = address' := Option.some.inj (target.symm.trans haddress)
      exact Width.le_trans (s.le_raise_self address a) (Progress.le_raise _ v a address)
  | @returnVoid _ j _ known _ opcode bare =>
      obtain rfl : i = j := Option.some.inj (hi.symm.trans known)
      simp [Instruction.Obeyed, opcode, bare]
  | @jump _ j _ known _ opcode =>
      obtain rfl : i = j := Option.some.inj (hi.symm.trans known)
      simp only [Instruction.Obeyed, opcode]
      exact (p.mark v).le_raise_self v 0
  | @branch _ condition j _ q _ known _ opcode =>
      obtain rfl : i = j := Option.some.inj (hi.symm.trans known)
      simp only [Instruction.Obeyed, opcode]
      exact q.le_raise_self v 0

/-- **After a calm stretch, the rules of the instructions handled on it are obeyed.** -/
theorem obeyed (wf : k.WellFormed) (h : Handles k vs p c q) (calm : p.Calm k q)
    (started : p.Started k) (hi : k.instruction? v = some i) (new : v ∉ p.visited)
    (old : v ∈ q.visited) : i.Obeyed q.width? v := by
  obtain ⟨p', d, q', hw⟩ := h.exists_within new old
  have started' := hw.started started
  have keeps : ∀ r, p'.Before r → r.Started k → r.Before q' → Extends r.width? q'.width? := by
    intro r hr hrs hrq
    exact calm.keeps (hw.before.trans hr) hrs hrq hw.after
  have hobeyed := hw.run.obeyed_self wf hw.new hi started' keeps
  -- what the rule read when it was applied is still what is recorded at the end
  have hext := calm.keeps (hw.before.trans hw.run.before) (hw.run.started started') hw.after
    (.refl q)
  exact hobeyed.extend (hw.run.applied_self hw.new hi).ready hext

/-! ## A bound from above -/

/-- **Inference stays below every assignment that obeys the rules**, if it starts below it and the
assignment has room for the constants that are handled. -/
theorem le_of_obeys (h : Handles k vs p c q) {w : ValueId → Option Nat} (obeys : k.Obeys w)
    (constants : ∀ o, k.Reads o → k.HoldsConstant w o) (hvs : ∀ v ∈ vs, k.HoldsConstant w v)
    (known : k.BasesKnown p.width?) (below : ∀ u, p.width? u ≤ w u) :
    ∀ u, q.width? u ≤ w u := by
  have only {v o : ValueId} {i : Instruction} (hi : k.instruction? v = some i)
      (ho : o ∈ i.handled) : ∀ u ∈ [o], k.HoldsConstant w u := by
    intro u hu
    obtain rfl := List.mem_singleton.mp hu
    exact constants _ ⟨v, i, hi, ho⟩
  induction h with
  -- nothing is raised
  | nil | visited | seeded | returnVoid => exact below
  | cons first rest ih ih' =>
      have hq := ih (fun v hv => hvs v (List.mem_singleton.mp hv ▸ List.mem_cons_self)) known below
      exact ih' (fun v hv => hvs v (List.mem_cons_of_mem _ hv)) (known.mono first.le) hq
  -- arguments and globals were known from the start
  | natural hx _ base missing =>
      have hk := known _ _ hx base
      rw [missing] at hk
      cases hk
  | @constant v p x c hx _ kind =>
      exact Progress.raise_le below (hvs v List.mem_cons_self x c hx kind)
  | @arithmetic v l r i p q s _ _ a b hi _ opcode left h width right h' width' ih ih' =>
      have hhandled := Instruction.handled_of_isArithmetic opcode
      have hl := only hi (hhandled ▸ Instruction.mem_take_of_operand? left (by omega))
      have hr := only hi (hhandled ▸ Instruction.mem_take_of_operand? right (by omega))
      have hq := ih hl known below
      have hs := ih' hr (known.mono h.le) hq
      obtain ⟨hlv, hrv⟩ := (Instruction.obeyed_of_isArithmetic opcode).mp (obeys v i hi)
      -- both widths that were joined lie below the one assigned to the value
      have ha : some a ≤ w v := width ▸ Width.le_trans (hq l) (hlv l left)
      have hb : some b ≤ w v := width' ▸ Width.le_trans (hs r) (hrv r right)
      exact Progress.raise_le hs (Width.join_le ha hb)
  | @comparison v l r i p q s _ _ hi _ opcode left h right h' ih ih' =>
      have hhandled : i.handled = i.operands.take 2 := by simp only [Instruction.handled, opcode]
      have hl := only hi (hhandled ▸ Instruction.mem_take_of_operand? left (by omega))
      have hr := only hi (hhandled ▸ Instruction.mem_take_of_operand? right (by omega))
      have hs := ih' hr (known.mono h.le) (ih hl known below)
      have hv := obeys v i hi
      simp only [Instruction.Obeyed, opcode] at hv
      exact Progress.raise_le hs hv
  | @elementPointer v base i p q s _ a bits hi _ opcode start h width wider raised ih =>
      have hhandled : i.handled = base :: i.indices := by
        simp only [Instruction.handled, opcode]
        exact Instruction.operands_eq_of_elementPointer opcode start
      have hq := ih (fun o ho => constants o ⟨v, i, hi, hhandled ▸ ho⟩) known below
      have hv := obeys v i hi
      simp only [Instruction.Obeyed, opcode] at hv
      have ha : some a ≤ w base := width ▸ hq base
      have hbits : some bits ≤ w base := by
        rw [wider]
        apply Width.join_le (y := some _) ha
        -- the address itself may not have a width yet, then the base alone counts
        cases hw : q.width? v with
        | none => exact Width.le_trans (Option.some_le_some.mpr (Nat.zero_le a)) ha
        | some b => exact hw ▸ hv base start ▸ hq v
      subst raised
      exact Progress.raise_le (Progress.raise_le hq (hv base start ▸ hbits)) hbits
  | @copy v o i p q _ a hi _ opcode operand h width ih =>
      have hhandled := Instruction.handled_of_copy opcode
      have ho := only hi (hhandled ▸ Instruction.mem_take_of_operand? operand (by omega))
      have hq := ih ho known below
      have hv := (Instruction.obeyed_of_copy opcode operand).mp (obeys v i hi)
      exact Progress.raise_le hq (width ▸ Width.le_trans (hq o) hv)
  | @store v stored address i p q s t _ _ a hi _ opcode data h width target h' raised ih ih' =>
      have hhandled : i.handled = i.operands.take 2 := by simp only [Instruction.handled, opcode]
      have hstored := only hi (hhandled ▸ Instruction.mem_take_of_operand? data (by omega))
      have haddress := only hi (hhandled ▸ Instruction.mem_take_of_operand? target (by omega))
      have hq := ih hstored known below
      have hs := ih' haddress (known.mono h.le) hq
      have hv := obeys v i hi
      simp only [Instruction.Obeyed, opcode] at hv
      obtain ⟨hsv, hsa⟩ := hv stored data
      have ha : some a ≤ w stored := width ▸ hq stored
      subst raised
      exact Progress.raise_le (Progress.raise_le hs (Width.le_trans ha (hsa address target)))
        (Width.le_trans ha hsv)
  | @jump v i p hi _ opcode =>
      have hv := obeys v i hi
      simp only [Instruction.Obeyed, opcode] at hv
      exact Progress.raise_le below hv
  | @branch v condition i p q _ hi _ opcode operand h ih =>
      have hhandled : i.handled = i.operands.take 1 := by simp only [Instruction.handled, opcode]
      have ho := only hi (hhandled ▸ Instruction.mem_take_of_operand? operand (by omega))
      have hv := obeys v i hi
      simp only [Instruction.Obeyed, opcode] at hv
      exact Progress.raise_le (ih ho known below) hv

end Handles

end Datapath
