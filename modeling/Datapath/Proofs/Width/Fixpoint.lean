import Datapath.Proofs.Width.Settling

/-!
# Settled widths and the rules

Inference stops at the first pass that answers that nothing changed. Is what it hands out then a
fixed point, so that one more pass would leave it as it is? And does it obey the rules?

Both questions have the same answer, and the answer is *not always yes*: a pass does not count every
change. It is yes where operands come first in the text. There, by the time a
rule is applied, its operands were handled in the same pass, so the visits that are not counted have
nothing left to change (`calm_of_unchanged`).
-/

namespace Datapath

/-! ## Obedience makes a fixed point -/

/-- Handling a value changes no width, wherever it happens under given widths. -/
def Kernel.Idle (k : Kernel) (w : ValueId → Option Nat) (vs : List ValueId) : Prop :=
  ∀ p : Progress, p.width? = w → ∃ q, Handles k vs p false q ∧ q.widths = p.widths

theorem Progress.width?_congr {p q : Progress} (h : q.widths = p.widths) :
    q.width? = p.width? := by
  unfold Progress.width?
  rw [h]

namespace Kernel.Idle

variable {k : Kernel} {w : ValueId → Option Nat} {vs : List ValueId} {p : Progress}

theorem run (h : k.Idle w vs) (hp : p.width? = w) :
    ∃ q, Handles k vs p false q ∧ q.widths = p.widths ∧ q.width? = w := by
  obtain ⟨q, hq, hqw⟩ := h p hp
  exact ⟨q, hq, hqw, (Progress.width?_congr hqw).trans hp⟩

/-- Handling a list is idle if handling each of its values is. -/
theorem of_all (h : ∀ v ∈ vs, k.Idle w [v]) : k.Idle w vs := by
  induction vs with
  | nil =>
      intro p _
      exact ⟨p, .nil p, rfl⟩
  | cons v vs ih =>
      intro p hp
      obtain ⟨q, hq, hqw, hqp⟩ := (h v List.mem_cons_self).run hp
      obtain ⟨r, hr, hrw⟩ := ih (fun u hu => h u (List.mem_cons_of_mem v hu)) q hqp
      exact ⟨r, Handles.cons_iff.mpr ⟨false, false, q, hq, hr, rfl⟩, hrw.trans hqw⟩

/-- A value that counts as handled is passed over, so only one that does not is of interest. -/
theorem of_new {v : ValueId} (hv : v.index < k.size)
    (h : ∀ p : Progress, v ∉ p.visited → p.width? = w →
      ∃ q, Handles k [v] p false q ∧ q.widths = p.widths) : k.Idle w [v] := by
  intro p hp
  by_cases new : v ∈ p.visited
  · obtain ⟨x, hx⟩ := Option.isSome_iff_exists.mp ((value?_isSome k v).mpr hv)
    exact ⟨p, .visited hx new, rfl⟩
  · exact h p new hp

end Kernel.Idle

/-- There is room for a width already, so raising to it answers that nothing changed. -/
theorem Progress.raise_of_le {w : ValueId → Option Nat} {p : Progress} (hp : p.width? = w)
    {u : ValueId} {bits : Nat} (hle : some bits ≤ w u) :
    p.grows u bits = false ∧ p.raise u bits = p := by
  have hgrows : p.grows u bits = false := Progress.grows_eq_false.mpr (hp ▸ hle)
  exact ⟨hgrows, Progress.raise_eq_self hgrows⟩

/-- What is left to do is nothing: each rule is ready and obeyed, and what no rule gives a width to
has the width that it starts from. -/
structure Kernel.Finished (k : Kernel) (w : ValueId → Option Nat) : Prop where
  obeys : k.Obeys w
  ready : ∀ v i, k.instruction? v = some i → i.Ready w
  bases : k.BasesKnown w
  constants : ∀ o, k.Reads o → k.HoldsConstant w o

namespace Kernel.Finished

variable {k : Kernel} {w : ValueId → Option Nat}

/-! Each rule goes through its operands, where nothing changes, and then raises to a width that its
inequality leaves room for. -/

section

variable {v : ValueId} {i : Instruction}

/-- Both operands are visited, and the wider one has room already. -/
theorem idle_arithmetic (h : k.Finished w) (hi : k.instruction? v = some i)
    (opcode : i.opcode.isArithmetic = true) (operands : ∀ o ∈ i.handled, k.Idle w [o]) :
    k.Idle w [v] := by
  apply Kernel.Idle.of_new (Kernel.instruction?_lt hi)
  intro p new hp
  have hobeyed := (Instruction.obeyed_of_isArithmetic opcode).mp (h.obeys v i hi)
  obtain ⟨⟨l, left, hl⟩, r, right, hr⟩ :=
    (Instruction.ready_of_isArithmetic opcode).mp (h.ready v i hi)
  obtain ⟨a, ha⟩ := Option.isSome_iff_exists.mp hl
  obtain ⟨b, hb⟩ := Option.isSome_iff_exists.mp hr
  have hlv : some a ≤ w v := ha ▸ hobeyed.1 l left
  have hrv : some b ≤ w v := hb ▸ hobeyed.2 r right
  rw [Instruction.handled_of_isArithmetic opcode] at operands
  obtain ⟨q, hq, hqw, hqp⟩ :=
    (operands l (Instruction.mem_take_of_operand? left (by omega))).run (p := p.mark v) hp
  obtain ⟨s, hs, hsw, hsp⟩ :=
    (operands r (Instruction.mem_take_of_operand? right (by omega))).run hqp
  obtain ⟨hgrows, hraise⟩ := Progress.raise_of_le hsp (Width.join_le hlv hrv)
  have hrun := Handles.arithmetic hi new opcode left hq (hqp ▸ ha) right hs (hsp ▸ hb)
  exact ⟨s, by rwa [hgrows, hraise] at hrun, hsw.trans hqw⟩

/-- What is copied has room already. -/
theorem idle_copy (h : k.Finished w) (hi : k.instruction? v = some i)
    (opcode : i.opcode ∈ [.load, .trunc, .zext, .ret]) {o : ValueId}
    (operand : i.operand? 0 = some o) (operands : ∀ o ∈ i.handled, k.Idle w [o]) :
    k.Idle w [v] := by
  apply Kernel.Idle.of_new (Kernel.instruction?_lt hi)
  intro p new hp
  have hobeyed := (Instruction.obeyed_of_copy opcode operand).mp (h.obeys v i hi)
  have hready := (Instruction.ready_of_copy opcode operand).mp (h.ready v i hi)
  obtain ⟨a, ha⟩ := Option.isSome_iff_exists.mp hready
  rw [Instruction.handled_of_copy opcode] at operands
  obtain ⟨q, hq, hqw, hqp⟩ :=
    (operands o (Instruction.mem_take_of_operand? operand (by omega))).run (p := p.mark v) hp
  obtain ⟨hgrows, hraise⟩ := Progress.raise_of_le hqp (ha ▸ hobeyed)
  have hrun := Handles.copy hi new opcode operand hq (hqp ▸ ha)
  exact ⟨q, by rwa [hgrows, hraise] at hrun, hqw⟩

/-- A single bit has room already. -/
theorem idle_comparison (h : k.Finished w) (hi : k.instruction? v = some i)
    (opcode : i.opcode = .icmp) (operands : ∀ o ∈ i.handled, k.Idle w [o]) : k.Idle w [v] := by
  apply Kernel.Idle.of_new (Kernel.instruction?_lt hi)
  intro p new hp
  have hobeyed := h.obeys v i hi
  have hready := h.ready v i hi
  simp only [Instruction.Obeyed, Instruction.Ready, opcode] at hobeyed hready
  simp only [Instruction.handled, opcode] at operands
  obtain ⟨⟨l, left⟩, r, right⟩ := hready
  obtain ⟨q, hq, hqw, hqp⟩ :=
    (operands l (Instruction.mem_take_of_operand? left (by omega))).run (p := p.mark v) hp
  obtain ⟨s, hs, hsw, hsp⟩ :=
    (operands r (Instruction.mem_take_of_operand? right (by omega))).run hqp
  obtain ⟨hgrows, hraise⟩ := Progress.raise_of_le hsp hobeyed
  have hrun := Handles.comparison hi new opcode left hq right hs
  exact ⟨s, by rwa [hgrows, hraise] at hrun, hsw.trans hqw⟩

/-- The address and its base are equally wide, so neither is raised. -/
theorem idle_elementPointer (h : k.Finished w) (hi : k.instruction? v = some i)
    (opcode : i.opcode = .getElementPtr) (operands : ∀ o ∈ i.handled, k.Idle w [o]) :
    k.Idle w [v] := by
  apply Kernel.Idle.of_new (Kernel.instruction?_lt hi)
  intro p new hp
  have hobeyed := h.obeys v i hi
  have hready := h.ready v i hi
  simp only [Instruction.Obeyed, Instruction.Ready, opcode] at hobeyed hready
  simp only [Instruction.handled, opcode] at operands
  obtain ⟨base, start, hbase⟩ := hready
  obtain ⟨a, ha⟩ := Option.isSome_iff_exists.mp hbase
  have hva : w v = some a := (hobeyed base start).trans ha
  rw [Instruction.operands_eq_of_elementPointer opcode start] at operands
  obtain ⟨q, hq, hqw, hqp⟩ := (Kernel.Idle.of_all operands).run (p := p.mark v) hp
  have hwider : a = max a ((q.width? v).getD 0) := by
    rw [hqp, hva, Option.getD_some, Nat.max_self]
  have hroom {u : ValueId} (hu : w u = some a) : some a ≤ w u := hu ▸ Width.le_refl (w u)
  obtain ⟨hhere, hraise⟩ := Progress.raise_of_le hqp (hroom hva)
  obtain ⟨hback, hraise'⟩ := Progress.raise_of_le hqp (hroom ha)
  have hrun := Handles.elementPointer hi new opcode start hq (hqp ▸ ha) hwider rfl
  exact ⟨q, by rwa [hraise, hhere, hback, hraise'] at hrun, hqw⟩

/-- Both the address and the store have room for what is stored. -/
theorem idle_store (h : k.Finished w) (hi : k.instruction? v = some i)
    (opcode : i.opcode = .store) (operands : ∀ o ∈ i.handled, k.Idle w [o]) : k.Idle w [v] := by
  apply Kernel.Idle.of_new (Kernel.instruction?_lt hi)
  intro p new hp
  have hobeyed := h.obeys v i hi
  have hready := h.ready v i hi
  simp only [Instruction.Obeyed, Instruction.Ready, opcode] at hobeyed hready
  simp only [Instruction.handled, opcode] at operands
  obtain ⟨⟨stored, data, hstored⟩, address, target⟩ := hready
  obtain ⟨a, ha⟩ := Option.isSome_iff_exists.mp hstored
  obtain ⟨hsv, hsa⟩ := hobeyed stored data
  obtain ⟨q, hq, hqw, hqp⟩ :=
    (operands stored (Instruction.mem_take_of_operand? data (by omega))).run (p := p.mark v) hp
  obtain ⟨s, hs, hsw, hsp⟩ :=
    (operands address (Instruction.mem_take_of_operand? target (by omega))).run hqp
  obtain ⟨hback, hraise⟩ := Progress.raise_of_le hsp (ha ▸ hsa address target)
  obtain ⟨hhere, hraise'⟩ := Progress.raise_of_le hsp (ha ▸ hsv)
  have hrun := Handles.store hi new opcode data hq (hqp ▸ ha) target hs rfl
  exact ⟨s, by rwa [hraise, hback, hhere, hraise'] at hrun, hsw.trans hqw⟩

theorem idle_branch (h : k.Finished w) (hi : k.instruction? v = some i)
    (opcode : i.opcode = .condBr) (operands : ∀ o ∈ i.handled, k.Idle w [o]) : k.Idle w [v] := by
  apply Kernel.Idle.of_new (Kernel.instruction?_lt hi)
  intro p new hp
  have hobeyed := h.obeys v i hi
  have hready := h.ready v i hi
  simp only [Instruction.Obeyed, Instruction.Ready, opcode] at hobeyed hready
  simp only [Instruction.handled, opcode] at operands
  obtain ⟨condition, operand⟩ := hready
  obtain ⟨q, hq, hqw, hqp⟩ :=
    (operands condition (Instruction.mem_take_of_operand? operand (by omega))).run
      (p := p.mark v) hp
  obtain ⟨hgrows, hraise⟩ := Progress.raise_of_le hqp hobeyed
  have hrun := Handles.branch hi new opcode operand hq
  exact ⟨q, by rwa [hgrows, hraise] at hrun, hqw⟩

theorem idle_jump (h : k.Finished w) (hi : k.instruction? v = some i) (opcode : i.opcode = .br) :
    k.Idle w [v] := by
  apply Kernel.Idle.of_new (Kernel.instruction?_lt hi)
  intro p new hp
  have hobeyed := h.obeys v i hi
  simp only [Instruction.Obeyed, opcode] at hobeyed
  obtain ⟨hgrows, hraise⟩ := Progress.raise_of_le (p := p.mark v) hp hobeyed
  have hrun := Handles.jump hi new opcode
  exact ⟨p.mark v, by rwa [hgrows, hraise] at hrun, rfl⟩

/-- An instruction is idle if the operands that its rule goes through are. -/
theorem idle_instruction (h : k.Finished w) (hi : k.instruction? v = some i)
    (operands : ∀ o ∈ i.handled, k.Idle w [o]) : k.Idle w [v] := by
  have hready := h.ready v i hi
  cases ho : i.opcode with
  | add | sub | mul | sdiv | udiv | ashr => exact h.idle_arithmetic hi (by rw [ho]; rfl) operands
  | icmp => exact h.idle_comparison hi ho operands
  | getElementPtr => exact h.idle_elementPointer hi ho operands
  | load | trunc | zext =>
      simp only [Instruction.Ready, ho] at hready
      obtain ⟨o, operand, -⟩ := hready
      exact h.idle_copy hi (by simp [ho]) operand operands
  | ret =>
      cases operand : i.operand? 0 with
      | some o => exact h.idle_copy hi (by simp [ho]) operand operands
      | none =>
          apply Kernel.Idle.of_new (Kernel.instruction?_lt hi)
          intro p new hp
          exact ⟨p.mark v, .returnVoid hi new ho operand, rfl⟩
  | store => exact h.idle_store hi ho operands
  | br => exact h.idle_jump hi ho
  | condBr => exact h.idle_branch hi ho operands
  | switch | phi | call | and | or | xor | shl | lshr | sext | select =>
      simp only [Instruction.Ready, ho] at hready

end

/-- **Where the rules are obeyed, there is nothing left to do.** -/
theorem idle (wf : k.WellFormed) (h : k.Finished w) (v : ValueId) (hv : v.index < k.size)
    (constant : k.HoldsConstant w v) : k.Idle w [v] := by
  obtain ⟨x, hx⟩ := Option.isSome_iff_exists.mp ((Kernel.value?_isSome k v).mpr hv)
  cases hi : k.instruction? v with
  | some i =>
      apply h.idle_instruction hi
      intro o ho
      have hlt := wf.operand_lt hi (Instruction.mem_operands_of_mem_handled ho)
      exact h.idle wf o (by omega) (h.constants o ⟨v, i, hi, ho⟩)
  | none =>
      intro p hp
      by_cases new : v ∈ p.visited
      · exact ⟨p, .visited hx new, rfl⟩
      by_cases base : x.isBase = true
      · -- an argument or a global has a width, and keeps it
        have has : (p.width? v).isSome := hp ▸ h.bases v x hx base
        exact ⟨p.mark v, .seeded hx new base has, rfl⟩
      · cases hk : x.kind with
        | constant c =>
            -- a constant has the width that it starts from at least
            have hgrows : (p.mark v).grows v (Width.ofConstant c) = false :=
              Progress.grows_eq_false.mpr (hp ▸ constant x c hx hk)
            have hrun := Handles.constant hx new hk
            rw [Progress.raise_eq_self hgrows, hgrows] at hrun
            exact ⟨p.mark v, hrun, rfl⟩
        | argument | global =>
            simp [Value.isBase, Value.isArgument, Value.isGlobal, hk] at base
        | instruction i b =>
            rw [Kernel.instruction?_of_value? hx, Value.instruction?, hk] at hi
            cases hi
termination_by v.index

end Kernel.Finished

/-! ## Where no change goes uncounted -/

/-- A value that was handled in this pass, or is no instruction. -/
def Progress.Done (k : Kernel) (p : Progress) (o : ValueId) : Prop :=
  o ∈ p.visited ∨ k.instruction? o = none

theorem Progress.Done.mono {k : Kernel} {p q : Progress} {o : ValueId} (h : p.Done k o)
    (hpq : p.Before q) : q.Done k o :=
  h.imp (hpq.visited o) id

namespace Handles

variable {k : Kernel} {vs : List ValueId} {v : ValueId} {p q : Progress} {c : Bool}

/-- Handling what was handled in this pass, or is no instruction, records at most constants. -/
theorem calm_of_done (h : Handles k vs p c q) (hp : p.Valid k)
    (done : ∀ o ∈ vs, p.Done k o) : p.Calm k q := by
  have no_instruction {v : ValueId} {i : Instruction} {p : Progress}
      (hi : k.instruction? v = some i) (new : v ∉ p.visited)
      (done : ∀ o ∈ [v], p.Done k o) : False := by
    rcases done v List.mem_cons_self with old | hnone
    · exact new old
    · rw [hi] at hnone
      cases hnone
  induction h with
  | nil | visited => exact .refl _
  | @cons v w vs p q r _ _ first rest ih ih' =>
      have hfirst := ih hp fun o ho => done o (List.mem_singleton.mp ho ▸ List.mem_cons_self)
      apply hfirst.trans (ih' (hp.handle first) _)
      intro o ho
      exact (done o (List.mem_cons_of_mem v ho)).mono first.before
  | seeded =>
      intro u
      exact .inl rfl
  | natural hx _ base missing =>
      -- arguments and globals are not missing their widths
      have hk := hp.bases _ _ hx base
      rw [missing] at hk
      cases hk
  | @constant v p x c hx _ kind =>
      intro u
      by_cases e : v = u
      · subst e
        have hself := (p.mark v).width?_raise_self v (Width.ofConstant c)
        rw [Progress.width?_mark] at hself
        cases hw : p.width? v with
        | none => exact .inr ⟨rfl, x, c, hx, kind, by rw [hself, hw]; rfl⟩
        | some a =>
            -- a constant with a width has at least the one that is raised to
            have hle := hp.started v (.inr (by rw [hw]; rfl)) x c hx kind
            rw [hw, Option.some_le_some] at hle
            exact .inl (by rw [hself, hw, Width.join_some_some, Nat.max_eq_left hle])
      · exact .inl (Progress.width?_raise_of_ne e)
  | arithmetic hi new | comparison hi new | elementPointer hi new | copy hi new | store hi new
  | returnVoid hi new | jump hi new | branch hi new => exact (no_instruction hi new done).elim

/-- Where the operands of an instruction were handled before it, every change that its rule makes is
counted, save for constants that come in. -/
theorem calm_of_unchanged_self (h : Handles k [v] p c q) (unchanged : c = false)
    (hp : p.Valid k)
    (operands : ∀ i, k.instruction? v = some i → ∀ o ∈ i.operands, p.Done k o) : p.Calm k q := by
  cases hi : k.instruction? v with
  | none => exact h.calm_of_done hp fun o ho => .inr (List.mem_singleton.mp ho ▸ hi)
  | some i =>
      have hmark : (p.mark v).Valid k :=
        ⟨hp.bases, hp.started.mark (.of_instruction hi), hp.inRange⟩
      have marked : p.Calm k (p.mark v) := fun _ => .inl rfl
      have done {r : Progress} {n : Nat} {o : ValueId} (hr : (p.mark v).Before r)
          (ho : i.operand? n = some o) : ∀ u ∈ [o], r.Done k u := by
        intro u hu
        obtain rfl := List.mem_singleton.mp hu
        exact (operands i hi u (Instruction.mem_operands_of_operand? ho)).mono
          ((Progress.Before.mark p v).trans hr)
      cases h with
      | visited => exact .refl p
      | seeded hx _ base | natural hx _ base =>
          rw [Kernel.instruction?_of_isBase hx base] at hi
          cases hi
      | constant hx _ kind =>
          rw [Kernel.instruction?_of_constant hx kind] at hi
          cases hi
      | @arithmetic _ _ _ j _ _ _ _ _ _ _ known _ _ left h _ right h'
      | @comparison _ _ _ j _ _ _ _ _ known _ _ left h right h' =>
          obtain rfl : i = j := Option.some.inj (hi.symm.trans known)
          have hq := h.calm_of_done hmark (done (.refl _) left)
          have hs := h'.calm_of_done (hmark.handle h) (done h.before right)
          rw [Progress.raise_eq_self unchanged]
          exact marked.trans (hq.trans hs)
      | @elementPointer _ base j _ q _ _ _ bits known _ opcode start h _ _ raised =>
          obtain rfl : i = j := Option.some.inj (hi.symm.trans known)
          simp only [Bool.or_eq_false_iff] at unchanged
          obtain ⟨⟨-, hhere⟩, hback⟩ := unchanged
          have hq := h.calm_of_done hmark fun o ho =>
            (operands i hi o (Instruction.operands_eq_of_elementPointer opcode start ▸ ho)).mono
              (Progress.Before.mark p v)
          rw [Progress.raise_eq_self hback, raised, Progress.raise_eq_self hhere]
          exact marked.trans hq
      | @copy _ _ j _ _ _ _ known _ _ operand h =>
          obtain rfl : i = j := Option.some.inj (hi.symm.trans known)
          have hq := h.calm_of_done hmark (done (.refl _) operand)
          rw [Progress.raise_eq_self unchanged]
          exact marked.trans hq
      | @store _ _ _ j _ _ _ _ _ _ _ known _ _ data h _ target h' raised =>
          obtain rfl : i = j := Option.some.inj (hi.symm.trans known)
          simp only [Bool.or_eq_false_iff] at unchanged
          obtain ⟨⟨-, hback⟩, hhere⟩ := unchanged
          have hq := h.calm_of_done hmark (done (.refl _) data)
          have hs := h'.calm_of_done (hmark.handle h) (done h.before target)
          rw [Progress.raise_eq_self hhere, raised, Progress.raise_eq_self hback]
          exact marked.trans (hq.trans hs)
      | returnVoid => exact marked
      | jump =>
          rw [Progress.raise_eq_self unchanged]
          exact marked
      | @branch _ _ j _ _ _ known _ _ operand h =>
          obtain rfl : i = j := Option.some.inj (hi.symm.trans known)
          obtain ⟨-, hhere⟩ := Bool.or_eq_false_iff.mp unchanged
          have hq := h.calm_of_done hmark (done (.refl _) operand)
          rw [Progress.raise_eq_self hhere]
          exact marked.trans hq

/-- **Where operands come first, a pass without a counted change is calm.** The induction is along
the text; what stands before an instruction counts as handled by the time it is reached. -/
theorem calm_of_unchanged (h : Handles k vs p c q) (unchanged : c = false) (hp : p.Valid k)
    (first : ∀ before v after i o, vs = before ++ v :: after → k.instruction? v = some i →
      o ∈ i.operands → (k.instruction? o).isSome → o ∈ before ∨ o ∈ p.visited) : p.Calm k q := by
  induction vs generalizing p c with
  | nil =>
      cases h
      exact .refl _
  | cons v vs ih =>
      obtain ⟨here, later, r, hv, hvs, rfl⟩ := cons_iff.mp h
      obtain ⟨rfl, rfl⟩ := Bool.or_eq_false_iff.mp unchanged
      have operands : ∀ i, k.instruction? v = some i → ∀ o ∈ i.operands, p.Done k o := by
        intro i hi o ho
        cases hoi : k.instruction? o with
        | none => exact .inr hoi
        | some j =>
            have hbefore := first [] v vs i o rfl hi ho (by rw [hoi]; rfl)
            exact .inl (hbefore.resolve_left List.not_mem_nil)
      have hself := hv.calm_of_unchanged_self rfl hp operands
      apply hself.trans (ih hvs rfl (hp.handle hv) _)
      intro before u after i o hsplit hi ho hoi
      -- what stood before `u` in the whole text is `v`, or stands before it in the rest
      rcases first (v :: before) u after i o (by rw [hsplit]; rfl) hi ho hoi with hmem | hold
      · rcases List.mem_cons.mp hmem with rfl | hmem
        · exact .inr (hv.mem_visited o List.mem_cons_self)
        · exact .inl hmem
      · exact .inr (hv.visited_subset hold)

end Handles

/-! ## Passes -/

namespace Kernel

variable {k : Kernel} {p q : Progress} {c : Bool}

theorem mem_visited_of_pass (wf : k.WellFormed) (h : Infer.pass k p = .ok c q) {v : ValueId}
    {i : Instruction} (hi : k.instruction? v = some i) : v ∈ q.visited :=
  (Infer.handles_of_pass h).mem_visited v (wf.mem_instructions.mpr ⟨i, hi⟩)

theorem valid_of_pass (hp : p.Valid k) (h : Infer.pass k p = .ok c q) : q.Valid k :=
  hp.begin.handle (Infer.handles_of_pass h)

/-- A pass stays below an assignment that obeys the rules. -/
theorem le_of_pass (wf : k.WellFormed) (hp : p.Valid k) (h : Infer.pass k p = .ok c q)
    {w : ValueId → Option Nat} (obeys : k.Obeys w)
    (constants : ∀ o, k.Reads o → k.HoldsConstant w o) (below : ∀ u, p.width? u ≤ w u)
    (u : ValueId) : q.width? u ≤ w u := by
  apply (Infer.handles_of_pass h).le_of_obeys obeys constants _ hp.bases below u
  intro v hv
  obtain ⟨i, hi⟩ := wf.mem_instructions.mp hv
  exact .of_instruction hi

/-- After a calm pass all rules are obeyed. -/
theorem obeys_of_pass (wf : k.WellFormed) (hp : p.Valid k) (h : Infer.pass k p = .ok c q)
    (calm : p.Calm k q) : k.Obeys q.width? := by
  intro v i hi
  exact (Infer.handles_of_pass h).obeyed wf calm hp.begin.started hi List.not_mem_nil
    (mem_visited_of_pass wf h hi)

/-- After a pass, all that can be missing is obedience. -/
theorem finished_of_pass (wf : k.WellFormed) (hp : p.Valid k) (h : Infer.pass k p = .ok c q)
    (obeys : k.Obeys q.width?) : k.Finished q.width? := by
  have hq := valid_of_pass hp h
  have applied {v : ValueId} {i : Instruction} (hi : k.instruction? v = some i) : q.Applied i :=
    (Infer.handles_of_pass h).applied hi List.not_mem_nil (mem_visited_of_pass wf h hi)
  refine ⟨obeys, fun v i hi => (applied hi).ready, hq.bases, ?_⟩
  -- a constant that a rule goes through was handled in the pass
  rintro o ⟨v, i, hi, ho⟩
  exact hq.started o (.inl ((applied hi).handled o ho))

/-- Where operands come first, a pass that answers that nothing changed leaves the rules obeyed. -/
theorem obeys_of_unchanged (wf : k.WellFormed) (hp : p.Valid k)
    (h : Infer.pass k p = .ok false q) (first : k.OperandsFirst) : k.Obeys q.width? := by
  apply obeys_of_pass wf hp h
  refine (Infer.handles_of_pass h).calm_of_unchanged rfl hp.begin ?_
  intro before v after i o hsplit hi ho hoi
  exact .inl (first before v after i o hsplit hi ho hoi)

/-- Where operands come first, inference leaves nothing to do. -/
theorem finished_of_infer (wf : k.WellFormed) (first : k.OperandsFirst) {o : Overrides} {m : Widths}
    (h : k.infer o = .ok m) : k.Finished m.width? := by
  obtain ⟨s, hs, hm⟩ := Outcome.bind_eq_ok.mp h
  obtain ⟨r, q, hr, hpass, rfl⟩ :=
    settle_eq_ok (fun p q hp hpass => valid_of_pass hp hpass) (valid_seeds wf hs) hm
  exact finished_of_pass wf hr hpass (obeys_of_unchanged wf hr hpass first)

/-! ## Fixed points -/

/-- One more pass leaves the widths as they are. -/
def Stable (k : Kernel) (m : Widths) : Prop :=
  ∃ c q, Infer.pass k { widths := m } = .ok c q ∧ q.widths = m

theorem Finished.stable (wf : k.WellFormed) {m : Widths} (h : k.Finished m.width?) :
    k.Stable m := by
  have idle : k.Idle m.width? k.instructions := by
    apply Kernel.Idle.of_all
    intro v hv
    obtain ⟨i, hi⟩ := wf.mem_instructions.mp hv
    exact h.idle wf v (instruction?_lt hi) (.of_instruction hi)
  obtain ⟨q, hq, hqm⟩ := idle (Progress.begin { widths := m }) rfl
  exact ⟨false, q, Infer.pass_eq_ok.mpr ((Handles.iff_visitAll wf).mp hq), hqm⟩

theorem Stable.obeys (wf : k.WellFormed) {m : Widths} (h : k.Stable m)
    (hm : Progress.Valid k { widths := m }) : k.Obeys m.width? := by
  obtain ⟨c, q, hpass, rfl⟩ := h
  exact obeys_of_pass wf hm hpass fun u => .inl rfl

/-- **Settled widths are a fixed point exactly if they obey every rule**, and they are where
operands come first in the text. In any case they lie below all widths that obey the rules. -/
theorem obeys_iff_stable {name : String} {script : List Step} {k : Kernel}
    (built : Kernel.ofScript? name script = some k) {o : Overrides} {m : Widths}
    (settled : k.infer o = .ok m) :
    (k.Obeys m.width? ↔ k.Stable m) ∧ (k.OperandsFirst → k.Obeys m.width?) ∧
      ∀ s w, k.seeds o = .ok s → (∀ v, s.width? v ≤ w v) →
        (∀ c, k.Reads c → k.HoldsConstant w c) → k.Obeys w → ∀ v, m.width? v ≤ w v := by
  have wf := ofScript?_wellFormed built
  obtain ⟨s, hs, hm⟩ := Outcome.bind_eq_ok.mp settled
  refine ⟨?_, ?_, ?_⟩
  · obtain ⟨r, q, hr, hpass, rfl⟩ :=
      settle_eq_ok (fun p q hp hpass => valid_of_pass hp hpass) (valid_seeds wf hs) hm
    constructor
    · intro hobeys
      exact Finished.stable wf (finished_of_pass wf hr hpass hobeys)
    · intro hstable
      have hq := (valid_of_pass hr hpass).begin
      exact hstable.obeys wf ⟨hq.bases, hq.started, hq.inRange⟩
  · obtain ⟨r, q, hr, hpass, rfl⟩ :=
      settle_eq_ok (fun p q hp hpass => valid_of_pass hp hpass) (valid_seeds wf hs) hm
    exact obeys_of_unchanged wf hr hpass
  · intro s' w hs' below constants obeys
    obtain rfl : s = s' := Except.ok.inj (hs.symm.trans hs')
    have step : ∀ p q, (p.Valid k ∧ ∀ u, p.width? u ≤ w u) → Infer.pass k p = .ok true q →
        q.Valid k ∧ ∀ u, q.width? u ≤ w u := fun p q hp hpass =>
      ⟨valid_of_pass hp.1 hpass, le_of_pass wf hp.1 hpass obeys constants hp.2⟩
    obtain ⟨r, q, hr, hpass, rfl⟩ := settle_eq_ok step ⟨valid_seeds wf hs, below⟩ hm
    exact le_of_pass wf hr.1 hpass obeys constants hr.2

/-! ### A text with a user before its operand -/

/-- The block that uses an address stands before the block that computes it. The load comes first,
the comparison after it is what visits the address, and the store is what widens it. -/
def useFirstScript : List Step :=
  [.param "p" (.pointer (.int 8)), .param "i" (.int 4), .param "w" (.int 20),
    .block "entry", .block "use", .block "compute",
    .moveTo ⟨0⟩, .branch ⟨2⟩,
    .moveTo ⟨2⟩, .elementPointer ⟨0⟩ [⟨1⟩] "address", .branch ⟨1⟩,
    .moveTo ⟨1⟩, .load ⟨0⟩ "x", .compare .eq ⟨4⟩ ⟨4⟩ "same", .store ⟨2⟩ ⟨4⟩, .ret none]

def useFirst : Kernel := (Kernel.ofScript? "useFirst" useFirstScript).getD (.empty "useFirst")

/-- Inference settles on 20 bits for the pointer and 8 for the load through it: the pass that widens
the pointer does so in a visit that is not counted, so it is the last. -/
theorem infer_useFirst_not_stable :
    Kernel.ofScript? "useFirst" useFirstScript = some useFirst ∧
      ∃ m, useFirst.infer .empty = .ok m ∧ m.width? ⟨0⟩ = some 20 ∧ m.width? ⟨6⟩ = some 8 ∧
        ¬ useFirst.Obeys m.width? ∧ ¬ useFirst.Stable m := by
  have built : Kernel.ofScript? "useFirst" useFirstScript = some useFirst := rfl
  have hwidths : (useFirst.infer .empty).toOption.map (fun m => (m.width? ⟨0⟩, m.width? ⟨6⟩))
      = some (some 20, some 8) := by decide +kernel
  have hload : useFirst.instruction? ⟨6⟩ = some { opcode := .load, operands := [⟨0⟩] } := by
    decide +kernel
  cases settled : useFirst.infer .empty with
  | error => simp [settled, Except.toOption] at hwidths
  | ok m =>
      simp only [settled, Except.toOption, Option.map_some, Option.some.injEq,
        Prod.mk.injEq] at hwidths
      obtain ⟨hp, hx⟩ := hwidths
      have hbroken : ¬ useFirst.Obeys m.width? := by
        intro hobeys
        have hle := hobeys ⟨6⟩ _ hload
        simp only [Instruction.Obeyed, Instruction.operand?] at hle
        have h := hle ⟨0⟩ rfl
        rw [hp, hx, Option.some_le_some] at h
        omega
      have hiff := (obeys_iff_stable built settled).1
      exact ⟨built, m, rfl, hp, hx, hbroken, fun hstable => hbroken (hiff.mpr hstable)⟩

end Kernel

end Datapath
