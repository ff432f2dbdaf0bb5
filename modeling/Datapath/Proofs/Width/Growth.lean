import Datapath.Proofs.Width.Handling
import Datapath.Proofs.Width.Rules

/-!
# What handling preserves

Inference only ever adds: a width recorded stays recorded and does not shrink, and a value handled
in a pass stays handled. Beyond that,

* an answer that something changed is *truthful*, some width did grow;
* only values of the kernel get widths;
* a constant that was handled, or has a width at all, has at least the width it starts from;
* whatever assignment obeys the rules and lies above the widths at first lies above them at the end.
-/

namespace Datapath

/-! ## Nothing is lost -/

namespace Progress

/-- One stage of inference comes before another: there are fewer and smaller widths, and fewer
values count as handled. -/
structure Before (p q : Progress) : Prop where
  width : ∀ u, p.width? u ≤ q.width? u
  visited : ∀ u ∈ p.visited, u ∈ q.visited

namespace Before

variable {p q r : Progress}

protected theorem refl (p : Progress) : p.Before p := ⟨fun _ => Width.le_refl _, fun _ hu => hu⟩

protected theorem trans (h : p.Before q) (h' : q.Before r) : p.Before r where
  width := fun u => Width.le_trans (h.width u) (h'.width u)
  visited := fun u hu => h'.visited u (h.visited u hu)

theorem mark (p : Progress) (v : ValueId) : p.Before (p.mark v) :=
  ⟨fun _ => Width.le_refl _, fun _ hu => List.mem_cons_of_mem v hu⟩

theorem raise (h : p.Before q) {v : ValueId} {bits : Nat} : p.Before (q.raise v bits) :=
  h.trans ⟨q.le_raise v bits, fun _ hu => hu⟩

end Before

end Progress

namespace Handles

variable {k : Kernel} {vs : List ValueId} {p q : Progress} {c : Bool}

/-- **Handling loses nothing.** -/
theorem before (h : Handles k vs p c q) : p.Before q := by
  induction h with
  | nil | visited => exact .refl _
  | cons _ _ ih ih' => exact ih.trans ih'
  | seeded | returnVoid => exact .mark _ _
  | natural | constant | jump => exact (Progress.Before.mark _ _).raise
  | arithmetic _ _ _ _ _ _ _ _ _ ih ih' | comparison _ _ _ _ _ _ _ ih ih' =>
      exact ((Progress.Before.mark _ _).trans (ih.trans ih')).raise
  | copy _ _ _ _ _ _ ih | branch _ _ _ _ _ ih =>
      exact ((Progress.Before.mark _ _).trans ih).raise
  | elementPointer _ _ _ _ _ _ _ raised ih =>
      subst raised
      exact ((Progress.Before.mark _ _).trans ih).raise.raise
  | store _ _ _ _ _ _ _ _ raised ih ih' =>
      subst raised
      exact ((Progress.Before.mark _ _).trans (ih.trans ih')).raise.raise

theorem le (h : Handles k vs p c q) (u : ValueId) : p.width? u ≤ q.width? u := h.before.width u

theorem visited_subset (h : Handles k vs p c q) {u : ValueId} (hu : u ∈ p.visited) :
    u ∈ q.visited :=
  h.before.visited u hu

/-- Handling begins no pass. -/
theorem passes_eq (h : Handles k vs p c q) : q.passes = p.passes := by
  induction h with
  | nil | visited | seeded | returnVoid | natural | constant | jump => rfl
  | cons _ _ ih ih' => exact ih'.trans ih
  | arithmetic _ _ _ _ _ _ _ _ _ ih ih' | comparison _ _ _ _ _ _ _ ih ih' => exact ih'.trans ih
  | copy _ _ _ _ _ _ ih | branch _ _ _ _ _ ih => exact ih
  | elementPointer _ _ _ _ _ _ _ raised ih => exact raised ▸ ih
  | store _ _ _ _ _ _ _ _ raised ih ih' => exact raised ▸ ih'.trans ih

/-- What was handled counts as handled afterwards. -/
theorem mem_visited (h : Handles k vs p c q) : ∀ v ∈ vs, v ∈ q.visited := by
  induction h with
  | nil => nofun
  | cons _ rest ih ih' =>
      intro u hu
      rcases List.mem_cons.mp hu with rfl | hu
      · exact rest.visited_subset (ih _ (List.mem_singleton.mpr rfl))
      · exact ih' u hu
  | visited _ old => simpa using old
  | seeded | returnVoid | natural | constant | jump => simp
  | arithmetic _ _ _ _ h _ _ h' | comparison _ _ _ _ h _ h' =>
      simpa using h'.visited_subset (h.visited_subset List.mem_cons_self)
  | copy _ _ _ _ h | branch _ _ _ _ h => simpa using h.visited_subset List.mem_cons_self
  | elementPointer _ _ _ _ h _ _ raised =>
      subst raised
      simpa using h.visited_subset List.mem_cons_self
  | store _ _ _ _ h _ _ h' raised =>
      subst raised
      simpa using h'.visited_subset (h.visited_subset List.mem_cons_self)

/-- What was handled is there. -/
theorem lt_size (h : Handles k vs p c q) : ∀ v ∈ vs, v.index < k.size := by
  induction h with
  | nil => nofun
  | cons _ _ ih ih' =>
      intro u hu
      rcases List.mem_cons.mp hu with rfl | hu
      · exact ih _ (List.mem_singleton.mpr rfl)
      · exact ih' u hu
  | visited known | seeded known | natural known | constant known =>
      intro u hu
      exact List.mem_singleton.mp hu ▸ Kernel.value?_lt known
  | arithmetic known | comparison known | elementPointer known | copy known | store known
  | returnVoid known | jump known | branch known =>
      intro u hu
      exact List.mem_singleton.mp hu ▸ Kernel.instruction?_lt known

/-- Only values of the kernel get widths. -/
theorem isSome_or_lt (h : Handles k vs p c q) {u : ValueId} (hu : (q.width? u).isSome) :
    (p.width? u).isSome ∨ u.index < k.size := by
  have of_raise {p : Progress} {v : ValueId} {bits : Nat} (hv : v.index < k.size)
      (hu : ((p.raise v bits).width? u).isSome) : (p.width? u).isSome ∨ u.index < k.size :=
    (Progress.isSome_width?_raise hu).imp id fun e : u = v => e ▸ hv
  induction h with
  | nil | visited | seeded | returnVoid => exact .inl hu
  | cons _ _ ih ih' => exact (ih' hu).elim ih .inr
  | natural known | constant known => exact of_raise (Kernel.value?_lt known) hu
  | jump known => exact of_raise (Kernel.instruction?_lt known) hu
  | arithmetic known _ _ _ _ _ _ _ _ ih ih' | comparison known _ _ _ _ _ _ ih ih' =>
      exact (of_raise (Kernel.instruction?_lt known) hu).elim (fun hu => (ih' hu).elim ih .inr) .inr
  | copy known _ _ _ _ _ ih | branch known _ _ _ _ ih =>
      exact (of_raise (Kernel.instruction?_lt known) hu).elim ih .inr
  | elementPointer known _ _ _ h _ _ raised ih =>
      subst raised
      -- the base is raised last, and the address before it
      rcases of_raise (h.lt_size _ List.mem_cons_self) hu with hu | hlt
      · exact (of_raise (Kernel.instruction?_lt known) hu).elim ih .inr
      · exact .inr hlt
  | store known _ _ _ _ _ _ h' raised ih ih' =>
      subst raised
      rcases of_raise (Kernel.instruction?_lt known) hu with hu | hlt
      · rcases of_raise (h'.lt_size _ List.mem_cons_self) hu with hu | hlt
        · exact (ih' hu).elim ih .inr
        · exact .inr hlt
      · exact .inr hlt

/-! ## Answers are truthful -/

/-- **An answer that something changed is truthful**: some width is another one than at first, and
by `Handles.le` it grew. The converse fails, since some visits are not counted. -/
theorem exists_grown (h : Handles k vs p c q) (changed : c = true) :
    ∃ u, ¬ q.width? u ≤ p.width? u := by
  -- what grew on a part of the way grew on the whole of it
  have later {p q r : Progress} (hpq : ∀ u, p.width? u ≤ q.width? u)
      (h : ∃ u, ¬ r.width? u ≤ q.width? u) : ∃ u, ¬ r.width? u ≤ p.width? u :=
    h.imp fun u hu hle => hu (Width.le_trans hle (hpq u))
  have earlier {p q r : Progress} (hqr : ∀ u, q.width? u ≤ r.width? u)
      (h : ∃ u, ¬ q.width? u ≤ p.width? u) : ∃ u, ¬ r.width? u ≤ p.width? u :=
    h.imp fun u hu hle => hu (Width.le_trans (hqr u) hle)
  have raised {p : Progress} {v : ValueId} {bits : Nat} (h : p.grows v bits = true) :
      ∃ u, ¬ (p.raise v bits).width? u ≤ p.width? u := by
    refine ⟨v, fun hle => ?_⟩
    rw [Progress.grows_eq_false.mpr (Width.le_trans (p.le_raise_self v bits) hle)] at h
    cases h
  induction h with
  | nil | visited | seeded | returnVoid => cases changed
  | cons first rest ih ih' =>
      rcases Bool.or_eq_true_iff.mp changed with h | h
      · exact earlier rest.le (ih h)
      · exact later first.le (ih' h)
  | natural | constant | jump => exact raised changed
  | arithmetic _ _ _ _ h _ _ h' | comparison _ _ _ _ h _ h' =>
      -- only the raise of the value itself counts; the answers of the operands' visits are dropped
      exact later (fun u => Width.le_trans (h.le u) (h'.le u)) (raised changed)
  | copy _ _ _ _ h => exact later h.le (raised changed)
  | branch _ _ _ _ h ih =>
      rcases Bool.or_eq_true_iff.mp changed with hc | hc
      · exact earlier (Progress.le_raise _ _ _) (ih hc)
      · exact later h.le (raised hc)
  | @elementPointer v base _ _ q _ _ _ bits _ _ _ _ h _ _ raise ih =>
      subst raise
      rcases Bool.or_eq_true_iff.mp changed with hc | hc
      · rcases Bool.or_eq_true_iff.mp hc with hc | hc
        · exact earlier (Progress.le_raise _ _ _) (earlier (Progress.le_raise _ _ _) (ih hc))
        · exact earlier (Progress.le_raise _ _ _) (later h.le (raised hc))
      · exact later h.le (later (Progress.le_raise _ _ _) (raised hc))
  | @store v _ address _ _ _ s _ _ _ a _ _ _ _ h _ _ h' raise _ ih' =>
      subst raise
      have hs u := Width.le_trans (h.le u) (h'.le u)
      rcases Bool.or_eq_true_iff.mp changed with hc | hc
      · rcases Bool.or_eq_true_iff.mp hc with hc | hc
        · have hgrown := later h.le (ih' hc)
          exact earlier (Progress.le_raise _ _ _) (earlier (Progress.le_raise _ _ _) hgrown)
        · exact earlier (Progress.le_raise _ _ _) (later hs (raised hc))
      · exact later hs (later (Progress.le_raise _ _ _) (raised hc))

end Handles

/-! ## Constants -/

/-- A constant that was handled or has a width has at least the width it starts from. -/
def Progress.Started (k : Kernel) (p : Progress) : Prop :=
  ∀ u, u ∈ p.visited ∨ (p.width? u).isSome → k.HoldsConstant p.width? u

namespace Progress.Started

variable {k : Kernel} {p q : Progress} {v : ValueId}

/-- Only one value is new, and for that one it is known. -/
theorem of_new (h : p.Started k) (hv : k.HoldsConstant q.width? v)
    (hle : ∀ u, p.width? u ≤ q.width? u)
    (hnew : ∀ u, u ≠ v → u ∈ q.visited ∨ (q.width? u).isSome →
      u ∈ p.visited ∨ (p.width? u).isSome) : q.Started k := by
  intro u hu
  by_cases e : u = v
  · exact e ▸ hv
  · exact (h u (hnew u e hu)).mono (hle u)

theorem mark (h : p.Started k) (hv : k.HoldsConstant p.width? v) : (p.mark v).Started k := by
  apply h.of_new (q := p.mark v) hv (fun u => Width.le_refl _)
  intro u hne hu
  exact hu.imp (fun hu => (List.mem_cons.mp hu).resolve_left hne) id

theorem raise {bits : Nat} (h : p.Started k) (hv : k.HoldsConstant (p.raise v bits).width? v) :
    (p.raise v bits).Started k := by
  apply h.of_new hv (p.le_raise v bits)
  intro u hne hu
  exact hu.imp id fun hu => (Progress.isSome_width?_raise hu).resolve_right hne

theorem mark_raise {bits : Nat} (h : p.Started k)
    (hv : k.HoldsConstant ((p.mark v).raise v bits).width? v) :
    ((p.mark v).raise v bits).Started k := by
  -- not `mark` and then `raise`: between the two a constant counts as handled without a width
  apply h.of_new hv ((p.mark v).le_raise v bits)
  intro u hne hu
  refine hu.imp (fun hu => (List.mem_cons.mp hu).resolve_left hne) fun hu => ?_
  exact (Progress.isSome_width?_raise hu).resolve_right hne

end Progress.Started

namespace Handles

variable {k : Kernel} {vs : List ValueId} {p q : Progress} {c : Bool}

/-- Constants get the width that they start from when they are handled, and keep it. -/
theorem started (h : Handles k vs p c q) (hp : p.Started k) : q.Started k := by
  have target {v : ValueId} {vs : List ValueId} {r s t : Progress} {d : Bool}
      (h : Handles k vs r d s) (hv : v ∈ vs) (hs : s.Started k) (hst : s.Before t) :
      k.HoldsConstant t.width? v :=
    (hs v (.inl (h.mem_visited v hv))).mono (hst.width v)
  induction h with
  | nil | visited => exact hp
  | cons _ _ ih ih' => exact ih' (ih hp)
  | seeded known _ base => exact hp.mark (.of_isBase known base)
  | natural known _ base => exact hp.mark_raise (.of_isBase known base)
  | @constant v p x c known _ kind =>
      -- a constant gets its starting width at once
      apply hp.mark_raise
      intro y d hy hd
      obtain rfl : x = y := Option.some.inj (known.symm.trans hy)
      obtain rfl : c = d := by
        rw [kind] at hd
        exact ValueKind.constant.inj hd
      exact Progress.le_raise_self _ _ _
  | returnVoid known => exact hp.mark (.of_instruction known)
  | jump known => exact hp.mark_raise (.of_instruction known)
  | arithmetic known _ _ _ _ _ _ _ _ ih ih' | comparison known _ _ _ _ _ _ ih ih' =>
      exact (ih' (ih (hp.mark (.of_instruction known)))).raise (.of_instruction known)
  | copy known _ _ _ _ _ ih | branch known _ _ _ _ ih =>
      exact (ih (hp.mark (.of_instruction known))).raise (.of_instruction known)
  | elementPointer known _ _ _ h _ _ raised ih =>
      subst raised
      have hq := ih (hp.mark (.of_instruction known))
      apply (hq.raise (.of_instruction known)).raise
      exact target h List.mem_cons_self hq (Progress.Before.refl _).raise.raise
  | store known _ _ _ _ _ _ h' raised ih ih' =>
      subst raised
      have hs := ih' (ih (hp.mark (.of_instruction known)))
      refine (hs.raise ?_).raise (.of_instruction known)
      exact target h' List.mem_cons_self hs (Progress.Before.refl _).raise

end Handles

/-! ## Where an instruction was handled -/

/-- Somewhere between `p` and `q` the instruction `v` was handled, from `p'` to `q'`. -/
structure Handles.Within (k : Kernel) (p q : Progress) (v : ValueId) (p' : Progress) (c : Bool)
    (q' : Progress) : Prop where
  before : p.Before p'
  run : Handles k [v] p' c q'
  new : v ∉ p'.visited
  after : q'.Before q
  started : p.Started k → p'.Started k

namespace Handles

variable {k : Kernel} {vs : List ValueId} {p q : Progress} {c : Bool}

/-- What happened on a part of the way happened on the whole of it. -/
theorem Within.extend {p r s : Progress} {v : ValueId} {p' q' : Progress} {d : Bool}
    (h : Within k r s v p' d q') (hp : p.Before r) (hs : s.Before q)
    (started : p.Started k → r.Started k) : Within k p q v p' d q' :=
  ⟨hp.trans h.before, h.run, h.new, h.after.trans hs, fun hp => h.started (started hp)⟩

theorem Within.self {v : ValueId} (h : Handles k [v] p c q) (new : v ∉ p.visited) :
    ∃ p' d q', Within k p q v p' d q' :=
  ⟨p, c, q, .refl p, h, new, .refl q, id⟩

/-- A rule that goes through two operands handles a value within the first or within the second. -/
theorem Within.of_operands {u v o o' : ValueId} {i : Instruction} {p q r s : Progress} {c d : Bool}
    (known : k.instruction? v = some i) (h : Handles k [o] (p.mark v) c q)
    (h' : Handles k [o'] q d r) (after : r.Before s)
    (first : u ∈ q.visited → ∃ p' d q', Within k (p.mark v) q u p' d q')
    (second : u ∉ q.visited → ∃ p' d q', Within k q r u p' d q') :
    ∃ p' d q', Within k p s u p' d q' := by
  have marked (hp : p.Started k) : (p.mark v).Started k := hp.mark (.of_instruction known)
  by_cases hq : u ∈ q.visited
  · obtain ⟨p', d, q', hw⟩ := first hq
    exact ⟨p', d, q', hw.extend (.mark p v) (h'.before.trans after) marked⟩
  · obtain ⟨p', d, q', hw⟩ := second hq
    refine ⟨p', d, q', hw.extend ((Progress.Before.mark p v).trans h.before) after ?_⟩
    intro hp
    exact h.started (marked hp)

/-- **Each value that came to count as handled was handled at one point on the way.** So what a
derivation does to one instruction is read off a derivation for that instruction alone. -/
theorem exists_within (h : Handles k vs p c q) {u : ValueId} (new : u ∉ p.visited)
    (old : u ∈ q.visited) : ∃ p' d q', Within k p q u p' d q' := by
  have not_mark {v : ValueId} {p : Progress} (new : u ∉ p.visited) (e : u ≠ v) :
      u ∉ (p.mark v).visited := fun hu => (List.mem_cons.mp hu).elim e new
  have only {v : ValueId} {p : Progress} (new : u ∉ p.visited) (old : u ∈ (p.mark v).visited) :
      u = v := (List.mem_cons.mp old).resolve_right new
  have marked {v : ValueId} {i : Instruction} {p : Progress} (known : k.instruction? v = some i)
      (hp : p.Started k) : (p.mark v).Started k := hp.mark (.of_instruction known)
  -- either the value is the one that a rule is for, or it was handled below, as an operand
  induction h with
  | nil | visited => exact absurd old new
  | @cons v w vs p q r here later first rest ih ih' =>
      by_cases hq : u ∈ q.visited
      · obtain ⟨p', d, q', hw⟩ := ih new hq
        exact ⟨p', d, q', hw.extend (.refl p) rest.before id⟩
      · obtain ⟨p', d, q', hw⟩ := ih' hq old
        exact ⟨p', d, q', hw.extend first.before (.refl r) first.started⟩
  | seeded known new' base has =>
      obtain rfl := only new old
      exact Within.self (.seeded known new' base has) new
  | natural known new' base missing type =>
      obtain rfl := only new old
      exact Within.self (.natural known new' base missing type) new
  | constant known new' kind =>
      obtain rfl := only new old
      exact Within.self (.constant known new' kind) new
  | returnVoid known new' opcode bare =>
      obtain rfl := only new old
      exact Within.self (.returnVoid known new' opcode bare) new
  | jump known new' opcode =>
      obtain rfl := only new old
      exact Within.self (.jump known new' opcode) new
  | @arithmetic v l r i p q s c d a b known new' opcode left h width right h' width' ih ih' =>
      by_cases e : u = v
      · subst e
        exact Within.self (.arithmetic known new' opcode left h width right h' width') new
      · apply Within.of_operands known h h' (Progress.Before.refl s).raise
        · exact ih (not_mark new e)
        · intro hq
          exact ih' hq old
  | @comparison v l r i p q s c d known new' opcode left h right h' ih ih' =>
      by_cases e : u = v
      · subst e
        exact Within.self (.comparison known new' opcode left h right h') new
      · apply Within.of_operands known h h' (Progress.Before.refl s).raise
        · exact ih (not_mark new e)
        · intro hq
          exact ih' hq old
  | @elementPointer v base i p q s c a bits known new' opcode start h width wider raised ih =>
      by_cases e : u = v
      · subst e
        exact Within.self (.elementPointer known new' opcode start h width wider raised) new
      · subst raised
        obtain ⟨p', d, q', hw⟩ := ih (not_mark new e) old
        exact ⟨p', d, q', hw.extend (.mark p v) (Progress.Before.refl q).raise.raise
          (marked known)⟩
  | @copy v o i p q c a known new' opcode operand h width ih =>
      by_cases e : u = v
      · subst e
        exact Within.self (.copy known new' opcode operand h width) new
      · obtain ⟨p', d, q', hw⟩ := ih (not_mark new e) old
        exact ⟨p', d, q', hw.extend (.mark p v) (Progress.Before.refl q).raise (marked known)⟩
  | @store v x y i p q s t c d a known new' opcode data h width target h' raised ih ih' =>
      by_cases e : u = v
      · subst e
        exact Within.self (.store known new' opcode data h width target h' raised) new
      · subst raised
        apply Within.of_operands known h h' (Progress.Before.refl s).raise.raise
        · exact ih (not_mark new e)
        · intro hq
          exact ih' hq old
  | @branch v condition i p q c known new' opcode operand h ih =>
      by_cases e : u = v
      · subst e
        exact Within.self (.branch known new' opcode operand h) new
      · obtain ⟨p', d, q', hw⟩ := ih (not_mark new e) old
        exact ⟨p', d, q', hw.extend (.mark p v) (Progress.Before.refl q).raise (marked known)⟩

end Handles

end Datapath
