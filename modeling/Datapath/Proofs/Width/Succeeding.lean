import Datapath.Proofs.Width.Height

/-!
# Success does not depend on how wide things are

Handling fails where an operand is missing, where no rule covers an opcode, or where a width is
asked for that is not recorded. The last is a matter of *which* values have widths and not of how
large these are. So a run succeeds again from any stage that knows the same values, or more
(`Handles.exists_of_covers`).

Hence the passes after one that succeeded succeed as well, and overrides cannot make the difference
between a kernel that inference goes through and one that it does not.
-/

namespace Datapath

namespace Progress

/-- Whatever one stage of inference knows, the other knows too, and in the current pass the same
values were handled. -/
structure Covers (p' p : Progress) : Prop where
  visited : p'.visited = p.visited
  known : ∀ u, (p.width? u).isSome → (p'.width? u).isSome

namespace Covers

variable {p p' : Progress} {v : ValueId} {bits bits' : Nat}

theorem mark (h : p'.Covers p) (v : ValueId) : (p'.mark v).Covers (p.mark v) :=
  ⟨congrArg (v :: ·) h.visited, h.known⟩

/-- A width that is known already may be raised on the one side only. -/
theorem raise_of_isSome (h : p'.Covers p) (hv : (p'.width? v).isSome) :
    p'.Covers (p.raise v bits) where
  visited := h.visited
  known := by
    intro u hu
    rcases isSome_width?_raise hu with hu | rfl
    · exact h.known u hu
    · exact hv

theorem raise (h : p'.Covers p) : (p'.raise v bits').Covers (p.raise v bits) := by
  apply raise_of_isSome
  · exact ⟨h.visited, fun u hu => Width.isSome_of_le (p'.le_raise v bits' u) (h.known u hu)⟩
  · exact Width.isSome_of_le (p'.le_raise_self v bits') rfl

theorem exists_width (h : p'.Covers p) (hv : p.width? v = some bits) :
    ∃ bits', p'.width? v = some bits' :=
  Option.isSome_iff_exists.mp (h.known v (hv ▸ rfl))

end Covers

end Progress

/-- **What was handled once can be handled again** from any stage that knows as much, and the stages
that this leads to compare in the same way. -/
theorem Handles.exists_of_covers {k : Kernel} {vs : List ValueId} {p q : Progress} {c : Bool}
    (h : Handles k vs p c q) {p' : Progress} (hp : p'.Covers p) :
    ∃ c' q', Handles k vs p' c' q' ∧ q'.Covers q := by
  induction h generalizing p' with
  | nil => exact ⟨_, _, .nil p', hp⟩
  | cons _ _ ih ih' =>
      obtain ⟨_, q', h, hq⟩ := ih hp
      obtain ⟨_, r', h', hr⟩ := ih' hq
      exact ⟨_, _, .cons h h', hr⟩
  | visited known old => exact ⟨_, _, .visited known (hp.visited ▸ old), hp⟩
  | seeded known new base has =>
      exact ⟨_, _, .seeded known (hp.visited ▸ new) base (hp.known _ has), hp.mark _⟩
  | @natural v p x bits known new base missing type =>
      -- the other stage may know the width that this one takes from the type
      cases hv : p'.width? v with
      | none => exact ⟨_, _, .natural known (hp.visited ▸ new) base hv type, (hp.mark v).raise⟩
      | some bits' =>
          have has : (p'.width? v).isSome := hv ▸ rfl
          exact ⟨_, _, .seeded known (hp.visited ▸ new) base has, (hp.mark v).raise_of_isSome has⟩
  -- constants, arithmetic and comparisons: both sides raise the value itself
  | constant known new kind =>
      exact ⟨_, _, .constant known (hp.visited ▸ new) kind, (hp.mark _).raise⟩
  | arithmetic known new opcode left _ width right _ width' ih ih' =>
      obtain ⟨_, q', h, hq⟩ := ih (hp.mark _)
      obtain ⟨_, s', h', hs⟩ := ih' hq
      obtain ⟨a, ha⟩ := hq.exists_width width
      obtain ⟨b, hb⟩ := hs.exists_width width'
      exact ⟨_, _, .arithmetic known (hp.visited ▸ new) opcode left h ha right h' hb, hs.raise⟩
  | comparison known new opcode left _ right _ ih ih' =>
      obtain ⟨_, q', h, hq⟩ := ih (hp.mark _)
      obtain ⟨_, s', h', hs⟩ := ih' hq
      exact ⟨_, _, .comparison known (hp.visited ▸ new) opcode left h right h', hs.raise⟩
  | elementPointer known new opcode start _ width _ raised ih =>
      -- two values are raised on either side, the address and its base
      subst raised
      obtain ⟨_, q', h, hq⟩ := ih (hp.mark _)
      obtain ⟨a, ha⟩ := hq.exists_width width
      exact ⟨_, _, .elementPointer known (hp.visited ▸ new) opcode start h ha rfl rfl,
        hq.raise.raise⟩
  | copy known new opcode operand _ width ih =>
      obtain ⟨_, q', h, hq⟩ := ih (hp.mark _)
      obtain ⟨a, ha⟩ := hq.exists_width width
      exact ⟨_, _, .copy known (hp.visited ▸ new) opcode operand h ha, hq.raise⟩
  | store known new opcode data _ width target _ raised ih ih' =>
      subst raised
      obtain ⟨_, q', h, hq⟩ := ih (hp.mark _)
      obtain ⟨_, s', h', hs⟩ := ih' hq
      obtain ⟨a, ha⟩ := hq.exists_width width
      exact ⟨_, _, .store known (hp.visited ▸ new) opcode data h ha target h' rfl, hs.raise.raise⟩
  -- without an operand nothing is asked for
  | returnVoid known new opcode bare =>
      exact ⟨_, _, .returnVoid known (hp.visited ▸ new) opcode bare, hp.mark _⟩
  | jump known new opcode =>
      exact ⟨_, _, .jump known (hp.visited ▸ new) opcode, (hp.mark _).raise⟩
  | branch known new opcode operand _ ih =>
      obtain ⟨_, q', h, hq⟩ := ih (hp.mark _)
      exact ⟨_, _, .branch known (hp.visited ▸ new) opcode operand h, hq.raise⟩

/-! ## Passes -/

namespace Kernel

variable {k : Kernel} {o o' : Overrides} {m s s' : Widths}

/-- A pass succeeds from wherever as much is known as where one has succeeded. -/
theorem exists_pass_of_known (wf : k.WellFormed) {p q p' : Progress} {c : Bool}
    (h : Infer.pass k p = .ok c q) (known : ∀ u, (p.width? u).isSome → (p'.width? u).isSome) :
    ∃ c' q', Infer.pass k p' = .ok c' q' := by
  have covers : p'.begin.Covers p.begin := ⟨rfl, known⟩
  obtain ⟨c', q', h', -⟩ := (Infer.handles_of_pass h).exists_of_covers covers
  exact ⟨c', q', Infer.pass_eq_ok.mpr ((Handles.iff_visitAll wf).mp h')⟩

/-- Once a pass has succeeded, inference settles from the seeds or from any other seeds. -/
theorem exists_infer_of_pass (wf : k.WellFormed) (hs : k.seeds o = .ok s)
    (hs' : k.seeds o' = .ok s') {c : Bool} {q : Progress}
    (h : Infer.pass k { widths := s } = .ok c q) : ∃ m', k.infer o' = .ok m' := by
  have hinfer : k.infer o' = k.settle (k.latticeHeight s') { widths := s' } := by
    unfold infer inferWithin
    rw [hs']
    rfl
  rw [hinfer, Outcome.exists_eq_ok_iff]
  intro fault hfault
  -- all seeds are of the same values, and no pass loses one
  have start : ∀ u, (s.width? u).isSome → (s'.width? u).isSome := by
    intro u hu
    rwa [isSome_seeds hs', ← isSome_seeds hs]
  have step : ∀ p r, (∀ u, (s.width? u).isSome → (p.width? u).isSome) →
      Infer.pass k p = .ok true r → ∀ u, (s.width? u).isSome → (r.width? u).isSome := by
    intro p r hp hpass u hu
    exact Width.isSome_of_le ((Infer.handles_of_pass hpass).le u) (hp u hu)
  rcases settle_eq_error (p := { widths := s' }) step start hfault with ⟨r, hr⟩ | ⟨r, r', hr, hpass⟩
  · have hle := hr.le_of_seeds wf hs'
    change k.size * (k.ceiling s' + 1) + 1 ≤ _ at hle
    omega
  · obtain ⟨c', q', h'⟩ := exists_pass_of_known wf h hr
    cases h'.symm.trans hpass

/-- **Overrides do not decide whether inference succeeds**, as long as every parameter and every
global has a width to start from. -/
theorem exists_infer_of_infer (wf : k.WellFormed) (h : k.infer o = .ok m)
    (hs' : k.seeds o' = .ok s') : ∃ m', k.infer o' = .ok m' := by
  obtain ⟨s, hs, h⟩ := Outcome.bind_eq_ok.mp h
  -- at least one pass is allowed for, and the first one has succeeded
  have hfirst : k.settle (k.latticeHeight s) { widths := s } = .ok m := h
  unfold latticeHeight at hfirst
  rw [settle] at hfirst
  split at hfirst
  · next q hpass => exact exists_infer_of_pass wf hs hs' hpass
  · next q hpass => exact exists_infer_of_pass wf hs hs' hpass
  · cases hfirst

end Kernel

end Datapath
