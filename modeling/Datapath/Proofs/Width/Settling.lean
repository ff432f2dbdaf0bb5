import Datapath.Proofs.Width.Applied

/-!
# From seeds to a settled record

Inference starts from the seeds and goes on by passes, and a caller may handle single values before
or between them. `Progress.Valid` is what holds at every stage on the way: arguments and globals
have widths, constants that have one have at least theirs, and only values of the kernel have any.

When inference settles, the last pass has handled every instruction of the text and answered that
nothing changed. `settle_eq_ok` hands that pass out.
-/

namespace Datapath

/-! ## Valid stages -/

/-- What holds of inference at every stage. -/
structure Progress.Valid (k : Kernel) (p : Progress) : Prop where
  bases : k.BasesKnown p.width?
  started : p.Started k
  inRange : ∀ u, (p.width? u).isSome → u.index < k.size

def Progress.begin (p : Progress) : Progress := { p with visited := [], passes := p.passes + 1 }

namespace Progress.Valid

variable {k : Kernel} {p q : Progress} {vs : List ValueId} {c : Bool}

theorem handle (hp : p.Valid k) (h : Handles k vs p c q) : q.Valid k where
  bases := hp.bases.mono h.le
  started := h.started hp.started
  inRange := fun u hu => (h.isSome_or_lt hu).elim (hp.inRange u) id

theorem begin (hp : p.Valid k) : p.begin.Valid k where
  bases := hp.bases
  started := fun u hu => hp.started u (.inr (hu.resolve_left List.not_mem_nil))
  inRange := hp.inRange

end Progress.Valid

/-! ## Passes -/

namespace Infer

theorem pass_eq_ok {k : Kernel} {p q : Progress} {c : Bool} :
    pass k p = .ok c q ↔ visitAll (process k) k.instructions p.begin = .ok c q := by
  unfold pass beginPass
  rw [Run.bind_eq_ok]
  simp only [Run.modify_eq_ok]
  constructor
  · rintro ⟨_, r, rfl, h⟩
    exact h
  · intro h
    exact ⟨⟨⟩, _, rfl, h⟩

theorem handles_of_pass {k : Kernel} {p q : Progress} {c : Bool} (h : pass k p = .ok c q) :
    Handles k k.instructions p.begin c q :=
  Handles.of_visitAll Handles.of_process (pass_eq_ok.mp h)

end Infer

namespace Kernel

variable {k : Kernel} {p : Progress} {m : Widths}

/-- **Settling ends with a pass that answers that nothing changed**, from a stage that every pass
before has led to. -/
theorem settle_eq_ok {motive : Progress → Prop}
    (step : ∀ p q, motive p → Infer.pass k p = .ok true q → motive q) {fuel : Nat} (hp : motive p)
    (h : k.settle fuel p = .ok m) :
    ∃ r q, motive r ∧ Infer.pass k r = .ok false q ∧ m = { q.widths with passes := q.passes } := by
  induction fuel generalizing p with
  | zero => simp [settle] at h
  | succ fuel ih =>
      rw [settle] at h
      split at h
      · next q hpass => exact ih (step p q hp hpass) h
      · next q hpass =>
        cases h
        exact ⟨p, q, hp, hpass, rfl⟩
      · cases h

/-! ## Seeds -/

/-- What is raised for each of some values is known of exactly these afterwards. -/
theorem isSome_foldlM_raise {width : ValueId → Outcome Nat} {vs : List ValueId} {w s : Widths}
    (h : vs.foldlM (fun w v => return (w.raise v (← width v)).2) w = .ok s) (u : ValueId) :
    (s.width? u).isSome ↔ (w.width? u).isSome ∨ u ∈ vs := by
  induction vs generalizing w with
  | nil =>
      obtain rfl := Outcome.pure_eq_ok.mp h
      simp
  | cons v vs ih =>
      rw [List.foldlM_cons, Outcome.bind_eq_ok] at h
      obtain ⟨w', hw', h⟩ := h
      obtain ⟨bits, -, hw'⟩ := Outcome.bind_eq_ok.mp hw'
      obtain rfl := Outcome.pure_eq_ok.mp hw'
      rw [ih h, Widths.width?_raise, List.mem_cons]
      split
      · next e =>
        subst e
        obtain ⟨joined, hj, -⟩ := Width.exists_join_some (w.width? v) bits
        simp [hj]
      · next e =>
        have e' : u ≠ v := fun h => e h.symm
        simp [e']

/-- The seeds are widths of the parameters and the globals. -/
theorem isSome_seeds {o : Overrides} {s : Widths} (h : k.seeds o = .ok s) (u : ValueId) :
    (s.width? u).isSome ↔ u ∈ k.params ∨ u ∈ k.globals := by
  obtain ⟨w, hw, h⟩ := Outcome.bind_eq_ok.mp h
  rw [isSome_foldlM_raise h, isSome_foldlM_raise hw]
  simp

/-- In a well-formed kernel these are the values that addresses are rooted in. -/
theorem isSome_seeds_iff_isBase (wf : k.WellFormed) {o : Overrides} {s : Widths}
    (h : k.seeds o = .ok s) (u : ValueId) :
    (s.width? u).isSome ↔ ∃ x, k.value? u = some x ∧ x.isBase = true := by
  rw [isSome_seeds h, wf.mem_params, wf.mem_globals]
  constructor
  · rintro (⟨x, hx, hb⟩ | ⟨x, hx, hb⟩)
    · exact ⟨x, hx, by rw [Value.isBase, hb, Bool.true_or]⟩
    · exact ⟨x, hx, by rw [Value.isBase, hb, Bool.or_true]⟩
  · rintro ⟨x, hx, hb⟩
    rw [Value.isBase, Bool.or_eq_true] at hb
    exact hb.imp (fun ha => ⟨x, hx, ha⟩) fun hg => ⟨x, hx, hg⟩

/-- The seeds of a well-formed kernel are a valid start. -/
theorem valid_seeds (wf : k.WellFormed) {o : Overrides} {s : Widths} (h : k.seeds o = .ok s) :
    Progress.Valid k { widths := s } where
  bases := fun v x hx base => (isSome_seeds_iff_isBase wf h v).mpr ⟨x, hx, base⟩
  started := by
    intro u hu
    have hs : (s.width? u).isSome := hu.resolve_left List.not_mem_nil
    obtain ⟨x, hx, base⟩ := (isSome_seeds_iff_isBase wf h u).mp hs
    exact .of_isBase hx base
  inRange := by
    intro u hu
    obtain ⟨x, hx, -⟩ := (isSome_seeds_iff_isBase wf h u).mp hu
    exact value?_lt hx

end Kernel

end Datapath
