import Datapath.Proofs.Width.Settling

/-!
# The widths that inference starts from

Seeds are recorded one after the other, parameters before globals. `Kernel.seeds_eq_some_iff` is
what comes of it: in a well-formed kernel nothing is both, so a seed is the width that its parameter
or its global starts from and nothing else is recorded. It follows that seeds only depend on the
widths that parameters start from, and grow with them.
-/

namespace Datapath

/-- Raising along a list leaves other values alone and joins into each value on the list the width
it has there, once or more often. -/
theorem Widths.width?_foldlM_raise {width : ValueId → Outcome Nat} {vs : List ValueId}
    {w s : Widths} (h : vs.foldlM (fun w v => return (w.raise v (← width v)).2) w = .ok s)
    (u : ValueId) :
    (u ∉ vs → s.width? u = w.width? u) ∧
      ∀ bits, u ∈ vs → width u = .ok bits → s.width? u = Width.join (w.width? u) (some bits) := by
  induction vs generalizing w with
  | nil =>
      obtain rfl := Outcome.pure_eq_ok.mp h
      exact ⟨fun _ => rfl, nofun⟩
  | cons v vs ih =>
      rw [List.foldlM_cons, Outcome.bind_eq_ok] at h
      obtain ⟨w', hw', h⟩ := h
      obtain ⟨bits, hbits, hw'⟩ := Outcome.bind_eq_ok.mp hw'
      obtain rfl := Outcome.pure_eq_ok.mp hw'
      obtain ⟨off, on⟩ := ih h
      by_cases e : v = u
      · subst e
        have here : (w.raise v bits).2.width? v = Width.join (w.width? v) (some bits) := by
          rw [width?_raise, if_pos rfl]
        refine ⟨fun hv => absurd List.mem_cons_self hv, fun bits' _ hbits' => ?_⟩
        obtain rfl : bits = bits' := Except.ok.inj (hbits.symm.trans hbits')
        by_cases hv : v ∈ vs
        · rw [on bits hv hbits, here, Width.join_assoc, Width.join_self]
        · rw [off hv, here]
      · rw [width?_raise_of_ne e] at off on
        constructor
        · intro hu
          exact off fun hmem => hu (List.mem_cons_of_mem v hmem)
        · intro bits' hu
          exact on bits' ((List.mem_cons.mp hu).resolve_left fun e' => e e'.symm)

namespace Kernel

variable {k : Kernel} {o o' : Overrides} {s s' : Widths} {v : ValueId} {bits : Nat}

theorem WellFormed.not_mem_globals (wf : k.WellFormed) (hv : v ∈ k.params) : v ∉ k.globals := by
  intro hg
  obtain ⟨x, hx, ha⟩ := wf.mem_params.mp hv
  obtain ⟨y, hy, hg⟩ := wf.mem_globals.mp hg
  obtain rfl : x = y := Option.some.inj (hx.symm.trans hy)
  cases hk : x.kind <;> simp_all [Value.isArgument, Value.isGlobal]

/-- What is raised along a list has been found. -/
theorem exists_of_foldlM_raise {width : ValueId → Outcome Nat} {vs : List ValueId} {w s : Widths}
    (h : vs.foldlM (fun w v => return (w.raise v (← width v)).2) w = .ok s) {v : ValueId}
    (hv : v ∈ vs) : ∃ bits, width v = .ok bits := by
  obtain ⟨d, e, hstep⟩ := Outcome.exists_of_foldlM_eq_ok h v hv
  obtain ⟨bits, hbits, -⟩ := Outcome.bind_eq_ok.mp hstep
  exact ⟨bits, hbits⟩

/-- **Seeds are the widths that parameters and globals start from**, and there is no other. -/
theorem seeds_eq_some_iff (wf : k.WellFormed) (hs : k.seeds o = .ok s) :
    s.width? v = some bits ↔
      v ∈ k.params ∧ k.paramWidth o v = .ok bits ∨
        v ∈ k.globals ∧ k.globalWidth v = .ok bits := by
  obtain ⟨w, hparams, hglobals⟩ := Outcome.bind_eq_ok.mp hs
  obtain ⟨notParam, param⟩ := Widths.width?_foldlM_raise hparams v
  obtain ⟨notGlobal, global⟩ := Widths.width?_foldlM_raise hglobals v
  by_cases hp : v ∈ k.params
  · have hg := wf.not_mem_globals hp
    obtain ⟨a, ha⟩ := exists_of_foldlM_raise hparams hp
    rw [notGlobal hg, param a hp ha, ha]
    simp [hp, hg]
  · by_cases hg : v ∈ k.globals
    · obtain ⟨a, ha⟩ := exists_of_foldlM_raise hglobals hg
      rw [global a hg ha, notParam hp, ha]
      simp [hp, hg]
    · rw [notGlobal hg, notParam hp]
      simp [hp, hg]

/-- Every parameter has a seed, and every global. -/
theorem exists_widths_of_seeds (hs : k.seeds o = .ok s) :
    (∀ p ∈ k.params, ∃ bits, k.paramWidth o p = .ok bits) ∧
      ∀ g ∈ k.globals, ∃ bits, k.globalWidth g = .ok bits := by
  obtain ⟨w, hparams, hglobals⟩ := Outcome.bind_eq_ok.mp hs
  exact ⟨fun _ hp => exists_of_foldlM_raise hparams hp,
    fun _ hg => exists_of_foldlM_raise hglobals hg⟩

/-- There are seeds if parameters and globals all have a width to start from. -/
theorem exists_seeds (params : ∀ p ∈ k.params, ∃ bits, k.paramWidth o p = .ok bits)
    (globals : ∀ g ∈ k.globals, ∃ bits, k.globalWidth g = .ok bits) :
    ∃ s, k.seeds o = .ok s := by
  have raised {width : ValueId → Outcome Nat} {v : ValueId} (h : ∃ bits, width v = .ok bits)
      (w : Widths) : ∃ u, (do return (w.raise v (← width v)).2 : Outcome Widths) = .ok u := by
    obtain ⟨bits, hbits⟩ := h
    exact ⟨(w.raise v bits).2, Outcome.bind_eq_ok.mpr ⟨bits, hbits, rfl⟩⟩
  obtain ⟨w, hw⟩ := Outcome.exists_foldlM_eq_ok_of_forall (fun p hp => raised (params p hp)) .empty
  obtain ⟨s, hs⟩ := Outcome.exists_foldlM_eq_ok_of_forall (fun g hg => raised (globals g hg)) w
  exact ⟨s, Outcome.bind_eq_ok.mpr ⟨w, hw, hs⟩⟩

/-- Seeds grow with the widths that parameters start from. -/
theorem seeds_le (wf : k.WellFormed) (hs : k.seeds o = .ok s) (hs' : k.seeds o' = .ok s')
    (params : ∀ p ∈ k.params, ∀ a b, k.paramWidth o p = .ok a → k.paramWidth o' p = .ok b → a ≤ b)
    (v : ValueId) : s.width? v ≤ s'.width? v := by
  cases hv : s.width? v with
  | none => exact Option.none_le
  | some a =>
      have known : (s'.width? v).isSome := by
        rw [isSome_seeds hs', ← isSome_seeds hs, hv]
        rfl
      obtain ⟨b, hb⟩ := Option.isSome_iff_exists.mp known
      rw [hb, Option.some_le_some]
      -- no value is a parameter and a global, so both widths come from the same source
      rcases (seeds_eq_some_iff wf hs).mp hv with ⟨hp, ha⟩ | ⟨hg, ha⟩ <;>
        rcases (seeds_eq_some_iff wf hs').mp hb with ⟨hp', hb⟩ | ⟨hg', hb⟩
      · exact params v hp a b ha hb
      · exact absurd hg' (wf.not_mem_globals hp)
      · exact absurd hg (wf.not_mem_globals hp')
      · exact Nat.le_of_eq (Except.ok.inj (ha.symm.trans hb))

end Kernel

end Datapath
