import Datapath.Proofs.Width.Least
import Datapath.Proofs.Width.Seeds
import Datapath.Proofs.Width.Succeeding

/-!
# Inference as a closure operator

Where operands come first in the text, inference settles on the least widths that hold the seeds and
obey the rules. As an operation on the widths of parameters it has what that entails:

* wider parameters make for wider values (`infer_le`);
* no parameter ends up below the width it started from;
* to state for every parameter the width it ended up with changes nothing (`infer_eq_of_between`).

The last compares a run with a second one that starts higher. That the second one succeeds as well
is no consequence of the least fixed point but of `exists_infer_of_infer`.
-/

namespace Datapath

/-! ## Stating widths -/

namespace Table

variable {α β : Type} [DecidableEq α] {t : Table α β} {pairs : List (α × β)} {a : α} {b : β}

theorem find?_insertAll_of_not_mem (h : a ∉ pairs.map Prod.fst) :
    (t.insertAll pairs).find? a = t.find? a := by
  induction pairs generalizing t with
  | nil => rfl
  | cons pair rest ih =>
      rw [List.map_cons, List.mem_cons, not_or] at h
      rw [insertAll, List.foldl_cons]
      exact (ih h.2).trans (find?_insert_of_ne fun e => h.1 e.symm)

/-- Of pairs with different keys each one is found. -/
theorem find?_insertAll_of_mem (nodup : (pairs.map Prod.fst).Nodup) (h : (a, b) ∈ pairs) :
    (t.insertAll pairs).find? a = some b := by
  induction pairs generalizing t with
  | nil => cases h
  | cons pair rest ih =>
      rw [List.map_cons, List.nodup_cons] at nodup
      rw [insertAll, List.foldl_cons]
      rcases List.mem_cons.mp h with rfl | h
      · exact (find?_insertAll_of_not_mem nodup.1).trans (find?_insert_self _ _ _)
      · exact ih nodup.2 h

end Table

namespace Kernel

variable {k : Kernel} {o o' : Overrides} {s s' m m' : Widths} {p : ValueId} {bits : Nat}

/-- States for every parameter the width that is recorded for it. -/
def restate (k : Kernel) (m : Widths) : Overrides :=
  .ofList (k.params.map fun p => (k.nameOf p, (m.width? p).getD 0))

theorem bits?_restate (distinct : (k.params.map k.nameOf).Nodup) (hp : p ∈ k.params)
    (hm : m.width? p = some bits) : (k.restate m).bits? (k.nameOf p) = some bits := by
  apply Table.find?_insertAll_of_mem
  · rwa [List.map_map]
  · refine List.mem_map.mpr ⟨p, hp, ?_⟩
    rw [hm]
    rfl

/-- A parameter starts from the width that is stated for it. -/
theorem paramWidth_of_bits? (wf : k.WellFormed) (hp : p ∈ k.params)
    (h : o.bits? (k.nameOf p) = some bits) : k.paramWidth o p = .ok bits := by
  obtain ⟨x, hx, -⟩ := wf.mem_params.mp hp
  unfold paramWidth
  rw [value_eq_ok.mpr hx]
  simp only [bind, Except.bind, h]
  rfl

/-! ## One run and another -/

theorem isLeast_of_infer (wf : k.WellFormed) (first : k.OperandsFirst) (hs : k.seeds o = .ok s)
    (h : k.infer o = .ok m) : IsLeast {w | k.Admits s (fun _ => False) w} m.width? := by
  obtain ⟨s', hs', h⟩ := Outcome.bind_eq_ok.mp h
  obtain rfl : s = s' := Except.ok.inj (hs.symm.trans hs')
  have followed : Infer.follow k [] { widths := s } = .ok () { widths := s } := rfl
  have hleast := isLeast_of_follow wf first hs followed h
  simpa only [List.not_mem_nil] using hleast

/-- Wider seeds make for wider values. -/
theorem infer_le (wf : k.WellFormed) (first : k.OperandsFirst) (hs : k.seeds o = .ok s)
    (hs' : k.seeds o' = .ok s') (h : k.infer o = .ok m) (h' : k.infer o' = .ok m')
    (hle : ∀ v, s.width? v ≤ s'.width? v) (v : ValueId) : m.width? v ≤ m'.width? v := by
  -- what the higher seeds lead to is admitted from the lower ones as well
  have hm' := (isLeast_of_infer wf first hs' h').1
  apply (isLeast_of_infer wf first hs h).2
  exact ⟨fun u => Width.le_trans (hle u) (hm'.seeds u), hm'.constants, hm'.obeys⟩

/-- **A run that starts between the seeds and what came of them** leads to the same widths. -/
theorem infer_eq_of_between (wf : k.WellFormed) (first : k.OperandsFirst) (hs : k.seeds o = .ok s)
    (hs' : k.seeds o' = .ok s') (h : k.infer o = .ok m) (lower : ∀ v, s.width? v ≤ s'.width? v)
    (upper : ∀ v, s'.width? v ≤ m.width? v) :
    ∃ m', k.infer o' = .ok m' ∧ ∀ v, m'.width? v = m.width? v := by
  obtain ⟨m', h'⟩ := exists_infer_of_infer wf h hs'
  refine ⟨m', h', fun v => ?_⟩
  -- the first result is admitted from the second seeds, and lies between
  have hm := (isLeast_of_infer wf first hs h).1
  have hle := (isLeast_of_infer wf first hs' h').2 ⟨upper, hm.constants, hm.obeys⟩ v
  exact Width.le_antisymm hle (infer_le wf first hs hs' h h' lower v)

/-- Stating the widths that came of some seeds leads to seeds again, between the two. -/
theorem exists_seeds_restate (wf : k.WellFormed) (distinct : (k.params.map k.nameOf).Nodup)
    (hs : k.seeds o = .ok s) (hle : ∀ v, s.width? v ≤ m.width? v) :
    ∃ s', k.seeds (k.restate m) = .ok s' ∧ (∀ v, s.width? v ≤ s'.width? v) ∧
      ∀ v, s'.width? v ≤ m.width? v := by
  obtain ⟨params, globals⟩ := exists_widths_of_seeds hs
  -- a parameter starts from its recorded width now, which is no smaller than its seed
  have restated : ∀ p ∈ k.params, ∀ a, k.paramWidth o p = .ok a →
      ∃ b, m.width? p = some b ∧ a ≤ b ∧ k.paramWidth (k.restate m) p = .ok b := by
    intro p hp a ha
    have hseed := hle p
    rw [(seeds_eq_some_iff wf hs).mpr (.inl ⟨hp, ha⟩)] at hseed
    obtain ⟨b, hb, hab⟩ := Width.some_le_iff.mp hseed
    exact ⟨b, hb, hab, paramWidth_of_bits? wf hp (bits?_restate distinct hp hb)⟩
  obtain ⟨s', hs'⟩ : ∃ s', k.seeds (k.restate m) = .ok s' := by
    refine exists_seeds (fun p hp => ?_) globals
    obtain ⟨a, ha⟩ := params p hp
    obtain ⟨b, -, -, hb⟩ := restated p hp a ha
    exact ⟨b, hb⟩
  refine ⟨s', hs', ?_, ?_⟩
  · -- the restated seed is the recorded width, which is no smaller
    apply seeds_le wf hs hs'
    intro p hp a b' ha hb'
    obtain ⟨b, -, hab, hb⟩ := restated p hp a ha
    obtain rfl : b = b' := Except.ok.inj (hb.symm.trans hb')
    exact hab
  · intro v
    cases hv : s'.width? v with
    | none => exact Option.none_le
    | some b' =>
        rcases (seeds_eq_some_iff wf hs').mp hv with ⟨hp, hb'⟩ | ⟨hg, hb'⟩
        · obtain ⟨a, ha⟩ := params v hp
          obtain ⟨b, hm, -, hb⟩ := restated v hp a ha
          obtain rfl : b = b' := Except.ok.inj (hb.symm.trans hb')
          exact hm ▸ Width.le_refl _
        · -- globals have the seeds they had before
          rw [← (seeds_eq_some_iff wf hs).mpr (.inr ⟨hg, hb'⟩)]
          exact hle v

/-- **Inference is a closure operator on the widths of parameters.** It grows with the widths that
parameters start from, it leaves no parameter below that, and stating for each parameter the width
that was inferred for it leads to the same widths again. -/
theorem infer_closure {name : String} {script : List Step}
    (built : Kernel.ofScript? name script = some k) (first : k.OperandsFirst)
    (distinct : (k.params.map k.nameOf).Nodup) :
    (∀ o o' m m', k.infer o = .ok m → k.infer o' = .ok m' →
      (∀ p ∈ k.params, ∀ a b, k.paramWidth o p = .ok a → k.paramWidth o' p = .ok b → a ≤ b) →
      ∀ v, m.width? v ≤ m'.width? v) ∧
    ∀ o m, k.infer o = .ok m →
      (∀ p ∈ k.params, ∃ a, k.paramWidth o p = .ok a ∧ some a ≤ m.width? p) ∧
      ∃ m', k.infer (k.restate m) = .ok m' ∧ ∀ v, m'.width? v = m.width? v := by
  have wf := ofScript?_wellFormed built
  constructor
  · intro o o' m m' h h' params
    obtain ⟨s, hs, -⟩ := Outcome.bind_eq_ok.mp h
    obtain ⟨s', hs', -⟩ := Outcome.bind_eq_ok.mp h'
    exact infer_le wf first hs hs' h h' (seeds_le wf hs hs' params)
  · intro o m h
    obtain ⟨s, hs, -⟩ := Outcome.bind_eq_ok.mp h
    have hle : ∀ v, s.width? v ≤ m.width? v := (isLeast_of_infer wf first hs h).1.seeds
    constructor
    · -- extensive: a parameter ends up no narrower than its seed
      intro p hp
      obtain ⟨a, ha⟩ := (exists_widths_of_seeds hs).1 p hp
      have hseed := (seeds_eq_some_iff wf hs).mpr (.inl ⟨hp, ha⟩)
      exact ⟨a, ha, hseed ▸ hle p⟩
    · -- idempotent: the restated seeds lie between the old ones and the result
      obtain ⟨s', hs', lower, upper⟩ := exists_seeds_restate wf distinct hs hle
      exact infer_eq_of_between wf first hs hs' h lower upper

/-- A store widens the pointer that it goes through, from four bits to eight. With the eight bits
stated the same widths come out. -/
theorem infer_closure_copy :
    Kernel.ofScript? "copy" copyScript = some copy ∧ copy.OperandsFirst ∧
      (copy.params.map copy.nameOf).Nodup ∧
      ∃ m, copy.infer .empty = .ok m ∧ copy.paramWidth .empty ⟨1⟩ = .ok 4 ∧
        m.width? ⟨1⟩ = some 8 ∧
        ∃ m', copy.infer (copy.restate m) = .ok m' ∧ ∀ v, m'.width? v = m.width? v := by
  have built : Kernel.ofScript? "copy" copyScript = some copy := rfl
  have first : copy.OperandsFirst :=
    operandsFirst_of_ascending (ofScript?_wellFormed built) (by decide +kernel)
  have distinct : (copy.params.map copy.nameOf).Nodup := by decide +kernel
  obtain ⟨m, hm, hw⟩ : ∃ m, copy.infer .empty = .ok m ∧ m.width? ⟨1⟩ = some 8 := by
    have h : (copy.infer .empty).toOption.map (·.width? ⟨1⟩) = some (some 8) := by decide +kernel
    obtain ⟨m, hm, hw⟩ := Option.map_eq_some_iff.mp h
    exact ⟨m, Outcome.toOption_eq_some.mp hm, hw⟩
  obtain ⟨-, closed⟩ := infer_closure built first distinct
  exact ⟨built, first, distinct, m, hm, rfl, hw, (closed .empty m hm).2⟩

end Kernel

end Datapath
