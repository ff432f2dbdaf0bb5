import Datapath.Proofs.Width.Driven
import Datapath.Proofs.Width.Succeeding

/-!
# What a cap on passes decides

A caller may cap the passes. The cap decides whether inference comes to an end, and never what it
ends with: with enough passes the outcome is that of inference without a cap, and with fewer it is
that the fixed point was not reached.

There is one number of passes that is enough. If inference settles, it is the number that settling
takes. If inference fails, it is one: the pass that fails is the first, since a pass that succeeded
can be repeated from any later stage.
-/

namespace Datapath

namespace Kernel

variable {k : Kernel} {o : Overrides} {s m : Widths} {p : Progress}

/-! ## Settling with more passes or fewer -/

/-- The pass that changes nothing is a pass of its own. -/
theorem lt_passes_of_settle {fuel : Nat} (h : k.settle fuel p = .ok m) : p.passes < m.passes := by
  induction fuel generalizing p with
  | zero => simp [settle] at h
  | succ fuel ih =>
      rw [settle] at h
      split at h
      · next q hpass =>
        have hq : q.passes = p.passes + 1 := (Infer.handles_of_pass hpass).passes_eq
        have hlt := ih h
        omega
      · next q hpass =>
        have hq : q.passes = p.passes + 1 := (Infer.handles_of_pass hpass).passes_eq
        cases h
        exact hq ▸ Nat.lt_succ_self p.passes
      · cases h

/-- **What settles does so with any number of passes that reaches as far**, and gives up with any
that does not. -/
theorem settle_of_settle {fuel : Nat} (h : k.settle fuel p = .ok m) (n : Nat) :
    k.settle n p = if m.passes ≤ p.passes + n then .ok m
      else .error (.rejected (.noFixpoint k.name (p.passes + n))) := by
  induction fuel generalizing p n with
  | zero => simp [settle] at h
  | succ fuel ih =>
      cases n with
      | zero =>
          have hlt : ¬ m.passes ≤ p.passes + 0 := Nat.not_le.mpr (lt_passes_of_settle h)
          rw [if_neg hlt]
          rfl
      | succ n =>
          rw [settle] at h ⊢
          split at h
          · next q hpass =>
            -- a pass that changed something: both runs go on from there
            have hq : q.passes = p.passes + 1 := (Infer.handles_of_pass hpass).passes_eq
            have hreach : q.passes + n = p.passes + (n + 1) := by omega
            rw [← hreach]
            exact ih h n
          · next q hpass =>
            -- the pass that changed nothing ends both
            have hq : q.passes = p.passes + 1 := (Infer.handles_of_pass hpass).passes_eq
            cases h
            have hreach : q.passes ≤ p.passes + (n + 1) := by omega
            exact (if_pos hreach).symm
          · cases h

theorem inferWithin_eq_settle (hs : k.seeds o = .ok s) (cap : Option Nat) :
    k.inferWithin o cap = k.settle (k.passLimit s cap) { widths := s } := by
  unfold inferWithin
  rw [hs]
  rfl

end Kernel

/-! ## Going on after a pass -/

namespace Infer

variable {k : Kernel} {o : Overrides} {p : Progress}

theorem onward_drive (calls : List Call) (hp : p.Supplied k o) : p.Onward (drive k calls p) := by
  induction calls generalizing p with
  | nil => exact .refl p
  | cons call rest ih => exact (call.advances.onward p hp).trans (ih (call.advances.supplied p hp))

/-- Whatever is done after a pass that succeeded, another pass succeeds. -/
theorem exists_pass_drive (wf : k.WellFormed) (hp : p.Supplied k o) {c : Bool} {q : Progress}
    (h : pass k p = .ok c q) (calls : List Call) :
    ∃ c' q', pass k (drive k calls q) = .ok c' q' := by
  have hq : q.Supplied k o := after_of_ok h ▸ advances_pass.supplied p hp
  apply Kernel.exists_pass_of_known wf h
  intro u hu
  have hle : q.width? u ≤ (drive k calls q).width? u := (onward_drive calls hq).width u
  exact Width.isSome_of_le (Width.le_trans ((handles_of_pass h).le u) hle) hu

end Infer

namespace Kernel

variable {k : Kernel} {o : Overrides} {s : Widths}

/-- **The cap only decides whether, never what.** Suppose that all parameters and globals have
widths to start from. If inference settles, a cap changes nothing as long as it allows for the
passes that are needed, and else the passes run out. If inference fails, it does so in its first
pass, and fails in the same way under any cap that allows for one. And by whatever calls inference
is driven, and whichever of them fail: once a pass has succeeded, every later pass succeeds. -/
theorem inferWithin_cap {name : String} {script : List Step}
    (built : Kernel.ofScript? name script = some k) (hs : k.seeds o = .ok s) :
    (∀ m, k.infer o = .ok m → ∀ n, k.inferWithin o (some n) =
      if m.passes ≤ n then .ok m else .error (.rejected (.noFixpoint k.name n))) ∧
    (∀ e, k.infer o = .error e → ∀ n, k.inferWithin o (some n) =
      if 1 ≤ n then .error e else .error (.rejected (.noFixpoint k.name 0))) ∧
    ∀ (before after : List Infer.Call) c q,
      Infer.pass k (Infer.drive k before { widths := s }) = .ok c q →
        ∃ c' q', Infer.pass k (Infer.drive k after q) = .ok c' q' := by
  have wf := ofScript?_wellFormed built
  refine ⟨fun m hm n => ?_, fun e he n => ?_, fun before after c q hpass => ?_⟩
  · -- both runs settle from the same seeds
    rw [infer, inferWithin_eq_settle hs] at hm
    have hcapped := settle_of_settle hm n
    rw [Nat.zero_add] at hcapped
    exact (inferWithin_eq_settle hs (some n)).trans hcapped
  · cases hfirst : Infer.pass k { widths := s } with
    | ok c q =>
        -- an error has to be that of the first pass
        obtain ⟨m, hm⟩ := exists_infer_of_pass wf hs hs hfirst
        cases hm.symm.trans he
    -- the first pass fails, and with it any run that gets to it
    | error fault q =>
        have hfails (fuel : Nat) :
            k.settle (fuel + 1) { widths := s } = .error fault := by rw [settle, hfirst]
        rw [infer, inferWithin_eq_settle hs] at he
        obtain rfl : e = fault := Except.error.inj (he.symm.trans (hfails _))
        rw [inferWithin_eq_settle hs]
        cases n with
        | zero => rfl
        | succ n => exact hfails n
  · have hp := Infer.supplied_drive before (supplied_seeds wf hs)
    exact Infer.exists_pass_drive wf hp hpass after

/-- The byte that is copied takes two passes: the first raises the width of the pointer it is
stored to. One pass is not enough, and two thousand are as good as two. -/
theorem inferWithin_cap_copy : Kernel.ofScript? "copy" copyScript = some copy ∧
    (∃ m, copy.infer .empty = .ok m ∧ m.passes = 2 ∧
      copy.inferWithin .empty (some 2000) = .ok m) ∧
    copy.inferWithin .empty (some 1) = .error (.rejected (.noFixpoint "copy" 1)) := by
  have built : Kernel.ofScript? "copy" copyScript = some copy := rfl
  have hseeds : copy.seeds .empty = .ok ((Widths.empty.raise ⟨0⟩ 8).2.raise ⟨1⟩ 4).2 := rfl
  have hpasses : (copy.infer .empty).toOption.map (·.passes) = some 2 := by decide +kernel
  cases hinfer : copy.infer .empty with
  | error e => simp [hinfer, Except.toOption] at hpasses
  | ok m =>
      have htwo : m.passes = 2 := by simpa [hinfer, Except.toOption] using hpasses
      have hcapped := (inferWithin_cap built hseeds).1 m hinfer
      refine ⟨built, ⟨m, rfl, htwo, ?_⟩, ?_⟩
      · rw [hcapped 2000, htwo]
        rfl
      · rw [hcapped 1, htwo]
        rfl

end Kernel

end Datapath
