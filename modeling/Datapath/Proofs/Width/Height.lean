import Datapath.Proofs.Width.Faults
import Datapath.Proofs.Width.Settling
import Mathlib.Algebra.Order.BigOperators.Group.Finset

/-!
# The number of passes

Widths only grow, and none ever exceeds the widest seed, the widest constant and 1. So there is a
*weight*, the sum over all values of one more than the width, that starts no lower than zero, ends
no higher than the number of values times one more than that bound, and rises with every pass that
answers that widths changed. That is the number of passes `Kernel.latticeHeight` allows for, and why
inference never runs out of them.
-/

namespace Datapath

/-! ## The bound on widths -/

theorem le_foldl_max {l : List Nat} {a : Nat} (h : a ∈ l) : a ≤ l.foldl max 0 :=
  (List.max?_eq_some_iff.mp List.max?_cons').2 a (List.mem_cons_of_mem 0 h)

theorem Widths.width?_le_widest (w : Widths) (v : ValueId) : w.width? v ≤ some w.widest := by
  cases hv : w.width? v with
  | none => exact Option.none_le
  | some a =>
      -- the table lists the width, and the maximum is taken over what it lists
      have hmem : (v, a) ∈ w.recorded.entries := (Table.find?_eq_some_iff _ v a).mp hv
      exact Option.some_le_some.mpr (le_foldl_max (List.mem_map_of_mem hmem))

namespace Kernel

variable {k : Kernel}

theorem ofConstant_le_widestConstant {v : ValueId} {x : Value} {c : Int}
    (hx : k.value? v = some x) (hc : x.kind = .constant c) :
    Width.ofConstant c ≤ k.widestConstant := by
  apply le_foldl_max
  apply List.mem_map_of_mem
  refine List.mem_filterMap.mpr ⟨x, ?_, by rw [Value.constant?, hc]⟩
  exact Array.mem_toList_iff.mpr (Array.mem_of_getElem? hx)

/-- All values as wide as each other obey every rule. -/
theorem obeys_const {b : Nat} (h : 1 ≤ b) : k.Obeys fun _ => some b := by
  intro v i hi
  unfold Instruction.Obeyed
  -- rules compare widths with each other, and a comparison with 1
  split <;> simp [h]

/-- The bound on widths that the seeds and the constants set. -/
def ceiling (k : Kernel) (seeds : Widths) : Nat := max (max seeds.widest k.widestConstant) 1

/-- What lies below the ceiling stays below it. -/
theorem le_ceiling {s : Widths} {vs : List ValueId} {p q : Progress} {c : Bool}
    (h : Handles k vs p c q) (hp : p.Valid k)
    (below : ∀ u, p.width? u ≤ some (k.ceiling s)) (u : ValueId) :
    q.width? u ≤ some (k.ceiling s) := by
  have constants : ∀ o, k.HoldsConstant (fun _ => some (k.ceiling s)) o := by
    intro o x c hx hc
    have hle := ofConstant_le_widestConstant hx hc
    refine Option.some_le_some.mpr (Nat.le_trans hle ?_)
    exact Nat.le_trans (Nat.le_max_right _ _) (Nat.le_max_left _ _)
  exact h.le_of_obeys (obeys_const (Nat.le_max_right _ _)) (fun o _ => constants o)
    (fun o _ => constants o) hp.bases below u

/-! ## The weight of an assignment -/

def weigh (w : Option Nat) : Nat := w.elim 0 (· + 1)

theorem weigh_le {x y : Option Nat} (h : x ≤ y) : weigh x ≤ weigh y := by
  cases x with
  | none => exact Nat.zero_le _
  | some a =>
      obtain ⟨b, rfl, hab⟩ := Width.some_le_iff.mp h
      exact Nat.succ_le_succ hab

theorem weigh_lt {x y : Option Nat} (h : ¬ y ≤ x) : weigh x < weigh y := by
  cases y with
  | none => exact absurd Option.none_le h
  | some b =>
      cases x with
      | none => exact Nat.succ_pos b
      | some a =>
          rw [Option.some_le_some] at h
          exact Nat.succ_lt_succ (Nat.lt_of_not_le h)

/-- The sum over all values of one more than the width. -/
def weight (k : Kernel) (w : ValueId → Option Nat) : Nat :=
  ∑ n ∈ Finset.range k.size, weigh (w ⟨n⟩)

theorem weight_le {w : ValueId → Option Nat} {b : Nat} (h : ∀ v, w v ≤ some b) :
    k.weight w ≤ k.size * (b + 1) := by
  have hone : ∀ n ∈ Finset.range k.size, weigh (w ⟨n⟩) ≤ b + 1 := by
    intro n _
    exact weigh_le (h ⟨n⟩)
  have hsum := Finset.sum_le_card_nsmul _ _ _ hone
  rwa [Finset.card_range, Nat.nsmul_eq_mul] at hsum

/-- A pass that answers that widths changed adds to the weight. -/
theorem weight_lt_of_pass {p q : Progress} (hp : p.Valid k)
    (h : Infer.pass k p = .ok true q) : k.weight p.width? < k.weight q.width? := by
  have hrun := Infer.handles_of_pass h
  -- one width grew, that of a value of the kernel, and none shrank
  obtain ⟨u, hu⟩ := hrun.exists_grown rfl
  have hq : (q.width? u).isSome := by
    cases hw : q.width? u with
    | none => exact absurd (hw ▸ Option.none_le) hu
    | some a => rfl
  have hlt := (hp.begin.handle hrun).inRange u hq
  refine Finset.sum_lt_sum (fun n _ => weigh_le (hrun.le ⟨n⟩)) ⟨u.index, ?_, weigh_lt hu⟩
  exact Finset.mem_range.mpr hlt

/-! ## Passes in a row -/

/-- A number of passes, one after the other, that all answer that widths changed. -/
inductive Changes (k : Kernel) : Nat → Progress → Progress → Prop
  | none (p : Progress) : Changes k 0 p p
  | pass {n : Nat} {p q r : Progress} (first : Infer.pass k p = .ok true q)
      (rest : Changes k n q r) : Changes k (n + 1) p r

theorem Changes.add_weight_le {n : Nat} {p q : Progress} (h : Changes k n p q) (hp : p.Valid k) :
    n + k.weight p.width? ≤ k.weight q.width? := by
  induction h with
  | none p => omega
  | pass first _ ih =>
      -- the first pass adds at least one, the others as many as there are of them
      have hlt := weight_lt_of_pass hp first
      have hle := ih (hp.begin.handle (Infer.handles_of_pass first))
      omega

theorem Changes.le_ceiling {s : Widths} {n : Nat} {p q : Progress} (h : Changes k n p q)
    (hp : p.Valid k) (below : ∀ u, p.width? u ≤ some (k.ceiling s)) :
    ∀ u, q.width? u ≤ some (k.ceiling s) := by
  induction h with
  | none p => exact below
  | pass first _ ih =>
      have hrun := Infer.handles_of_pass first
      exact ih (hp.begin.handle hrun) (Kernel.le_ceiling hrun hp.begin below)

/-- The seeds bound how often widths can change. -/
theorem Changes.le_of_seeds (wf : k.WellFormed) {o : Overrides} {s : Widths}
    (hs : k.seeds o = .ok s) {n : Nat} {p : Progress} (h : Changes k n { widths := s } p) :
    n ≤ k.size * (k.ceiling s + 1) := by
  have hp := valid_seeds wf hs
  -- to begin with, every width is a seed
  have below : ∀ u, s.width? u ≤ some (k.ceiling s) := by
    intro u
    refine Width.le_trans (s.width?_le_widest u) (Option.some_le_some.mpr ?_)
    exact Nat.le_trans (Nat.le_max_left _ _) (Nat.le_max_left _ _)
  have hweight := h.add_weight_le hp
  have hmax := Kernel.weight_le (k := k) (h.le_ceiling hp below)
  omega

/-- Settling fails for want of passes, after a change in each, or as one of its passes does. -/
theorem settle_eq_error {motive : Progress → Prop}
    (step : ∀ p q, motive p → Infer.pass k p = .ok true q → motive q) {fuel : Nat} {p : Progress}
    (hp : motive p) {fault : Fault} (h : k.settle fuel p = .error fault) :
    (∃ q, Changes k fuel p q) ∨ ∃ r q, motive r ∧ Infer.pass k r = .error fault q := by
  induction fuel generalizing p with
  -- no passes are left, so all that there were have changed something
  | zero => exact .inl ⟨p, .none p⟩
  | succ fuel ih =>
      rw [settle] at h
      split at h
      · next q hpass =>
        rcases ih (step p q hp hpass) h with ⟨r, hr⟩ | hfault
        · exact .inl ⟨r, .pass hpass hr⟩
        · exact .inr hfault
      · cases h
      · next fault' q hpass =>
        -- the pass fails, from where the ones before have led
        cases h
        exact .inr ⟨p, q, hp, hpass⟩

/-- To run out of passes takes a change in each of them. -/
theorem exists_changes_of_settle {fuel : Nat} {p : Progress} {f : String} {n : Nat}
    (h : k.settle fuel p = .error (.rejected (.noFixpoint f n))) : ∃ q, Changes k fuel p q := by
  rcases settle_eq_error (motive := fun _ => True) (fun _ _ _ _ => trivial) trivial h with
    hq | ⟨r, q, -, hpass⟩
  · exact hq
  · -- a pass of its own never blames the number of passes
    exact (Infer.faultsAre_pass k r _ q hpass).elim

/-- A run that ends well has changed a width in every pass but its last. -/
theorem exists_changes_of_settle_eq_ok {fuel : Nat} {p : Progress} {m : Widths}
    (h : k.settle fuel p = .ok m) : ∃ n q, Changes k n p q ∧ m.passes = p.passes + n + 1 := by
  induction fuel generalizing p with
  | zero => simp [settle] at h
  | succ fuel ih =>
      rw [settle] at h
      split at h
      · next q hpass =>
        have hq : q.passes = p.passes + 1 := (Infer.handles_of_pass hpass).passes_eq
        obtain ⟨n, r, hr, hm⟩ := ih h
        exact ⟨n + 1, r, .pass hpass hr, by omega⟩
      · next q hpass =>
        -- the last pass, and the only one that is counted without a change
        have hq : q.passes = p.passes + 1 := (Infer.handles_of_pass hpass).passes_eq
        cases h
        exact ⟨0, p, .none p, hq⟩
      · cases h

/-- Settling takes no more passes than it is given. -/
theorem passes_le_of_settle {fuel : Nat} {p : Progress} {m : Widths}
    (h : k.settle fuel p = .ok m) : m.passes ≤ p.passes + fuel := by
  induction fuel generalizing p with
  | zero => simp [settle] at h
  | succ fuel ih =>
      rw [settle] at h
      split at h
      · next q hpass =>
        have hq : q.passes = p.passes + 1 := (Infer.handles_of_pass hpass).passes_eq
        have hm := ih h
        omega
      · next q hpass =>
        have hq : q.passes = p.passes + 1 := (Infer.handles_of_pass hpass).passes_eq
        cases h
        -- the pass that changed nothing is the last one counted
        show q.passes ≤ _
        omega
      · cases h

/-- **The lattice height is high enough.** Inference never gives up for want of passes: only as many
of them can change a width as there are values, times one more than the widest seed or constant. -/
theorem latticeHeight_suffices {name : String} {script : List Step} {k : Kernel}
    (built : Kernel.ofScript? name script = some k) (o : Overrides) :
    (∀ f n, k.infer o ≠ .error (.rejected (.noFixpoint f n))) ∧
      ∀ s, k.seeds o = .ok s →
        (∀ n p, Changes k n { widths := s } p →
          n ≤ k.size * (max (max s.widest k.widestConstant) 1 + 1)) ∧
        ∀ m, k.infer o = .ok m → m.passes ≤ k.latticeHeight s := by
  have wf := ofScript?_wellFormed built
  constructor
  · intro f n h
    rcases Outcome.bind_eq_error.mp h with h | ⟨s, hs, h⟩
    · exact (ofKernel_seeds h).elim
    · obtain ⟨q, hq⟩ := exists_changes_of_settle h
      have hle := hq.le_of_seeds wf hs
      -- one more pass was allowed than the weight leaves room for
      change k.size * (k.ceiling s + 1) + 1 ≤ _ at hle
      omega
  · intro s hs
    refine ⟨fun n p h => h.le_of_seeds wf hs, ?_⟩
    intro m hm
    obtain ⟨s', hs', hm⟩ := Outcome.bind_eq_ok.mp hm
    obtain rfl : s = s' := Except.ok.inj (hs.symm.trans hs')
    have hle := passes_le_of_settle hm
    have hzero : ({ widths := s } : Progress).passes = 0 := rfl
    rw [hzero, Nat.zero_add] at hle
    exact hle

/-- A byte is copied to where another pointer leads. -/
def copyScript : List Step :=
  [.param "from" (.pointer (.int 8)), .param "to" (.pointer (.int 4)), .block "entry",
    .moveTo ⟨0⟩, .load ⟨0⟩ "x", .store ⟨2⟩ ⟨1⟩, .ret none]

def copy : Kernel := (Kernel.ofScript? "copy" copyScript).getD (.empty "copy")

theorem latticeHeight_suffices_copy :
    Kernel.ofScript? "copy" copyScript = some copy ∧
      (∀ f n, copy.infer .empty ≠ .error (.rejected (.noFixpoint f n))) ∧
        (∀ s, copy.seeds .empty = .ok s → ∀ n p, Changes copy n { widths := s } p →
          n ≤ 5 * (max (max s.widest copy.widestConstant) 1 + 1)) ∧
        ∃ s p m, copy.seeds .empty = .ok s ∧ Changes copy 1 { widths := s } p ∧
          copy.infer .empty = .ok m ∧ m.passes = 2 ∧ m.passes ≤ copy.latticeHeight s := by
  have built : Kernel.ofScript? "copy" copyScript = some copy := rfl
  have hsize : copy.size = 5 := by decide +kernel
  obtain ⟨s, hseeds⟩ : ∃ s, copy.seeds .empty = .ok s := ⟨_, rfl⟩
  have hpasses : (copy.infer .empty).toOption.map (·.passes) = some 2 := by decide +kernel
  obtain ⟨m, hinfer, htwo⟩ : ∃ m, copy.infer .empty = .ok m ∧ m.passes = 2 := by
    cases h : copy.infer .empty with
    | error e => simp [h, Except.toOption] at hpasses
    | ok m => exact ⟨m, rfl, by simpa [h, Except.toOption] using hpasses⟩
  obtain ⟨p, hchanges⟩ : ∃ p, Changes copy 1 { widths := s } p := by
    -- of two passes the first was not the last, so it changed a width
    obtain ⟨s', hs', hrun⟩ := Outcome.bind_eq_ok.mp hinfer
    obtain rfl : s = s' := Except.ok.inj (hseeds.symm.trans hs')
    obtain ⟨n, q, hq, hm⟩ := exists_changes_of_settle_eq_ok hrun
    obtain rfl : n = 1 := by
      have hzero : ({ widths := s } : Progress).passes = 0 := rfl
      omega
    exact ⟨q, hq⟩
  obtain ⟨hnever, hbound⟩ := latticeHeight_suffices built .empty
  exact ⟨built, hnever, fun s hs n p hp => hsize ▸ (hbound s hs).1 n p hp,
    s, p, m, hseeds, hchanges, hinfer, htwo, (hbound s hseeds).2 m hinfer⟩

end Kernel

end Datapath
