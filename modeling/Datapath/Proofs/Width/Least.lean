import Datapath.Proofs.Width.Fixpoint
import Mathlib.Order.Basic
import Mathlib.Order.Bounds.Defs

/-!
# Settled widths are the least

Before inference is run it can be driven by hand: by single passes, and by handling single values in
any order. Where operands come first in the text, none of that matters in the end. The widths that
inference settles on are the *least* that hold the seeds, hold the constants that were looked at,
and obey the rules.

What was looked at is all that a caller can add to: a constant that no rule goes through gets a
width if it is handled by hand, and else gets none.
-/

namespace Datapath

/-! ## Driving inference by hand -/

namespace Infer

/-- A call on inference before it is run. -/
inductive Call where
  | pass
  | process (v : ValueId)

def Call.make (k : Kernel) : Call → Infer Bool
  | pass => Infer.pass k
  | process v => Infer.process k v

/-- Makes calls one after the other, whatever they answer. -/
def follow (k : Kernel) : List Call → Infer Unit
  | [] => return ()
  | call :: rest => do
    let _ ← call.make k
    follow k rest

end Infer

namespace Kernel

/-- The widths of a kernel's values, found after some calls by hand and within a number of passes in
all. -/
def inferAfter (k : Kernel) (overrides : Overrides) (calls : List Infer.Call) (limit : Nat) :
    Outcome Widths := do
  let seeds ← k.seeds overrides
  match Infer.follow k calls { widths := seeds } with
  | .ok _ p => k.run limit p
  | .error fault _ => throw fault

theorem inferAfter_eq_ok {k : Kernel} {o : Overrides} {calls : List Infer.Call} {limit : Nat}
    {m : Widths} : k.inferAfter o calls limit = .ok m ↔
      ∃ s p, k.seeds o = .ok s ∧ Infer.follow k calls { widths := s } = .ok () p ∧
        k.run limit p = .ok m := by
  unfold inferAfter
  rw [Outcome.bind_eq_ok]
  apply exists_congr
  intro s
  -- the calls by hand are followed, or one of them fails and there is no answer
  cases Infer.follow k calls { widths := s } with
  | ok u p => simp
  | error fault p => simp

/-- An assignment of widths that holds the seeds, and the constants that a rule goes through or that
were handled by hand, and that obeys the rules. -/
structure Admits (k : Kernel) (seeds : Widths) (byHand : ValueId → Prop)
    (w : ValueId → Option Nat) : Prop where
  seeds : ∀ v, seeds.width? v ≤ w v
  constants : ∀ c, k.Reads c ∨ byHand c → k.HoldsConstant w c
  obeys : k.Obeys w

variable {k : Kernel} {p q : Progress}

theorem follow_cons {call : Infer.Call} {calls : List Infer.Call} {u : Unit}
    (h : Infer.follow k (call :: calls) p = .ok u q) :
    ∃ c r, call.make k p = .ok c r ∧ Infer.follow k calls r = .ok u q :=
  Run.bind_eq_ok.mp h

/-- What a call by hand does: it keeps the stage valid, loses nothing, and takes in its constant. -/
theorem valid_of_call {call : Infer.Call} {c : Bool} (hp : p.Valid k)
    (h : call.make k p = .ok c q) :
    q.Valid k ∧ (∀ u, p.width? u ≤ q.width? u) ∧
      ∀ v, call = .process v → k.HoldsConstant q.width? v := by
  cases call with
  | pass =>
      exact ⟨valid_of_pass hp h, (Infer.handles_of_pass h).le, nofun⟩
  | process v =>
      have hrun := Handles.of_process h
      have hq := hp.handle hrun
      refine ⟨hq, hrun.le, ?_⟩
      intro u e
      obtain rfl := Infer.Call.process.inj e
      exact hq.started v (.inl (hrun.mem_visited v List.mem_cons_self))

theorem valid_of_follow {calls : List Infer.Call} {u : Unit} (hp : p.Valid k)
    (h : Infer.follow k calls p = .ok u q) :
    q.Valid k ∧ (∀ u, p.width? u ≤ q.width? u) ∧
      ∀ v, .process v ∈ calls → k.HoldsConstant q.width? v := by
  induction calls generalizing p with
  | nil =>
      obtain ⟨-, rfl⟩ := Run.pure_eq_ok.mp h
      exact ⟨hp, fun _ => Width.le_refl _, nofun⟩
  | cons call calls ih =>
      obtain ⟨c, r, hcall, hrest⟩ := follow_cons h
      obtain ⟨hr, hpr, hconst⟩ := valid_of_call hp hcall
      obtain ⟨hq, hrq, hconsts⟩ := ih hr hrest
      refine ⟨hq, fun u => Width.le_trans (hpr u) (hrq u), ?_⟩
      intro v hv
      -- handled by the first call, or by one of the others
      rcases List.mem_cons.mp hv with e | hv
      · exact (hconst v e.symm).mono (hrq v)
      · exact hconsts v hv

/-- Calls by hand stay below what is admitted. -/
theorem le_of_follow (wf : k.WellFormed) {calls : List Infer.Call} {u : Unit} (hp : p.Valid k)
    (h : Infer.follow k calls p = .ok u q) {w : ValueId → Option Nat} (obeys : k.Obeys w)
    (constants : ∀ o, k.Reads o ∨ .process o ∈ calls → k.HoldsConstant w o)
    (below : ∀ u, p.width? u ≤ w u) : ∀ u, q.width? u ≤ w u := by
  induction calls generalizing p with
  | nil =>
      obtain ⟨-, rfl⟩ := Run.pure_eq_ok.mp h
      exact below
  | cons call calls ih =>
      obtain ⟨c, r, hcall, hrest⟩ := follow_cons h
      -- one call stays below, be it a pass or the handling of a value
      have hr : ∀ u, r.width? u ≤ w u := by
        cases call with
        | pass => exact le_of_pass wf hp hcall obeys (fun o ho => constants o (.inl ho)) below
        | process v =>
            have hv : ∀ o ∈ [v], k.HoldsConstant w o := by
              intro o ho
              obtain rfl := List.mem_singleton.mp ho
              exact constants o (.inr List.mem_cons_self)
            exact (Handles.of_process hcall).le_of_obeys obeys (fun o ho => constants o (.inl ho))
              hv hp.bases below
      apply ih (valid_of_call hp hcall).1 hrest _ hr
      intro o ho
      exact constants o (ho.imp id (List.mem_cons_of_mem call))

/-! ## The least assignment -/

/-- The widths that inference settles on, after any calls by hand, are admitted, and every
assignment that is admitted lies above them. -/
theorem isLeast_of_follow (wf : k.WellFormed) (first : k.OperandsFirst) {o : Overrides}
    {s m : Widths} (hs : k.seeds o = .ok s) {calls : List Infer.Call} {limit : Nat}
    (followed : Infer.follow k calls { widths := s } = .ok () p)
    (settled : k.run limit p = .ok m) :
    IsLeast {w | k.Admits s (fun c => .process c ∈ calls) w} m.width? := by
  have hstart := valid_seeds wf hs
  obtain ⟨hp, hsp, hcalled⟩ := valid_of_follow hstart followed
  constructor
  · -- the last pass is calm, and passes only add to what was there when the run began
    have step : ∀ q r, (q.Valid k ∧ ∀ u, p.width? u ≤ q.width? u) →
        Infer.pass k q = .ok true r → r.Valid k ∧ ∀ u, p.width? u ≤ r.width? u := by
      intro q r hq hpass
      refine ⟨valid_of_pass hq.1 hpass, ?_⟩
      intro u
      exact Width.le_trans (hq.2 u) ((Infer.handles_of_pass hpass).le u)
    obtain ⟨q, r, ⟨hq, hpq⟩, hpass, rfl⟩ :=
      settle_eq_ok step ⟨hp, fun _ => Width.le_refl _⟩ settled
    have hpr : ∀ u, p.width? u ≤ r.width? u := by
      intro u
      exact Width.le_trans (hpq u) ((Infer.handles_of_pass hpass).le u)
    have hfinished := finished_of_pass wf hq hpass (obeys_of_unchanged wf hq hpass first)
    refine ⟨fun v => Width.le_trans (hsp v) (hpr v), ?_, hfinished.obeys⟩
    intro c hc
    exact hc.elim (hfinished.constants c) fun hc => (hcalled c hc).mono (hpr c)
  · -- whatever is admitted has room for the calls by hand, and then for every pass
    intro w hw
    have hreads : ∀ c, k.Reads c → k.HoldsConstant w c := fun c hc => hw.constants c (.inl hc)
    have hbelow := le_of_follow wf hstart followed hw.obeys hw.constants hw.seeds
    have step : ∀ q r, (q.Valid k ∧ ∀ u, q.width? u ≤ w u) →
        Infer.pass k q = .ok true r → r.Valid k ∧ ∀ u, r.width? u ≤ w u := by
      intro q r hq hpass
      exact ⟨valid_of_pass hq.1 hpass, le_of_pass wf hq.1 hpass hw.obeys hreads hq.2⟩
    obtain ⟨q, r, ⟨hq, hqw⟩, hpass, rfl⟩ := settle_eq_ok step ⟨hp, hbelow⟩ settled
    exact le_of_pass wf hq hpass hw.obeys hreads hqw

def Unread (k : Kernel) (v : ValueId) : Prop :=
  (∃ x c, k.value? v = some x ∧ x.kind = .constant c) ∧ ¬ k.Reads v

/-- Of two least assignments, the first lies below the second but for constants that no rule goes
through: giving these the widths of the first leaves the second admitted. -/
theorem le_of_isLeast {s : Widths} {byHand byHand' : ValueId → Prop} {w w' : ValueId → Option Nat}
    (h : IsLeast {w | k.Admits s byHand w} w) (h' : k.Admits s byHand' w') {v : ValueId}
    (hv : ¬ k.Unread v) : w v ≤ w' v := by
  classical
  have admitted : k.Admits s byHand fun u => if k.Unread u then w u else w' u := by
    constructor
    · intro u
      split
      · exact h.1.seeds u
      · exact h'.seeds u
    · intro c hc x value hx hk
      show _ ≤ ite _ _ _
      split
      · exact h.1.constants c hc x value hx hk
      · next hread =>
        have hc : k.Reads c := Classical.byContradiction fun hno => hread ⟨⟨x, value, hx, hk⟩, hno⟩
        exact h'.constants c (.inl hc) x value hx hk
    · intro u i hi
      -- a rule looks at its instruction and what it goes through, and neither is unread
      have instruction : ¬ k.Unread u := by
        rintro ⟨⟨x, c, hx, hk⟩, -⟩
        rw [instruction?_of_constant hx hk] at hi
        cases hi
      apply (h'.obeys u i hi).congr (if_neg instruction).symm
      intro o ho
      exact (if_neg fun hunread => hunread.2 ⟨u, i, hi, ho⟩).symm
  have hle := h.2 admitted v
  rwa [if_neg hv] at hle

/-- **Settled widths are the least, whatever was done before.** They are the least assignment that
holds the seeds and the constants looked at and obeys the rules. So other calls by hand lead to the
same widths, but for constants that no rule goes through. -/
theorem inferAfter_isLeast {name : String} {script : List Step} {k : Kernel}
    (built : Kernel.ofScript? name script = some k) (first : k.OperandsFirst) {o : Overrides}
    {s m : Widths} (hs : k.seeds o = .ok s) {calls : List Infer.Call} {limit : Nat}
    (settled : k.inferAfter o calls limit = .ok m) :
    IsLeast {w | k.Admits s (fun c => .process c ∈ calls) w} m.width? ∧
      ∀ calls' limit' m', k.inferAfter o calls' limit' = .ok m' →
        ∀ v, ¬ k.Unread v → m.width? v = m'.width? v := by
  have wf := ofScript?_wellFormed built
  have least {calls : List Infer.Call} {limit : Nat} {m : Widths}
      (h : k.inferAfter o calls limit = .ok m) :
      IsLeast {w | k.Admits s (fun c => .process c ∈ calls) w} m.width? := by
    obtain ⟨s', p, hs', hfollow, hrun⟩ := inferAfter_eq_ok.mp h
    obtain rfl : s = s' := Except.ok.inj (hs.symm.trans hs')
    exact isLeast_of_follow wf first hs hfollow hrun
  refine ⟨least settled, ?_⟩
  intro calls' limit' m' settled' v hv
  -- two least assignments differ in nothing but what is unread
  have hm := least settled
  have hm' := least settled'
  exact Width.le_antisymm (le_of_isLeast hm hm'.1 hv) (le_of_isLeast hm' hm.1 hv)

/-! ### A constant that no rule goes through -/

/-- A kernel that returns its parameter and has a constant beside it. -/
def spareScript : List Step :=
  [.param "x" (.int 8), .constant 5 8, .block "entry", .moveTo ⟨0⟩, .ret (some ⟨0⟩)]

def spare : Kernel := (Kernel.ofScript? "spare" spareScript).getD (.empty "spare")

theorem spare_built : Kernel.ofScript? "spare" spareScript = some spare := rfl

theorem operandsFirst_spare : spare.OperandsFirst :=
  operandsFirst_of_ascending (ofScript?_wellFormed spare_built) (by decide +kernel)

/-- Handling the spare constant by hand gives it a width; running alone does not. -/
theorem exists_inferAfter_spare : ∃ s m m', spare.seeds .empty = .ok s ∧
    spare.inferAfter .empty [.process ⟨1⟩] 3 = .ok m ∧ spare.inferAfter .empty [] 3 = .ok m' ∧
    m.width? ⟨1⟩ = some 4 ∧ m'.width? ⟨1⟩ = none := by
  have hs : (spare.seeds .empty).toOption.isSome = true := by decide +kernel
  have hm : (spare.inferAfter .empty [.process ⟨1⟩] 3).toOption.map (·.width? ⟨1⟩)
      = some (some 4) := by decide +kernel
  have hm' : (spare.inferAfter .empty [] 3).toOption.map (·.width? ⟨1⟩) = some none := by
    decide +kernel
  obtain ⟨s, hs⟩ := Option.isSome_iff_exists.mp hs
  obtain ⟨m, hm, hw⟩ := Outcome.exists_of_toOption_map hm
  obtain ⟨m', hm', hw'⟩ := Outcome.exists_of_toOption_map hm'
  exact ⟨s, m, m', Outcome.toOption_eq_some.mp hs, hm, hm', hw, hw'⟩

/-- So what was done by hand shows, and the result is not the least that obeys the rules and holds
the constants these go through. -/
theorem inferAfter_not_isLeast_spare :
    Kernel.ofScript? "spare" spareScript = some spare ∧ spare.OperandsFirst ∧
      ∃ s m m', spare.seeds .empty = .ok s ∧
        spare.inferAfter .empty [.process ⟨1⟩] 3 = .ok m ∧
        spare.inferAfter .empty [] 3 = .ok m' ∧ m.width? ≠ m'.width? ∧
        ¬ IsLeast {w | spare.Admits s (fun _ => False) w} m.width? := by
  obtain ⟨s, m, m', hs, hm, hm', hw, hw'⟩ := exists_inferAfter_spare
  refine ⟨spare_built, operandsFirst_spare, s, m, m', hs, hm, hm', ?_, ?_⟩
  · intro e
    rw [e, hw'] at hw
    cases hw
  · intro hleast
    -- running alone obeys the rules as well, and leaves the constant without a width
    obtain ⟨s', p, hs', hfollow, hrun⟩ := inferAfter_eq_ok.mp hm'
    obtain rfl : s = s' := Except.ok.inj (hs.symm.trans hs')
    have hadmits := (isLeast_of_follow (ofScript?_wellFormed spare_built) operandsFirst_spare hs
      hfollow hrun).1
    have hle := hleast.2 ⟨hadmits.seeds, fun c hc => hadmits.constants c (hc.imp id nofun),
      hadmits.obeys⟩ ⟨1⟩
    rw [hw, hw'] at hle
    exact Option.not_some_le_none hle

/-- With the spare constant handled by hand or not, all other values get the same widths. -/
theorem inferAfter_isLeast_spare :
    Kernel.ofScript? "spare" spareScript = some spare ∧ spare.OperandsFirst ∧
      ∃ s m m', spare.seeds .empty = .ok s ∧
        spare.inferAfter .empty [.process ⟨1⟩] 3 = .ok m ∧
        spare.inferAfter .empty [] 3 = .ok m' ∧
        IsLeast {w | spare.Admits s (fun c => .process c ∈ [Infer.Call.process ⟨1⟩]) w} m.width? ∧
        ∀ v, ¬ spare.Unread v → m.width? v = m'.width? v := by
  obtain ⟨s, m, m', hs, hm, hm', -, -⟩ := exists_inferAfter_spare
  have hleast := inferAfter_isLeast spare_built operandsFirst_spare hs hm
  exact ⟨spare_built, operandsFirst_spare, s, m, m', hs, hm, hm', hleast.1,
    hleast.2 [] 3 m' hm'⟩

end Kernel

end Datapath
