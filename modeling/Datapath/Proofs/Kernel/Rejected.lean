import Datapath.Proofs.Kernel.Consistent

/-!
# Rejected calls leave no trace

A rejected call hands back a reason and the script goes on. `Step.proper_run` says of one call that
its builder stays as it was; here this is said of a script.

* `runAll_accepted` — at every rejected step the builder after it is the builder before it, and the
  script without its rejected steps gets the same answers and ends in the same builder.

A builder is three things: the kernel, the block that comes next and the table of constants. That a
rejected call leaves the builder as it was is said of all three, the table included. So a constant
that is asked for after a rejection gets the number that it would get without it.
-/

namespace Datapath

namespace Step

variable {s : Step} {script rest : List Step} {b c last : Builder}
  {answers : List (Outcome Answer)}

/-! ## Along a script -/

/-- One step at the front of a script that stays in range: it is answered, or it is rejected and the
builder left alone. -/
theorem cases_of_runAll_cons (run : runAll (s :: rest) b = (answers, some last)) :
    (∃ answer c later, s.run b = .ok answer c ∧ runAll rest c = (later, some last) ∧
        answers = .ok answer :: later) ∨
      ∃ why later, s.run b = .error (.rejected why) b ∧ runAll rest b = (later, some last) ∧
        answers = .error (.rejected why) :: later := by
  rw [runAll] at run
  cases hr : s.run b with
  | ok answer c =>
      rw [hr] at run
      obtain ⟨rfl, hlast⟩ := Prod.mk.inj run
      exact .inl ⟨answer, c, _, rfl, by rw [← hlast], rfl⟩
  | error fault c =>
      rw [hr] at run
      -- only a rejection lets the script go on
      cases fault with
      | outOfRange index => cases (Prod.mk.inj run).2
      | rejected why =>
          obtain rfl := (proper_run s).unchanged hr
          obtain ⟨rfl, hlast⟩ := Prod.mk.inj run
          exact .inr ⟨why, _, rfl, by rw [← hlast], rfl⟩

/-- A script goes on from where its first step leads. -/
theorem runAll_cons_of_ok {answer : Answer} (hs : s.run b = .ok answer c)
    (hrest : runAll rest c = (answers, some last)) :
    runAll (s :: rest) b = (.ok answer :: answers, some last) := by
  rw [runAll, hs]
  simp only [hrest]

theorem runAll_cons_of_rejected {why : Rejection} (hs : s.run b = .error (.rejected why) c)
    (hrest : runAll rest c = (answers, some last)) :
    runAll (s :: rest) b = (.error (.rejected why) :: answers, some last) := by
  rw [runAll, hs]
  simp only [hrest]

/-- A script in two parts stops between them at some builder, and the answers divide there. -/
theorem exists_of_runAll_append {before : List Step}
    (run : runAll (before ++ rest) b = (answers, some last)) :
    ∃ first c later, runAll before b = (first, some c) ∧ first.length = before.length ∧
      runAll rest c = (later, some last) ∧ answers = first ++ later := by
  induction before generalizing b answers with
  | nil => exact ⟨[], b, answers, rfl, rfl, run, rfl⟩
  | cons s before ih =>
      rcases cases_of_runAll_cons run with ⟨answer, d, others, hs, hothers, rfl⟩ |
        ⟨why, others, hs, hothers, rfl⟩
      · obtain ⟨first, c, later, hbefore, hlength, hrest, rfl⟩ := ih hothers
        exact ⟨_, c, later, runAll_cons_of_ok hs hbefore, by simp [hlength], hrest, rfl⟩
      · obtain ⟨first, c, later, hbefore, hlength, hrest, rfl⟩ := ih hothers
        exact ⟨_, c, later, runAll_cons_of_rejected hs hbefore, by simp [hlength], hrest, rfl⟩

/-- Two scripts run one after the other make the run of both. -/
theorem runAll_append {before : List Step} {first : List (Outcome Answer)}
    (hbefore : runAll before b = (first, some c)) (hrest : runAll rest c = (answers, some last)) :
    runAll (before ++ rest) b = (first ++ answers, some last) := by
  induction before generalizing b first with
  | nil =>
      cases hbefore
      exact hrest
  | cons s before ih =>
      rcases cases_of_runAll_cons hbefore with ⟨answer, d, others, hs, hothers, rfl⟩ |
        ⟨why, others, hs, hothers, rfl⟩
      · exact runAll_cons_of_ok hs (ih hothers)
      · exact runAll_cons_of_rejected hs (ih hothers)

/-! ## Leaving out what was rejected -/

/-- The steps of a script that were not rejected, told by the answers they got. -/
def accepted (script : List Step) (answers : List (Outcome Answer)) : List Step :=
  ((script.zip answers).filter fun called => called.2.isOk).map (·.1)

@[simp] theorem accepted_cons_ok (s : Step) (rest : List Step) (answer : Answer)
    (answers : List (Outcome Answer)) :
    accepted (s :: rest) (.ok answer :: answers) = s :: accepted rest answers := rfl

@[simp] theorem accepted_cons_error (s : Step) (rest : List Step) (fault : Fault)
    (answers : List (Outcome Answer)) :
    accepted (s :: rest) (.error fault :: answers) = accepted rest answers := rfl

/-- Without its rejected steps a script has the other answers and comes to the same end. -/
theorem runAll_accepted_of_runAll (run : runAll script b = (answers, some last)) :
    runAll (accepted script answers) b = (answers.filter (·.isOk), some last) := by
  induction script generalizing b answers with
  | nil =>
      obtain ⟨rfl, hlast⟩ := Prod.mk.inj run
      rw [← hlast]
      rfl
  | cons s rest ih =>
      rcases cases_of_runAll_cons run with ⟨answer, c, later, hs, hrest, rfl⟩ |
        ⟨why, later, hs, hrest, rfl⟩
      · -- the step was answered, and is kept
        exact runAll_cons_of_ok hs (ih hrest)
      · -- the step was rejected, so the rest starts where the step did
        exact ih hrest

/-- **Rejections leave no trace.** Wherever a script meets a rejection, the builder behind the step
is the one before it: the same kernel, the same current block and the same table of constants. So
leaving out all rejected steps changes none of the other answers and not the builder at the end. -/
theorem runAll_accepted {name : String}
    (run : runAll script (.start name) = (answers, some last)) :
    (∀ before s after, script = before ++ s :: after →
      ∃ b, (runAll before (.start name)).2 = some b ∧
        ∀ fault, answers[before.length]? = some (.error fault) →
          s.run b = .error fault b ∧ (runAll (before ++ [s]) (.start name)).2 = some b) ∧
    runAll (accepted script answers) (.start name) = (answers.filter (·.isOk), some last) := by
  refine ⟨?_, runAll_accepted_of_runAll run⟩
  rintro before s after rfl
  obtain ⟨first, b, later, hbefore, hlength, hlater, rfl⟩ := exists_of_runAll_append run
  refine ⟨b, by rw [hbefore], ?_⟩
  intro fault hfault
  -- the answer of the step is the first of those that come later
  rw [List.getElem?_append_right (Nat.le_of_eq hlength), hlength, Nat.sub_self] at hfault
  rcases cases_of_runAll_cons hlater with ⟨answer, c, others, hs, -, rfl⟩ |
    ⟨why, others, hs, -, rfl⟩
  · cases hfault
  · cases hfault
    exact ⟨hs, by rw [runAll_append hbefore (runAll_cons_of_rejected hs rfl)]⟩

end Step

open Kernel in
/-- Of fifteen steps two are rejected, the ninth first. It leaves the builder alone, with the constant
in its table, and without the two the same builder comes out. -/
theorem Step.runAll_accepted_scatter :
    (∃ b, (runAll (scatterScript.take 8) (.start "scatter")).2 = some b ∧
        b.constants.find? (5, 8) = some ⟨1⟩ ∧
        (runAll (scatterScript.take 9) (.start "scatter")).2 = some b) ∧
      (accepted scatterScript (runAll scatterScript (.start "scatter")).1).length = 13 ∧
      (runAll (accepted scatterScript (runAll scatterScript (.start "scatter")).1)
        (.start "scatter")).2 = some scatterBuilder := by
  have run : runAll scatterScript (.start "scatter") =
      ((runAll scatterScript (.start "scatter")).1, some scatterBuilder) := rfl
  obtain ⟨unchanged, leftOut⟩ := runAll_accepted run
  refine ⟨?_, by decide +kernel, ?_⟩
  · obtain ⟨b, hb, stays⟩ := unchanged (scatterScript.take 8) (.binary .mul ⟨0⟩ ⟨0⟩ "late")
      (scatterScript.drop 9) rfl
    have found : (runAll (scatterScript.take 8) (.start "scatter")).2.bind
        (·.constants.find? (5, 8)) = some ⟨1⟩ := rfl
    rw [hb] at found
    exact ⟨b, hb, found, (stays _ rfl).2⟩
  · rw [leftOut]

end Datapath
