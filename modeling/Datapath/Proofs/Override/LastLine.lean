import Datapath.Proofs.Override.Line
import Mathlib.Data.List.Basic
import Mathlib.Data.List.Induction
import Mathlib.Logic.Relation

/-!
# What override text says about a kernel

Lines are entered one after the other, and of two that state a width of one parameter the later one
counts: `Overrides.bits?_foldl_enterLine`. A line that is malformed, states nothing or is about
another kernel is `Inert`. Wherever such lines are put into a text or taken out of it, the overrides
stay the same.

The ends of lines are all alike to overrides. A carriage return is a blank, so it makes no
difference to a line, and text may as well be cut at its line feeds alone.
-/

namespace Datapath.Overrides

open Text Override

variable {kernel param : String} {bits : Nat} {line : List Char} {o : Overrides}

/-! ## Lines that count and lines that do not -/

/-- The line states this width of a parameter of the kernel. -/
def States (kernel param : String) (bits : Nat) (line : List Char) : Prop :=
  ofLine line = .ok (some ⟨kernel, param, bits⟩)

/-- The line says nothing about the kernel. -/
inductive Inert (kernel : String) (line : List Char) : Prop
  | malformed {a : Anomaly} (h : ofLine line = .error a)
  | unmarked (h : ofLine line = .ok none)
  | foreign {entry : Override} (h : ofLine line = .ok (some entry)) (other : entry.kernel ≠ kernel)

/-- The last of the lines that state a width of the parameter states this one. -/
def LastStates (kernel param : String) (bits : Nat) (ls : List (List Char)) : Prop :=
  ∃ before line after, ls = before ++ line :: after ∧ States kernel param bits line ∧
    ∀ later ∈ after, ∀ other, ¬ States kernel param other later

/-- There is no third sort of line. -/
theorem inert_or_states (kernel : String) (line : List Char) :
    Inert kernel line ∨ ∃ param bits, States kernel param bits line := by
  cases h : ofLine line with
  | error a => exact .inl (.malformed h)
  | ok answer =>
      cases answer with
      | none => exact .inl (.unmarked h)
      | some entry =>
          by_cases hkernel : entry.kernel = kernel
          · subst hkernel
            exact .inr ⟨entry.param, entry.bits, h⟩
          · exact .inl (.foreign h hkernel)

/-- A line that says nothing about the kernel states no width of it. -/
theorem Inert.not_states (h : Inert kernel line) : ¬ States kernel param bits line := by
  intro hstates
  cases h with
  | malformed h => cases h.symm.trans hstates
  | unmarked h => cases h.symm.trans hstates
  | foreign h other =>
      cases h.symm.trans hstates
      exact other rfl

/-- Such a line enters nothing. -/
theorem Inert.enterLine_eq (h : Inert kernel line) (o : Overrides) :
    enterLine kernel o line = o := by
  unfold enterLine
  cases h with
  | malformed h => rw [h]
  | unmarked h => rw [h]
  | foreign h other => simp only [h, if_neg other]

/-- A line that states a width enters it. -/
theorem States.enterLine_eq (h : States kernel param bits line) (o : Overrides) :
    enterLine kernel o line = o.insert param bits := by
  unfold enterLine
  rw [h]
  exact if_pos rfl

/-- A line states one width of one parameter. -/
theorem States.unique {param' : String} {bits' : Nat} (h : States kernel param bits line)
    (h' : States kernel param' bits' line) : param = param' ∧ bits = bits' := by
  cases h.symm.trans h'
  exact ⟨rfl, rfl⟩

/-! ## One line after the other -/

/-- A line that states a width of the parameter replaces the one known, and any other line leaves
it. -/
theorem bits?_enterLine : (enterLine kernel o line).bits? param = some bits ↔
    States kernel param bits line ∨
      (∀ other, ¬ States kernel param other line) ∧ o.bits? param = some bits := by
  rcases inert_or_states kernel line with inert | ⟨param', bits', hstates⟩
  · rw [inert.enterLine_eq]
    exact ⟨fun h => .inr ⟨fun _ => inert.not_states, h⟩,
      fun h => h.elim (fun h => absurd h inert.not_states) And.right⟩
  · rw [hstates.enterLine_eq, bits?_insert]
    by_cases hparam : param' = param
    · -- the line is about this parameter, so its width is the one known
      subst hparam
      rw [if_pos rfl, Option.some_inj]
      constructor
      · rintro rfl
        exact .inl hstates
      · rintro (h | ⟨h, -⟩)
        · exact (hstates.unique h).2
        · exact absurd hstates (h bits')
    · rw [if_neg hparam]
      exact ⟨fun h => .inr ⟨fun _ h' => hparam (hstates.unique h').1, h⟩,
        fun h => h.elim (fun h' => absurd (hstates.unique h').1 hparam) And.right⟩

/-- No width is known after a line if none was known before and the line states none. -/
theorem bits?_enterLine_eq_none : (enterLine kernel o line).bits? param = none ↔
    (∀ other, ¬ States kernel param other line) ∧ o.bits? param = none := by
  simp only [Option.eq_none_iff_forall_ne_some, ne_eq, bits?_enterLine]
  constructor
  · intro h
    have hnone : ∀ other, ¬ States kernel param other line := fun other hs => h other (.inl hs)
    exact ⟨hnone, fun bits hbits => h bits (.inr ⟨hnone, hbits⟩)⟩
  · rintro ⟨hnone, hunknown⟩ bits (hstates | ⟨-, hbits⟩)
    · exact hnone bits hstates
    · exact hunknown bits hbits

/-- With one more line at the end, this line is the last that states a width, or it states none and
the last one is among those before. -/
theorem lastStates_concat {ls : List (List Char)} : LastStates kernel param bits (ls ++ [line]) ↔
    States kernel param bits line ∨
      (∀ other, ¬ States kernel param other line) ∧ LastStates kernel param bits ls := by
  constructor
  · rintro ⟨before, stating, after, hls, hstates, hlater⟩
    -- the last stating line is the new one, or some lines stand behind it
    rcases List.eq_nil_or_concat' after with rfl | ⟨after, last, rfl⟩
    · obtain ⟨-, hline⟩ := List.append_inj' hls rfl
      obtain rfl : line = stating := by simpa using hline
      exact .inl hstates
    · rw [← List.cons_append, ← List.append_assoc] at hls
      obtain ⟨rfl, hline⟩ := List.append_inj' hls rfl
      obtain rfl : line = last := by simpa using hline
      exact .inr ⟨hlater line (by simp), before, stating, after, rfl, hstates,
        fun later hmem => hlater later (by simp [hmem])⟩
  · rintro (h | ⟨hnone, before, stating, after, rfl, hstates, hlater⟩)
    · exact ⟨ls, line, [], rfl, h, by simp⟩
    · refine ⟨before, stating, after ++ [line], by simp, hstates, fun later hmem => ?_⟩
      rcases List.mem_append.mp hmem with hmem | hmem
      · exact hlater later hmem
      · rw [List.mem_singleton.mp hmem]
        exact hnone

/-- **The last line counts.** -/
theorem bits?_foldl_enterLine (ls : List (List Char)) :
    (ls.foldl (enterLine kernel) empty).bits? param = some bits ↔
      LastStates kernel param bits ls := by
  induction ls using List.reverseRecOn with
  | nil => simp [LastStates]
  | append_singleton ls line ih =>
      rw [List.foldl_append, List.foldl_cons, List.foldl_nil, bits?_enterLine, lastStates_concat,
        ih]

/-- No width is known where no line states one. -/
theorem bits?_foldl_enterLine_eq_none (ls : List (List Char)) :
    (ls.foldl (enterLine kernel) empty).bits? param = none ↔
      ∀ line ∈ ls, ∀ bits, ¬ States kernel param bits line := by
  induction ls using List.reverseRecOn with
  | nil => simp
  | append_singleton ls line ih =>
      rw [List.foldl_append, List.foldl_cons, List.foldl_nil, bits?_enterLine_eq_none, ih,
        List.forall_mem_append, List.forall_mem_singleton, and_comm]

/-! ## Ends of lines -/

def IsEnd (e : List Char) : Prop := e = ['\n'] ∨ e = ['\r', '\n']

/-- A carriage return at the end of a line is a blank like any other. -/
theorem ofLine_append_return (line : List Char) : ofLine (line ++ ['\r']) = ofLine line := by
  have hwords : words (line ++ ['\r']) = words line := by
    rw [words_append line [] rfl]
    exact List.append_nil _
  rw [ofLine, ofLine, marked, marked, hwords]

theorem enterLine_append_return (kernel : String) (o : Overrides) (line : List Char) :
    enterLine kernel o (line ++ ['\r']) = enterLine kernel o line := by
  rw [enterLine, enterLine, ofLine_append_return]

/-- So it makes no difference whether the return is dropped with the end of the line. -/
theorem enterLine_dropReturn (kernel : String) (o : Overrides) (line : List Char) :
    enterLine kernel o (dropReturn line) = enterLine kernel o line := by
  unfold dropReturn
  split
  · next h =>
    obtain ⟨front, rfl⟩ := List.getLast?_eq_some_iff.mp h
    rw [List.dropLast_concat, enterLine_append_return]
  · rfl

/-- Enters what stands between line feeds. -/
def enterPieces (kernel : String) (o : Overrides) (cs : List Char) : Overrides :=
  (pieces (· == '\n') cs).foldl (enterLine kernel) o

theorem enterPieces_of_notMem (h : '\n' ∉ line) :
    enterPieces kernel o line = enterLine kernel o line := by
  rw [enterPieces, pieces_eq_singleton (eq_false_of_notMem h)]
  rfl

/-- What stands before a line feed is entered first, and then what stands behind it. -/
theorem enterPieces_append_feed (o : Overrides) (before after : List Char) :
    enterPieces kernel o (before ++ '\n' :: after)
      = enterPieces kernel (enterPieces kernel o before) after := by
  rw [enterPieces, pieces_append before after rfl, List.foldl_append]
  rfl

/-- What ends a line makes no difference, and neither does an empty one at the end of a text. -/
theorem foldl_lines (o : Overrides) (cs : List Char) :
    (lines cs).foldl (enterLine kernel) o = enterPieces kernel o cs := by
  induction cs using feed_induction generalizing o with
  | last line plain =>
      rw [lines_of_notMem plain, enterPieces_of_notMem plain]
      split
      · next h =>
        rw [h]
        rfl
      · rfl
  | feed line cs plain ih =>
      rw [lines_append_feed plain, List.foldl_cons, enterLine_dropReturn, ih,
        enterPieces_append_feed, enterPieces_of_notMem plain]

/-- A carriage return at the end of a text makes no difference. -/
theorem enterPieces_append_return (o : Overrides) (cs : List Char) :
    enterPieces kernel o (cs ++ ['\r']) = enterPieces kernel o cs := by
  induction cs using feed_induction generalizing o with
  | last line plain =>
      have hreturn : '\n' ∉ line ++ ['\r'] := by simpa using plain
      rw [enterPieces_of_notMem hreturn, enterPieces_of_notMem plain, enterLine_append_return]
  | feed line cs plain ih =>
      rw [List.append_assoc, List.cons_append, enterPieces_append_feed, ih, enterPieces_append_feed]

/-- Text around the end of a line can be entered in two parts. -/
theorem enterPieces_append_end {e : List Char} (he : IsEnd e) (o : Overrides)
    (before after : List Char) : enterPieces kernel o (before ++ e ++ after)
      = enterPieces kernel (enterPieces kernel o before) after := by
  rcases he with rfl | rfl
  · rw [List.append_assoc, List.singleton_append, enterPieces_append_feed]
  · rw [List.append_cons, List.append_assoc, List.singleton_append, enterPieces_append_feed,
      enterPieces_append_return]

/-! ## Lines put in and taken out -/

/-- The second text is the first one with a line more, in front of a line or behind the last one,
which says nothing about the kernel. -/
inductive PutsIn (kernel : String) : List Char → List Char → Prop
  | inFront {front line e after : List Char} (hfront : front = [] ∨ front.getLast? = some '\n')
      (plain : '\n' ∉ line) (inert : Inert kernel line) (he : IsEnd e) :
      PutsIn kernel (front ++ after) (front ++ (line ++ e ++ after))
  | behind {before e line : List Char} (he : IsEnd e) (plain : '\n' ∉ line)
      (inert : Inert kernel line) : PutsIn kernel before (before ++ e ++ line)

theorem enterPieces_of_inert (plain : '\n' ∉ line) (inert : Inert kernel line) (o : Overrides) :
    enterPieces kernel o line = o := by
  rw [enterPieces_of_notMem plain, inert.enterLine_eq]

/-- A line that says nothing about the kernel makes no difference. -/
theorem PutsIn.enterPieces_eq {cs cs' : List Char} (h : PutsIn kernel cs cs') (o : Overrides) :
    enterPieces kernel o cs' = enterPieces kernel o cs := by
  cases h with
  | @inFront front line e after hfront plain inert he =>
      have hline (o : Overrides) :
          enterPieces kernel o (line ++ e ++ after) = enterPieces kernel o after := by
        rw [enterPieces_append_end he, enterPieces_of_inert plain inert]
      rcases hfront with rfl | hfront
      · exact hline o
      · -- what is in front ends with a line feed, so the line begins there
        obtain ⟨front, rfl⟩ := List.getLast?_eq_some_iff.mp hfront
        rw [← List.append_cons, ← List.append_cons, enterPieces_append_feed,
          enterPieces_append_feed, hline]
  | behind he plain inert =>
      rw [enterPieces_append_end he, enterPieces_of_inert plain inert]

theorem enterPieces_eq_of_eqvGen {cs cs' : List Char} (h : Relation.EqvGen (PutsIn kernel) cs cs')
    (o : Overrides) : enterPieces kernel o cs = enterPieces kernel o cs' := by
  induction h with
  | rel cs cs' h => exact (h.enterPieces_eq o).symm
  | refl cs => rfl
  | symm cs cs' _ ih => exact ih.symm
  | trans cs cs' cs'' _ _ ih ih' => exact ih.trans ih'

theorem ofText_eq (kernel text : String) :
    ofText kernel text = enterPieces kernel empty text.toList :=
  foldl_lines empty text.toList

/-- **The last line counts, and the others do not.** What a text states for a parameter of a kernel
is what the last one of its lines does that states a width of it. Lines that say nothing about the
kernel can be put in and taken out in any number and anywhere. -/
theorem ofText_exact (kernel text : String) : ∃ ls, (∀ ls', Lined ls' text.toList ↔ ls' = ls) ∧
    (∀ param bits,
      (ofText kernel text).bits? param = some bits ↔ LastStates kernel param bits ls) ∧
    (∀ param, (ofText kernel text).bits? param = none ↔
      ∀ line ∈ ls, ∀ bits, ¬ States kernel param bits line) ∧
    ∀ text' : String, Relation.EqvGen (PutsIn kernel) text.toList text'.toList →
      ofText kernel text' = ofText kernel text := by
  refine ⟨lines text.toList, fun ls' => ?_, fun param bits => bits?_foldl_enterLine _,
    fun param => bits?_foldl_enterLine_eq_none _, fun text' h => ?_⟩
  · rw [← lines_eq_iff, eq_comm]
  · rw [ofText_eq, ofText_eq, enterPieces_eq_of_eqvGen h]

example : (ofText "fir" "DATASIZE fir.x 7\r\nDATASIZE fir.x 9\r\nDATASIZE fir.x").bits? "x" = some 9 :=
  rfl

end Datapath.Overrides
