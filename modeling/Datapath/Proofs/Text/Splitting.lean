import Datapath.Text.Split
import Mathlib.Data.Nat.Digits.Defs

/-!
# Words, lines and numerals

Splitting is a function. The way back is a relation, since blanks between words and the ends of
lines can be of several kinds:

    pieces_eq_iff : pieces p cs = ps ↔ Cut p ps cs
    words_eq_iff  : words cs = ws ↔ Spaced ws cs
    lines_eq_iff  : lines cs = ls ↔ Lined ls cs

A numeral is read by its positional value, and the decimal form of a number is read as that number.
-/

namespace Datapath.Text

variable {p : Char → Bool} {c : Char} {cs : List Char}

/-! ## Pieces -/

/-- A text is made of these pieces with one cutting character between neighbours. -/
inductive Cut (p : Char → Bool) : List (List Char) → List Char → Prop
  | last {w : List Char} (plain : ∀ d ∈ w, p d = false) : Cut p [w] w
  | cut {w : List Char} {c : Char} {ps : List (List Char)} {cs : List Char}
      (plain : ∀ d ∈ w, p d = false) (hc : p c = true) (rest : Cut p ps cs) :
      Cut p (w :: ps) (w ++ c :: cs)

/-- A character that does not cut belongs to the first piece. -/
theorem Cut.cons {ps : List (List Char)} {w : List Char} (hc : p c = false)
    (h : Cut p (w :: ps) cs) : Cut p ((c :: w) :: ps) (c :: cs) := by
  have hplain {w : List Char} (plain : ∀ d ∈ w, p d = false) : ∀ d ∈ c :: w, p d = false :=
    List.forall_mem_cons.mpr ⟨hc, plain⟩
  cases h with
  | last plain => exact .last (hplain plain)
  | cut plain hd rest => exact .cut (hplain plain) hd rest

theorem cut_pieces (p : Char → Bool) (cs : List Char) : Cut p (pieces p cs) cs := by
  induction cs with
  | nil => exact .last (by simp)
  | cons c rest ih =>
      rw [pieces]
      split
      · next hc =>
        -- the text begins with a cut, so its first piece is empty
        have hempty : Cut p ([] :: pieces p rest) ([] ++ c :: rest) := .cut (by simp) hc ih
        exact hempty
      · next hc =>
        split
        · next hnil => exact absurd hnil (pieces_ne_nil p rest)
        · next piece others hcons =>
          rw [hcons] at ih
          exact ih.cons (by simpa using hc)

/-- **Pieces.** They are what stands between cuts. -/
theorem pieces_eq_iff {ps : List (List Char)} : pieces p cs = ps ↔ Cut p ps cs := by
  constructor
  · rintro rfl
    exact cut_pieces p cs
  · intro h
    induction h with
    | last plain => exact pieces_eq_singleton plain
    | cut plain hc rest ih => rw [pieces_append_cons plain hc, ih]

/-- The pieces before a cut and behind it are those of the two parts. -/
theorem pieces_append (before after : List Char) (hc : p c = true) :
    pieces p (before ++ c :: after) = pieces p before ++ pieces p after := by
  induction before with
  | nil => simp [pieces, hc]
  | cons d rest ih =>
      rw [List.cons_append, pieces, pieces, ih]
      cases h : pieces p rest with
      | nil => exact absurd h (pieces_ne_nil p rest)
      | cons piece others => split <;> rfl

/-! ## Words -/

structure IsWord (w : List Char) : Prop where
  ne_nil : w ≠ []
  plain : ∀ c ∈ w, isBlank c = false

/-- A text has these words, with blanks between neighbours and maybe around all. -/
inductive Spaced : List (List Char) → List Char → Prop
  | nil : Spaced [] []
  | blank {c : Char} {ws : List (List Char)} {cs : List Char} (hc : isBlank c = true)
      (rest : Spaced ws cs) : Spaced ws (c :: cs)
  | last {w : List Char} (hw : IsWord w) : Spaced [w] w
  | word {w : List Char} {c : Char} {ws : List (List Char)} {cs : List Char} (hw : IsWord w)
      (hc : isBlank c = true) (rest : Spaced ws cs) : Spaced (w :: ws) (w ++ c :: cs)

/-- A blank may be taken for the place where a text is cut in two. -/
theorem words_append (before after : List Char) (hc : isBlank c = true) :
    words (before ++ c :: after) = words before ++ words after := by
  rw [words, pieces_append before after hc, List.filter_append]
  rfl

/-- A word is a text of one word. -/
theorem words_of_isWord {w : List Char} (h : IsWord w) : words w = [w] := by
  rw [words, pieces_eq_singleton h.plain]
  simp [h.ne_nil]

theorem spaced_words (cs : List Char) : Spaced (words cs) cs := by
  -- one piece after the other: an empty one is no word
  have hcut : ∀ {ps cs}, Cut isBlank ps cs → Spaced (ps.filter (!·.isEmpty)) cs := by
    intro ps cs h
    induction h with
    | @last w plain =>
        cases w with
        | nil => exact .nil
        | cons d ds => exact .last ⟨by simp, plain⟩
    | @cut w c ps cs plain hc rest ih =>
        cases w with
        | nil => exact .blank hc ih
        | cons d ds => exact .word ⟨by simp, plain⟩ hc ih
  exact hcut (cut_pieces isBlank cs)

/-- **Words.** They are what stands between blanks. -/
theorem words_eq_iff {ws : List (List Char)} : words cs = ws ↔ Spaced ws cs := by
  constructor
  · rintro rfl
    exact spaced_words cs
  · intro h
    induction h with
    | nil => rfl
    | @blank c ws cs hc rest ih => exact (words_append [] cs hc).trans ih
    | last hw => exact words_of_isWord hw
    | word hw hc rest ih => rw [words_append _ _ hc, words_of_isWord hw, ih, List.singleton_append]

theorem isWord_of_mem_words {w : List Char} (h : w ∈ words cs) : IsWord w := by
  obtain ⟨hpiece, hne⟩ := List.mem_filter.mp h
  exact ⟨by simpa using hne, fun c hc => eq_false_of_mem_pieces hpiece hc⟩

/-! ## Lines -/

/-- A text has these lines. Each one ends in a line feed, with or without a carriage return before
it, and the last one may do without; a carriage return anywhere else is part of its line. -/
inductive Lined : List (List Char) → List Char → Prop
  | nil : Lined [] []
  | last {l : List Char} (hne : l ≠ []) (plain : '\n' ∉ l) : Lined [l] l
  | feed {l : List Char} {ls : List (List Char)} {cs : List Char} (plain : '\n' ∉ l)
      (hl : l.getLast? ≠ some '\r') (rest : Lined ls cs) : Lined (l :: ls) (l ++ '\n' :: cs)
  | returnFeed {l : List Char} {ls : List (List Char)} {cs : List Char} (plain : '\n' ∉ l)
      (rest : Lined ls cs) : Lined (l :: ls) (l ++ '\r' :: '\n' :: cs)

theorem dropReturn_append_return (l : List Char) : dropReturn (l ++ ['\r']) = l := by
  simp [dropReturn]

theorem dropReturn_of_ne {l : List Char} (h : l.getLast? ≠ some '\r') : dropReturn l = l := if_neg h

theorem eq_false_of_notMem {l : List Char} (h : '\n' ∉ l) : ∀ d ∈ l, (d == '\n') = false :=
  fun _ hd => beq_eq_false_iff_ne.mpr fun heq => h (heq ▸ hd)

/-- A text without a line feed is a line, unless it is empty. -/
theorem lines_of_notMem {l : List Char} (h : '\n' ∉ l) : lines l = if l = [] then [] else [l] := by
  rw [lines, pieces_eq_singleton (eq_false_of_notMem h)]
  split <;> simp_all

/-- The first line feed ends the first line. -/
theorem lines_append_feed {l : List Char} (h : '\n' ∉ l) (cs : List Char) :
    lines (l ++ '\n' :: cs) = dropReturn l :: lines cs := by
  rw [lines, pieces_append_cons (eq_false_of_notMem h) rfl, lines]
  -- only the last piece is dropped if it is empty, and that is one of those behind
  obtain ⟨piece, others, hcons⟩ := List.exists_cons_of_ne_nil (pieces_ne_nil (· == '\n') cs)
  simp [hcons]

/-- A text has no line feed, or it has a first one and goes on behind it. -/
theorem feed_induction {motive : List Char → Prop} (last : ∀ l, '\n' ∉ l → motive l)
    (feed : ∀ l cs, '\n' ∉ l → motive cs → motive (l ++ '\n' :: cs)) (cs : List Char) :
    motive cs := by
  have hcut : ∀ {ps cs}, Cut (· == '\n') ps cs → motive cs := by
    intro ps cs h
    have hnotMem {w : List Char} (plain : ∀ d ∈ w, (d == '\n') = false) : '\n' ∉ w :=
      fun hw => absurd (plain _ hw) (by simp)
    induction h with
    | last plain => exact last _ (hnotMem plain)
    | @cut w c ps cs plain hc rest ih =>
        obtain rfl : c = '\n' := by simpa using hc
        exact feed w cs (hnotMem plain) ih
  exact hcut (cut_pieces _ cs)

theorem lined_lines (cs : List Char) : Lined (lines cs) cs := by
  induction cs using feed_induction with
  | last l plain =>
      rw [lines_of_notMem plain]
      split
      · next hl =>
        rw [hl]
        exact .nil
      · next hl => exact .last hl plain
  | feed l cs plain ih =>
      rw [lines_append_feed plain]
      by_cases hl : l.getLast? = some '\r'
      · -- the carriage return belongs to the end of the line
        obtain ⟨l, rfl⟩ := List.getLast?_eq_some_iff.mp hl
        rw [dropReturn_append_return, List.append_assoc]
        exact .returnFeed (fun hmem => plain (List.mem_append_left _ hmem)) ih
      · rw [dropReturn_of_ne hl]
        exact .feed plain hl ih

/-- **Lines.** They are what stands before the ends of lines. -/
theorem lines_eq_iff {ls : List (List Char)} : lines cs = ls ↔ Lined ls cs := by
  constructor
  · rintro rfl
    exact lined_lines cs
  · intro h
    induction h with
    | nil => rfl
    | last hne plain => rw [lines_of_notMem plain, if_neg hne]
    | feed plain hl rest ih => rw [lines_append_feed plain, dropReturn_of_ne hl, ih]
    | @returnFeed l ls cs plain rest ih =>
        -- up to the line feed, the carriage return is part of the line
        have hplain : '\n' ∉ l ++ ['\r'] := by simpa using plain
        rw [List.append_cons, lines_append_feed hplain, dropReturn_append_return, ih]

/-! ## Numerals -/

/-- The number that decimal digits stand for: the last one counts ones, the one before it tens. -/
def positional (digits : List Char) : Nat :=
  Nat.ofDigits 10 (digits.reverse.map fun d => d.toNat - '0'.toNat)

/-- Reading digits from the left gives their positional value. -/
theorem ofDigitChars_eq_positional (digits : List Char) :
    Nat.ofDigitChars 10 digits 0 = positional digits := by
  induction digits with
  | nil => rfl
  | cons d rest ih =>
      rw [Nat.ofDigitChars_cons, Nat.ofDigitChars_eq_ofDigitChars_zero, ih]
      simp [positional, Nat.ofDigits_append]
      ring

/-- A numeral has a digit at least, and nothing but digits. -/
theorem decimal?_eq_some_iff {digits : List Char} {n : Nat} : decimal? digits = some n ↔
    digits ≠ [] ∧ (∀ d ∈ digits, d.isDigit = true) ∧ positional digits = n := by
  simp [decimal?, ofDigitChars_eq_positional, and_assoc]

theorem isDigit_of_mem_repr {n : Nat} {d : Char} (h : d ∈ n.repr.toList) : d.isDigit = true := by
  rw [Nat.toList_repr] at h
  exact Nat.isDigit_of_mem_toDigits (by decide) (by decide) h

theorem toList_repr_ne_nil (n : Nat) : n.repr.toList ≠ [] := by
  rw [Nat.toList_repr]
  exact Nat.toDigits_ne_nil

theorem isBlank_eq_false_of_isDigit (h : c.isDigit = true) : isBlank c = false := by
  rw [Char.isDigit_iff_toNat] at h
  have hlower : 48 ≤ c.toNat := h.1
  have hupper : c.toNat ≤ 57 := h.2
  simp [isBlank]
  omega

theorem isWord_repr (n : Nat) : IsWord n.repr.toList where
  ne_nil := toList_repr_ne_nil n
  plain _ hd := isBlank_eq_false_of_isDigit (isDigit_of_mem_repr hd)

/-- A number is read back from its decimal form. -/
theorem positional_repr (n : Nat) : positional n.repr.toList = n := by
  rw [← ofDigitChars_eq_positional, Nat.toList_repr, Nat.ofDigitChars_ten_toDigits]

end Datapath.Text
