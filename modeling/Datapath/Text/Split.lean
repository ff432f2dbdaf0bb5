/-!
# Splitting text

Text is taken apart as a list of characters. `pieces` cuts at every character that satisfies a
predicate and keeps what lies between, empty pieces included; **words** and **lines** are two
readings of it.

* Words are the non-empty pieces between blanks, where *blank* is the Unicode property White_Space.
* Lines end at a line feed. A carriage return just before the line feed belongs to the line's end;
  one anywhere else belongs to the line. Text after the last line feed is a line unless it is empty.
-/

namespace Datapath.Text

/-! ## Cutting -/

/-- The stretches between characters that satisfy `p`, in order. There is always one more than
there are cuts. -/
def pieces (p : Char → Bool) : List Char → List (List Char)
  | [] => [[]]
  | c :: rest =>
    if p c then [] :: pieces p rest
    else
      match pieces p rest with
      | [] => [[c]]
      | piece :: others => (c :: piece) :: others

/-- What stands before and after the first occurrence of `c`. -/
def cutAt? (c : Char) : List Char → Option (List Char × List Char)
  | [] => none
  | d :: rest =>
    if d = c then some ([], rest)
    else (cutAt? c rest).map fun (before, after) => (d :: before, after)

def mentions (part : List Char) : List Char → Bool
  | [] => part.isEmpty
  | c :: rest => part.isPrefixOf (c :: rest) || mentions part rest

/-! ## Words -/

/-- The Unicode property White_Space. -/
def isBlank (c : Char) : Bool :=
  let n := c.toNat
  (0x09 ≤ n && n ≤ 0x0D) || n == 0x20 || n == 0x85 || n == 0xA0 || n == 0x1680
    || (0x2000 ≤ n && n ≤ 0x200A) || n == 0x2028 || n == 0x2029 || n == 0x202F || n == 0x205F
    || n == 0x3000

/-- The words of a text: its longest stretches without a blank. -/
def words (text : List Char) : List (List Char) := (pieces isBlank text).filter (!·.isEmpty)

/-! ## Lines -/

/-- A line without the carriage return at its end. -/
def dropReturn (line : List Char) : List Char :=
  if line.getLast? = some '\r' then line.dropLast else line

/-- The lines of a text, without their ends. -/
def lines (text : List Char) : List (List Char) :=
  let all := pieces (· == '\n') text
  all.dropLast.map dropReturn ++ (all.getLast?.filter (!·.isEmpty)).toList

/-! ## Numbers -/

/-- The number written in decimal digits, of which there has to be one. Leading zeros do not
matter. -/
def decimal? (digits : List Char) : Option Nat :=
  if !digits.isEmpty && digits.all Char.isDigit then some (Nat.ofDigitChars 10 digits 0) else none

/-! ## What cutting does -/

theorem pieces_ne_nil (p : Char → Bool) (cs : List Char) : pieces p cs ≠ [] := by
  cases cs with
  | nil => simp [pieces]
  | cons c rest =>
    rw [pieces]
    split
    · simp
    · split <;> simp

/-- A text without a cut is one piece. -/
theorem pieces_eq_singleton {p : Char → Bool} {cs : List Char} (h : ∀ c ∈ cs, p c = false) :
    pieces p cs = [cs] := by
  induction cs with
  | nil => rfl
  | cons c rest ih =>
    rw [pieces, ih fun d hd => h d (List.mem_cons_of_mem c hd)]
    simp [h c List.mem_cons_self]

/-- The first cut ends the first piece. -/
theorem pieces_append_cons {p : Char → Bool} {before : List Char} {c : Char}
    (hbefore : ∀ d ∈ before, p d = false) (hc : p c = true) (after : List Char) :
    pieces p (before ++ c :: after) = before :: pieces p after := by
  induction before with
  | nil => simp [pieces, hc]
  | cons d rest ih =>
    rw [List.cons_append, pieces, ih fun e he => hbefore e (List.mem_cons_of_mem d he)]
    simp [hbefore d List.mem_cons_self]

/-- No piece holds a character that cuts. -/
theorem eq_false_of_mem_pieces {p : Char → Bool} {cs piece : List Char} {c : Char}
    (hpiece : piece ∈ pieces p cs) (hc : c ∈ piece) : p c = false := by
  induction cs generalizing piece with
  | nil =>
    rw [pieces, List.mem_singleton] at hpiece
    simp [hpiece] at hc
  | cons d rest ih =>
    rw [pieces] at hpiece
    split at hpiece
    · rcases List.mem_cons.1 hpiece with rfl | h
      · cases hc
      · exact ih h hc
    · -- `d` is no cut, so it goes in front of the first piece of the rest
      next hd =>
      split at hpiece
      · next hnil => exact absurd hnil (pieces_ne_nil p rest)
      · next first others hcons =>
        rcases List.mem_cons.1 hpiece with rfl | h
        · rcases List.mem_cons.1 hc with rfl | hc
          · simpa using hd
          · exact ih (hcons ▸ List.mem_cons_self) hc
        · exact ih (hcons ▸ List.mem_cons_of_mem first h) hc

/-- A text is cut at the first occurrence: there is none before. -/
theorem cutAt?_eq_some_iff {c : Char} {cs before after : List Char} :
    cutAt? c cs = some (before, after) ↔ cs = before ++ c :: after ∧ c ∉ before := by
  induction cs generalizing before with
  | nil => simp [cutAt?]
  | cons d rest ih =>
    by_cases hd : d = c
    · -- the text begins with the character itself
      subst hd
      cases before with
      | nil => simp [cutAt?]
      | cons e before =>
        simp only [cutAt?, if_true, Option.some.injEq, Prod.mk.injEq, List.cons_append,
          List.cons.injEq, List.mem_cons]
        exact ⟨fun h => absurd h.1 (by simp), fun h => absurd (.inl h.1.1) h.2⟩
    · -- the cut is further on
      cases before with
      | nil => simp [cutAt?, hd]
      | cons e before =>
        simp only [cutAt?, hd, if_false, Option.map_eq_some_iff, Prod.exists, Prod.mk.injEq,
          List.cons.injEq, List.cons_append, List.mem_cons]
        constructor
        · rintro ⟨b, a, h, ⟨rfl, rfl⟩, rfl⟩
          obtain ⟨hcs, hb⟩ := ih.1 h
          exact ⟨⟨rfl, hcs⟩, fun h => h.elim (fun h => hd h.symm) hb⟩
        · rintro ⟨⟨rfl, hcs⟩, hb⟩
          exact ⟨before, after, ih.2 ⟨hcs, fun h => hb (.inr h)⟩, ⟨rfl, rfl⟩, rfl⟩

theorem mentions_iff {part cs : List Char} :
    mentions part cs = true ↔ ∃ before after, cs = before ++ part ++ after := by
  induction cs with
  | nil => simp [mentions]
  | cons c rest ih =>
    rw [mentions, Bool.or_eq_true, List.isPrefixOf_iff_prefix, ih]
    constructor
    · -- here, or somewhere in the rest
      rintro (⟨after, h⟩ | ⟨before, after, h⟩)
      · exact ⟨[], after, by simpa using h.symm⟩
      · exact ⟨c :: before, after, by simp [h]⟩
    · rintro ⟨before, after, h⟩
      cases before with
      | nil => exact .inl ⟨after, by simpa using h.symm⟩
      | cons d before => exact .inr ⟨before, after, (List.cons.inj h).2⟩

end Datapath.Text
