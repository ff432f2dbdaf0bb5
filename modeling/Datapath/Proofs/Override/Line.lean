import Datapath.Proofs.Text.Splitting
import Datapath.Width.Override
import Mathlib.Data.List.TakeWhile

/-!
# What a line of override text says

The grammar of a line is a relation between its words and what reading makes of them:
`Override.Amounts`. The first word that the directive stands in is passed over with all before it,
and of what has to follow, a qualified name and a width, the first part that is missing or malformed
decides on the anomaly.

Of an override, `Override.text` is the written form. Reading it gives the override back, provided
that it is `Override.Writable`: a blank in a name, a dot in the name of the kernel or a width of zero
would be read as something else.
-/

namespace Datapath.Override

open Text

variable {line word : List Char} {kernel param : String} {bits : Nat}
  {outcome : Except Anomaly (Option Override)}

/-! ## The parts of a line -/

/-- The directive stands somewhere in the word. -/
def Marks (word : List Char) : Prop := directive.toList <:+: word

/-- A kernel's name and a parameter's name around the first dot. -/
structure Qualifies (word : List Char) (kernel param : String) : Prop where
  eq : word = kernel.toList ++ '.' :: param.toList
  first : '.' ∉ kernel.toList
  kernel_ne : kernel ≠ ""
  param_ne : param ≠ ""

/-- Decimal digits, with a plus sign or without one, that stand for a number of 32 bits but not for
zero. -/
structure Denotes (word : List Char) (bits : Nat) : Prop where
  numeral : ∃ digits, (word = digits ∨ word = '+' :: digits) ∧ digits ≠ [] ∧
    (∀ d ∈ digits, d.isDigit = true) ∧ positional digits = bits
  pos : 1 ≤ bits
  le : bits ≤ 2 ^ 32 - 1

/-- What the words behind the directive amount to. -/
inductive Continues : List (List Char) → Except Anomaly (Option Override) → Prop
  | missingName : Continues [] (.error .missingName)
  | unqualifiedName {name : List Char} {rest : List (List Char)}
      (hname : ∀ kernel param, ¬ Qualifies name kernel param) :
      Continues (name :: rest) (.error (.unqualifiedName (String.ofList name)))
  | missingWidth {name : List Char} {kernel param : String} (hname : Qualifies name kernel param) :
      Continues [name] (.error .missingWidth)
  | invalidWidth {name width : List Char} {rest : List (List Char)} {kernel param : String}
      (hname : Qualifies name kernel param) (hwidth : ∀ bits, ¬ Denotes width bits) :
      Continues (name :: width :: rest) (.error (.invalidWidth (String.ofList width)))
  | entry {name width : List Char} {rest : List (List Char)} {kernel param : String} {bits : Nat}
      (hname : Qualifies name kernel param) (hwidth : Denotes width bits) :
      Continues (name :: width :: rest) (.ok (some ⟨kernel, param, bits⟩))

/-- What the words of a line amount to. -/
inductive Amounts : List (List Char) → Except Anomaly (Option Override) → Prop
  | nothing {ws : List (List Char)} (unmarked : ∀ w ∈ ws, ¬ Marks w) : Amounts ws (.ok none)
  | directive {front rest : List (List Char)} {mark : List Char}
      {outcome : Except Anomaly (Option Override)} (unmarked : ∀ w ∈ front, ¬ Marks w)
      (hmark : Marks mark) (continues : Continues rest outcome) :
      Amounts (front ++ mark :: rest) outcome

/-- A line whose first word is marked. -/
theorem Amounts.of_first {mark : List Char} {rest : List (List Char)} (hmark : Marks mark)
    (continues : Continues rest outcome) : Amounts (mark :: rest) outcome := by
  have h : Amounts ([] ++ mark :: rest) outcome := .directive (by simp) hmark continues
  exact h

/-! ## Reading the parts -/

/-- The search for the directive finds it wherever it stands in a word. -/
theorem mentions_directive_iff : mentions directive.toList word = true ↔ Marks word := by
  rw [mentions_iff]
  exact exists_congr fun before => exists_congr fun after => eq_comm

theorem mentions_directive_eq_false_iff :
    mentions directive.toList word = false ↔ ¬ Marks word := by
  rw [← mentions_directive_iff, Bool.not_eq_true]

/-- A name is cut at its first dot, and both parts have to be there. -/
theorem qualifiedName?_eq_some_iff :
    qualifiedName? word = some (kernel, param) ↔ Qualifies word kernel param := by
  unfold qualifiedName?
  constructor
  · intro h
    split at h
    · next before after hcut =>
      obtain ⟨hword, hfirst⟩ := cutAt?_eq_some_iff.mp hcut
      split at h
      · cases h
      · next hne =>
        simp only [Bool.or_eq_true, List.isEmpty_iff, not_or] at hne
        obtain ⟨rfl, rfl⟩ := Prod.mk.inj (Option.some.inj h)
        -- cut at the first dot, with something on both sides
        refine ⟨?_, ?_, ?_, ?_⟩ <;> simp_all
    · cases h
  · intro h
    rw [cutAt?_eq_some_iff.mpr ⟨h.eq, h.first⟩]
    simp [h.kernel_ne, h.param_ne]

theorem qualifiedName?_eq_none_iff :
    qualifiedName? word = none ↔ ∀ kernel param, ¬ Qualifies word kernel param := by
  simp only [Option.eq_none_iff_forall_ne_some, Prod.forall, ne_eq, qualifiedName?_eq_some_iff]

/-- A width may have a plus sign, which is no digit. -/
theorem bits?_eq_some_iff : bits? word = some bits ↔ Denotes word bits := by
  unfold bits?
  simp only [Option.filter_eq_some_iff, decimal?_eq_some_iff, Bool.and_eq_true, decide_eq_true_eq]
  constructor
  · rintro ⟨numeral, hpos, hle⟩
    refine ⟨?_, hpos, hle⟩
    split at numeral
    · next rest => exact ⟨rest, .inr rfl, numeral⟩
    · exact ⟨word, .inl rfl, numeral⟩
  · rintro ⟨⟨digits, hword, numeral⟩, hpos, hle⟩
    refine ⟨?_, hpos, hle⟩
    rcases hword with rfl | rfl
    · split
      · -- a sign is not among the digits
        exact absurd (numeral.2.1 '+' List.mem_cons_self) (by decide)
      · exact numeral
    · exact numeral

theorem bits?_eq_none_iff : bits? word = none ↔ ∀ bits, ¬ Denotes word bits := by
  simp only [Option.eq_none_iff_forall_ne_some, ne_eq, bits?_eq_some_iff]

/-! ## Reading a line -/

/-- Without the directive a line states nothing. -/
theorem ofLine_of_unmarked (unmarked : ∀ w ∈ words line, ¬ Marks w) : ofLine line = .ok none := by
  have hmarked : marked line = [] := by
    rw [marked, List.dropWhile_eq_nil_iff]
    intro w hw
    rw [mentions_directive_eq_false_iff.mpr (unmarked w hw)]
    rfl
  rw [ofLine, hmarked]

/-- A line with the directive is read by what follows it. -/
theorem ofLine_eq_iff_continues {front rest : List (List Char)} {mark : List Char}
    (hwords : words line = front ++ mark :: rest) (unmarked : ∀ w ∈ front, ¬ Marks w)
    (hmark : Marks mark) : ofLine line = outcome ↔ Continues rest outcome := by
  have hmarked : marked line = mark :: rest := by
    rw [marked, hwords, List.dropWhile_append_of_pos, List.dropWhile_cons_of_neg]
    · simp [mentions_directive_iff.mpr hmark]
    · intro w hw
      rw [mentions_directive_eq_false_iff.mpr (unmarked w hw)]
      rfl
  rw [ofLine, hmarked]
  constructor
  · -- the parts are read one after the other, each in its constructor's case
    rintro rfl
    cases rest with
    | nil => exact .missingName
    | cons name rest =>
        cases hname : qualifiedName? name with
        | none =>
            simp only [hname]
            exact .unqualifiedName (qualifiedName?_eq_none_iff.mp hname)
        | some names =>
            have hqualifies := qualifiedName?_eq_some_iff.mp hname
            cases rest with
            | nil =>
                simp only [hname]
                exact .missingWidth hqualifies
            | cons width rest =>
                cases hwidth : bits? width with
                | none =>
                    simp only [hname, hwidth]
                    exact .invalidWidth hqualifies (bits?_eq_none_iff.mp hwidth)
                | some bits =>
                    simp only [hname, hwidth]
                    exact .entry hqualifies (bits?_eq_some_iff.mp hwidth)
  · intro h
    cases h with
    | missingName => rfl
    | unqualifiedName hname => simp only [qualifiedName?_eq_none_iff.mpr hname]
    | missingWidth hname => simp only [qualifiedName?_eq_some_iff.mpr hname]
    | invalidWidth hname hwidth =>
        simp only [qualifiedName?_eq_some_iff.mpr hname, bits?_eq_none_iff.mpr hwidth]
    | entry hname hwidth =>
        simp only [qualifiedName?_eq_some_iff.mpr hname, bits?_eq_some_iff.mpr hwidth]

/-- A line has the directive in none of its words, or in one with others before it that it does not
stand in. -/
theorem unmarked_or_marked (ws : List (List Char)) : (∀ w ∈ ws, ¬ Marks w) ∨
    ∃ front mark rest, ws = front ++ mark :: rest ∧ (∀ w ∈ front, ¬ Marks w) ∧ Marks mark := by
  cases h : ws.find? (mentions directive.toList) with
  | none =>
      refine .inl fun w hw => ?_
      rw [← mentions_directive_iff]
      exact List.find?_eq_none.mp h w hw
  | some mark =>
      obtain ⟨hmark, front, rest, hws, hfront⟩ := List.find?_eq_some_iff_append.mp h
      refine .inr ⟨front, mark, rest, hws, fun w hw => ?_, mentions_directive_iff.mp hmark⟩
      rw [← mentions_directive_iff]
      simpa using hfront w hw

/-- Every line is read as its words amount to. -/
theorem ofLine_eq_iff : ofLine line = outcome ↔ Amounts (words line) outcome := by
  constructor
  · intro h
    rcases unmarked_or_marked (words line) with unmarked | ⟨front, mark, rest, hws, unmarked, hmark⟩
    · rw [← h, ofLine_of_unmarked unmarked]
      exact .nothing unmarked
    · rw [hws]
      exact .directive unmarked hmark ((ofLine_eq_iff_continues hws unmarked hmark).mp h)
  · intro h
    generalize hws : words line = ws at h
    cases h with
    | nothing unmarked => exact ofLine_of_unmarked (hws ▸ unmarked)
    | directive unmarked hmark continues =>
        exact (ofLine_eq_iff_continues hws unmarked hmark).mpr continues

/-! ## Writing -/

def text (o : Override) : String :=
  directive ++ " " ++ o.kernel ++ "." ++ o.param ++ " " ++ o.bits.repr

/-- Both names have a character and no blank, that of the kernel has no dot, and the width is a
number of 32 bits but not zero. -/
structure Writable (o : Override) : Prop where
  kernel_ne : o.kernel ≠ ""
  kernel_plain : ∀ c ∈ o.kernel.toList, isBlank c = false ∧ c ≠ '.'
  param_ne : o.param ≠ ""
  param_plain : ∀ c ∈ o.param.toList, isBlank c = false
  pos : 1 ≤ o.bits
  le : o.bits ≤ 2 ^ 32 - 1

variable {o : Override}

/-- What is read can be written. -/
theorem writable_of_ofLine (h : ofLine line = .ok (some o)) : o.Writable := by
  have hamounts := ofLine_eq_iff.mp h
  generalize hws : words line = ws at hamounts
  cases hamounts with
  | directive unmarked hmark continues =>
      cases continues with
      | @entry name width rest kernel param bits hname hwidth =>
          have hmem : name ∈ words line := by simp [hws]
          have hplain : ∀ c ∈ kernel.toList ++ '.' :: param.toList, isBlank c = false :=
            hname.eq ▸ (isWord_of_mem_words hmem).plain
          exact {
            kernel_ne := hname.kernel_ne
            kernel_plain := fun c hc =>
              ⟨hplain c (by simp [hc]), fun hdot => hname.first (hdot ▸ hc)⟩
            param_ne := hname.param_ne
            param_plain := fun c hc => hplain c (by simp [hc])
            pos := hwidth.pos
            le := hwidth.le }

/-- The written name is cut where it was put together. -/
theorem Writable.qualifies (h : o.Writable) :
    Qualifies (o.kernel.toList ++ '.' :: o.param.toList) o.kernel o.param where
  eq := rfl
  first hdot := (h.kernel_plain '.' hdot).2 rfl
  kernel_ne := h.kernel_ne
  param_ne := h.param_ne

theorem Writable.denotes (h : o.Writable) : Denotes o.bits.repr.toList o.bits where
  numeral := ⟨_, .inl rfl, toList_repr_ne_nil _, fun _ => isDigit_of_mem_repr, positional_repr _⟩
  pos := h.pos
  le := h.le

/-- The written name is one word. -/
theorem Writable.isWord_name (h : o.Writable) :
    IsWord (o.kernel.toList ++ '.' :: o.param.toList) where
  ne_nil := by simp
  plain := by
    intro c hc
    rcases List.mem_append.mp hc with hkernel | hrest
    · exact (h.kernel_plain c hkernel).1
    · rcases List.mem_cons.mp hrest with rfl | hparam
      · rfl
      · exact h.param_plain c hparam

theorem isWord_directive : IsWord directive.toList := ⟨by decide, by simp [directive, isBlank]⟩

/-- The written form has three words. -/
theorem words_text (h : o.Writable) : words o.text.toList =
    [directive.toList, o.kernel.toList ++ '.' :: o.param.toList, o.bits.repr.toList] := by
  have htext : o.text.toList = directive.toList ++ ' ' ::
      ((o.kernel.toList ++ '.' :: o.param.toList) ++ ' ' :: o.bits.repr.toList) := by
    simp [text]
  rw [htext, words_append _ _ rfl, words_append _ _ rfl, words_of_isWord isWord_directive,
    words_of_isWord h.isWord_name, words_of_isWord (isWord_repr _)]
  rfl

/-- Reading the written form gives the override back exactly if it is writable. -/
theorem ofLine_text_iff : ofLine o.text.toList = .ok (some o) ↔ o.Writable := by
  refine ⟨writable_of_ofLine, fun h => ofLine_eq_iff.mpr ?_⟩
  rw [words_text h]
  exact .of_first List.infix_rfl (.entry h.qualifies h.denotes)

/-- **A line is read by its grammar.** Every line gives what its words amount to. So the written
form of an override gives the override again, which it does only if there is such a form. -/
theorem parse_exact : (∀ line outcome, parse line = outcome ↔
      ∃ ws, Spaced ws line.toList ∧ Amounts ws outcome) ∧
    ∀ o : Override, parse o.text = .ok (some o) ↔ o.Writable := by
  refine ⟨fun line outcome => ?_, fun o => ofLine_text_iff⟩
  rw [parse, ofLine_eq_iff]
  constructor
  · exact fun h => ⟨_, spaced_words _, h⟩
  · rintro ⟨ws, hws, h⟩
    rwa [words_eq_iff.mpr hws]

example : parse "DATASIZE fir.x +07 taps" = .ok (some ⟨"fir", "x", 7⟩) := rfl

end Datapath.Override
