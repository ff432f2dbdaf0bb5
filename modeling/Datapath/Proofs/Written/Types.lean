import Datapath.Proofs.Text.Splitting
import Datapath.Ty
import Mathlib.Data.List.Basic

/-!
# Types and their texts

A type can be read off its text. The outermost part of the type shows at the end of the text, where
a pointer has its star and an array its bracket, and an integer has a digit. What is left without
that part is the text of what the pointer points to, or a length and the text of an element, with a
blank behind the length.
-/

namespace Datapath.Ty

variable {s t : Ty}

/-! ## Texts as characters -/

theorem toList_int (bits : Nat) : (int bits).text.toList = 'i' :: bits.repr.toList := by
  simp [text]

theorem toList_pointer (e : Ty) : (pointer e).text.toList = e.text.toList ++ ['*'] := by
  simp [text]

theorem toList_array (length : Nat) (e : Ty) : (array length e).text.toList =
    '[' :: (length.repr.toList ++ ' ' :: 'x' :: ' ' :: e.text.toList) ++ [']'] := by
  simp [text]

/-! ## The end of a text -/

/-- What the text of a type ends in; the digits of a width vary. -/
def mark? : Ty → Option Char
  | int _ => none
  | pointer _ => some '*'
  | array _ _ => some ']'
  | void => some 'd'

/-- The last character of a text, if it is no digit, is the mark of the type. -/
theorem getLast?_text (t : Ty) : t.text.toList.getLast?.filter (!·.isDigit) = t.mark? := by
  cases t with
  | int bits =>
      have hne := Text.toList_repr_ne_nil bits
      have hdigit : (bits.repr.toList.getLast hne).isDigit = true :=
        Text.isDigit_of_mem_repr (List.getLast_mem hne)
      rw [toList_int, ← List.dropLast_append_getLast hne, ← List.cons_append, List.getLast?_concat,
        Option.filter_some, hdigit]
      rfl
  | pointer e =>
      rw [toList_pointer, List.getLast?_concat]
      rfl
  | array length e =>
      rw [toList_array, List.getLast?_concat]
      rfl
  | void => rfl

/-- So types with one text have one mark. -/
theorem mark?_eq_of_text_eq (h : s.text = t.text) : s.mark? = t.mark? := by
  rw [← getLast?_text s, h, getLast?_text t]

/-! ## The text without its end -/

theorem eq_of_repr_toList_eq {m n : Nat} (h : m.repr.toList = n.repr.toList) : m = n := by
  have hvalue := congrArg Text.positional h
  rwa [Text.positional_repr, Text.positional_repr] at hvalue

theorem bits_eq_of_int {m n : Nat} (h : (int m).text = (int n).text) : m = n := by
  have hchars := congrArg String.toList h
  rw [toList_int, toList_int, List.cons_inj_right] at hchars
  exact eq_of_repr_toList_eq hchars

/-- The star is taken off the end. -/
theorem text_eq_of_pointer (h : (pointer s).text = (pointer t).text) : s.text = t.text := by
  have hchars := congrArg String.toList h
  rw [toList_pointer, toList_pointer, List.append_left_inj] at hchars
  exact String.toList_inj.mp hchars

/-- The length ends at the first blank. -/
theorem cutAt?_length (n : Nat) (rest : List Char) :
    Text.cutAt? ' ' (n.repr.toList ++ ' ' :: rest) = some (n.repr.toList, rest) :=
  Text.cutAt?_eq_some_iff.mpr
    ⟨rfl, fun hblank => absurd (Text.isDigit_of_mem_repr hblank) (by decide)⟩

/-- The length ends at the first blank, and the rest is the text of an element. -/
theorem parts_eq_of_array {m n : Nat} (h : (array m s).text = (array n t).text) :
    m = n ∧ s.text = t.text := by
  have hchars := congrArg String.toList h
  rw [toList_array, toList_array, List.append_left_inj, List.cons_inj_right] at hchars
  have hcut := congrArg (Text.cutAt? ' ') hchars
  rw [cutAt?_length, cutAt?_length, Option.some_inj, Prod.mk.injEq, List.cons_inj_right,
    List.cons_inj_right] at hcut
  exact ⟨eq_of_repr_toList_eq hcut.1, String.toList_inj.mp hcut.2⟩

/-- **Types are told apart by their texts.** -/
theorem text_inj : s.text = t.text ↔ s = t := by
  refine ⟨fun h => ?_, congrArg text⟩
  -- types of different shape have different marks, so only those of one shape are left
  have hmark : s.mark? = t.mark? := mark?_eq_of_text_eq h
  induction s generalizing t with
  | int m =>
      cases t with
      | int n => rw [bits_eq_of_int h]
      | _ => simp [mark?] at hmark
  | pointer e ih =>
      cases t with
      | pointer f =>
          have hef : e.text = f.text := text_eq_of_pointer h
          rw [ih hef (mark?_eq_of_text_eq hef)]
      | _ => simp [mark?] at hmark
  | array m e ih =>
      cases t with
      | array n f =>
          obtain ⟨rfl, hef⟩ := parts_eq_of_array h
          rw [ih hef (mark?_eq_of_text_eq hef)]
      | _ => simp [mark?] at hmark
  | void =>
      cases t with
      | void => rfl
      | _ => simp [mark?] at hmark

end Datapath.Ty
