import Datapath.Width.Widths
import Mathlib.Algebra.Group.Nat.Defs

/-!
# The order of widths

`Option Nat` with *unknown* at the bottom is the lattice that widths live in, and `Width.join` is
its least upper bound. Recorded widths are compared value by value, with any assignment of widths on
the other side, recorded or not.

Raising is then characterised by three facts: it loses nothing, it makes room for what is joined in,
and it stays below whatever was above both.
-/

namespace Datapath

/-! ## One width -/

namespace Width

protected theorem le_refl (x : Option Nat) : x ≤ x := by
  cases x <;> simp

protected theorem le_trans {x y z : Option Nat} (hxy : x ≤ y) (hyz : y ≤ z) : x ≤ z := by
  cases x with
  | none => exact Option.none_le
  | some a =>
      cases y with
      | none => exact absurd hxy Option.not_some_le_none
      | some b =>
          cases z with
          | none => exact absurd hyz Option.not_some_le_none
          | some c =>
              rw [Option.some_le_some] at *
              exact Nat.le_trans hxy hyz

protected theorem le_antisymm {x y : Option Nat} (hxy : x ≤ y) (hyx : y ≤ x) : x = y := by
  cases x with
  | none => exact (Option.le_none.mp hyx).symm
  | some a =>
      cases y with
      | none => exact absurd hxy Option.not_some_le_none
      | some b =>
          rw [Option.some_le_some] at *
          rw [Nat.le_antisymm hxy hyx]

theorem some_le_iff {a : Nat} {x : Option Nat} : some a ≤ x ↔ ∃ b, x = some b ∧ a ≤ b := by
  cases x <;> simp

/-- What is above a known width is known. -/
theorem isSome_of_le {x y : Option Nat} (hle : x ≤ y) (hx : x.isSome) : y.isSome := by
  obtain ⟨a, rfl⟩ := Option.isSome_iff_exists.mp hx
  obtain ⟨b, rfl, -⟩ := some_le_iff.mp hle
  rfl

theorem le_join_left (x y : Option Nat) : x ≤ join x y := by
  cases x with
  | none => exact Option.none_le
  | some a =>
      cases y with
      | none => exact Width.le_refl _
      | some b => exact Option.some_le_some.mpr (Nat.le_max_left a b)

theorem le_join_right (x y : Option Nat) : y ≤ join x y := by
  cases y with
  | none => exact Option.none_le
  | some b =>
      cases x with
      | none => exact Width.le_refl _
      | some a => exact Option.some_le_some.mpr (Nat.le_max_right a b)

/-- Nothing below both bounds is above their join. -/
theorem join_le {x y z : Option Nat} (hx : x ≤ z) (hy : y ≤ z) : join x y ≤ z := by
  cases x with
  | none => exact hy
  | some a =>
      cases y with
      | none => exact hx
      | some b =>
          cases z with
          | none => exact absurd hx Option.not_some_le_none
          | some c =>
              rw [Option.some_le_some] at hx hy
              exact Option.some_le_some.mpr (Nat.max_le.mpr ⟨hx, hy⟩)

theorem join_eq_right {x : Option Nat} {b : Nat} (h : x.getD 0 ≤ b) : join x (some b) = some b := by
  cases x with
  | none => rfl
  | some a =>
      have hab : a ≤ b := h
      rw [join_some_some, Nat.max_eq_right hab]

/-- The binary digits of a number are as few as can hold it. -/
theorem bitLength_le_iff {n b : Nat} (hb : 0 < b) : bitLength n ≤ b ↔ n < 2 ^ b := by
  unfold bitLength
  split
  · next h =>
    -- zero is written with one digit
    subst h
    exact ⟨fun _ => Nat.two_pow_pos b, fun _ => hb⟩
  · next h =>
    rw [Nat.succ_le_iff]
    exact Nat.log2_lt h

end Width

/-! ## All widths -/

namespace Widths

/-- Raising loses nothing. -/
theorem le_raise (w : Widths) (v : ValueId) (bits : Nat) (u : ValueId) :
    w.width? u ≤ (w.raise v bits).2.width? u := by
  rw [width?_raise]
  split
  · exact Width.le_join_left _ _
  · exact Width.le_refl _

/-- What is joined in has room. -/
theorem le_raise_self (w : Widths) (v : ValueId) (bits : Nat) :
    some bits ≤ (w.raise v bits).2.width? v := by
  rw [width?_raise, if_pos rfl]
  exact Width.le_join_right _ _

/-- Raising goes no further than it has to. -/
theorem raise_le {w : Widths} {v : ValueId} {bits : Nat} {a : ValueId → Option Nat}
    (below : ∀ u, w.width? u ≤ a u) (room : some bits ≤ a v) (u : ValueId) :
    (w.raise v bits).2.width? u ≤ a u := by
  rw [width?_raise]
  split
  · next e => exact Width.join_le (below u) (e ▸ room)
  · exact below u

theorem width?_raise_of_ne {w : Widths} {v u : ValueId} {bits : Nat} (h : v ≠ u) :
    (w.raise v bits).2.width? u = w.width? u := by
  rw [width?_raise, if_neg h]

/-- A raise that reports no change leaves everything as it is. -/
theorem raise_eq_self {w : Widths} {v : ValueId} {bits : Nat} (h : (w.raise v bits).1 = false) :
    (w.raise v bits).2 = w := by
  unfold raise at *
  split
  · rfl
  · next joined hj =>
    split
    · rfl
    · next differs => simp [hj, differs] at h

/-- There is room already exactly if raising reports no change. -/
theorem raise_fst_eq_false {w : Widths} {v : ValueId} {bits : Nat} :
    (w.raise v bits).1 = false ↔ some bits ≤ w.width? v := by
  constructor
  · intro h
    have hself := le_raise_self w v bits
    rwa [raise_eq_self h] at hself
  · intro h
    rw [Bool.eq_false_iff]
    intro changed
    apply (raise_fst w v bits).mp changed
    -- a change would be strict, and there is room already
    apply Width.le_antisymm
    · rw [width?_raise, if_pos rfl]
      exact Width.join_le (Width.le_refl _) h
    · exact le_raise w v bits v

end Widths

end Datapath
