/-!
# The width lattice

A width is a number of bits, or nothing while none is known. Widths are ordered with *unknown*
below every number, `join` is the least upper bound, and so a width that is joined into only ever
grows.

`ofConstant` is the width that a constant starts from.
-/

namespace Datapath.Width

/-! ## Joining -/

/-- The least upper bound of two widths, either of which may be unknown. -/
def join : Option Nat → Option Nat → Option Nat
  | none, w => w
  | some a, none => some a
  | some a, some b => some (max a b)

@[simp] theorem join_none_left (w : Option Nat) : join none w = w := rfl

@[simp] theorem join_none_right (w : Option Nat) : join w none = w := by
  cases w <;> rfl

@[simp] theorem join_some_some (a b : Nat) : join (some a) (some b) = some (max a b) := rfl

theorem join_comm (x y : Option Nat) : join x y = join y x := by
  cases x <;> cases y <;> simp [Nat.max_comm]

theorem join_assoc (x y z : Option Nat) : join (join x y) z = join x (join y z) := by
  cases x <;> cases y <;> cases z <;> simp [Nat.max_assoc]

@[simp] theorem join_self (x : Option Nat) : join x x = x := by
  cases x <;> simp

/-- Joining with a number leaves a number, at least as large. -/
theorem exists_join_some (x : Option Nat) (b : Nat) : ∃ a, join x (some b) = some a ∧ b ≤ a := by
  cases x with
  | none => exact ⟨b, rfl, Nat.le_refl b⟩
  | some a => exact ⟨max a b, rfl, Nat.le_max_right a b⟩

/-! ## Constants -/

/-- The number of binary digits; zero is written with one. -/
def bitLength (n : Nat) : Nat := if n = 0 then 1 else n.log2 + 1

/-- The width of an integer constant: the binary digits of its magnitude and a sign bit. A negative
constant counts the minus sign of its written form as well, so `5` takes 4 bits and `-1` takes 3. -/
def ofConstant (c : Int) : Nat := bitLength c.natAbs + 1 + if c < 0 then 1 else 0

theorem bitLength_pos (n : Nat) : 0 < bitLength n := by
  unfold bitLength
  split <;> omega

end Datapath.Width
