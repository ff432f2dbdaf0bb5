import Datapath.Proofs.Width.Order
import Mathlib.Algebra.Ring.Int.Defs

/-!
# Widths of constants

In two's complement `w` bits hold the integers from `-2 ^ (w - 1)` up to `2 ^ (w - 1)`, the latter
excluded: `Holds`. The width of a constant holds it. For a positive constant no smaller width does,
while a negative one gets a bit more than its opposite, for the minus sign.

Constants are words of 64 bits. `ofWord` finds the width in machine words, each step of which could
wrap around, and `toNat_ofWord` says that none does.
-/

namespace Datapath.Width

/-! ## Two's complement -/

/-- The integers of `w` bits, one of which is the sign. -/
structure Holds (w : Nat) (c : Int) : Prop where
  lower : -2 ^ (w - 1) ≤ c
  upper : c < 2 ^ (w - 1)

/-- The smallest of the integers held is not asked for here. -/
theorem Holds.of_natAbs_lt {w : Nat} {c : Int} (h : c.natAbs < 2 ^ (w - 1)) : Holds w c := by
  have habs : (c.natAbs : Int) < 2 ^ (w - 1) := by exact_mod_cast h
  exact ⟨by omega, by omega⟩

/-! ## Any constant -/

section

variable {c d : Int}

theorem ofConstant_of_nonneg (h : 0 ≤ c) : ofConstant c = bitLength c.natAbs + 1 := by
  rw [ofConstant, if_neg (Int.not_lt.mpr h)]

theorem ofConstant_of_neg (h : c < 0) : ofConstant c = bitLength c.natAbs + 2 := by
  rw [ofConstant, if_pos h]

theorem lt_two_pow_bitLength (n : Nat) : n < 2 ^ bitLength n :=
  (bitLength_le_iff (bitLength_pos n)).mp (Nat.le_refl _)

/-- The first binary digit of a positive number is a one. -/
theorem two_pow_bitLength_le {n : Nat} (h : 0 < n) : 2 ^ (bitLength n - 1) ≤ n := by
  rw [bitLength, if_neg (Nat.ne_of_gt h)]
  exact Nat.log2_self_le (Nat.ne_of_gt h)

theorem bitLength_eq {n k : Nat} (lower : 2 ^ k ≤ n) (upper : n < 2 ^ (k + 1)) :
    bitLength n = k + 1 := by
  have hn : n ≠ 0 := Nat.ne_of_gt (Nat.lt_of_lt_of_le (Nat.two_pow_pos k) lower)
  rw [bitLength, if_neg hn, (Nat.log2_eq_iff hn).mpr ⟨lower, upper⟩]

theorem bitLength_mono {m n : Nat} (h : m ≤ n) : bitLength m ≤ bitLength n :=
  (bitLength_le_iff (bitLength_pos n)).mpr (Nat.lt_of_le_of_lt h (lt_two_pow_bitLength n))

/-- A constant fits into its width. -/
theorem holds_ofConstant (c : Int) : Holds (ofConstant c) c := by
  have hlength : bitLength c.natAbs ≤ ofConstant c - 1 := by
    rw [ofConstant]
    omega
  exact .of_natAbs_lt (Nat.lt_of_lt_of_le (lt_two_pow_bitLength _)
    (Nat.pow_le_pow_right Nat.two_pos hlength))

/-- Even zero has a digit and a sign. -/
theorem two_le_ofConstant (c : Int) : 2 ≤ ofConstant c := by
  have hpos : 0 < bitLength c.natAbs := bitLength_pos _
  rw [ofConstant]
  omega

theorem ofConstant_le {b : Nat} (hb : 0 < b) (h : c.natAbs < 2 ^ b) : ofConstant c ≤ b + 2 := by
  have hlength : bitLength c.natAbs ≤ b := (bitLength_le_iff hb).mpr h
  rw [ofConstant]
  split <;> omega

/-- A positive constant needs all bits of its width. -/
theorem two_pow_ofConstant_le (h : 0 < c) : 2 ^ (ofConstant c - 2) ≤ c := by
  have hle : 2 ^ (bitLength c.natAbs - 1) ≤ c.natAbs := two_pow_bitLength_le (by omega)
  have hcast : (2 ^ (bitLength c.natAbs - 1) : Int) ≤ c.natAbs := by exact_mod_cast hle
  rw [ofConstant_of_nonneg (Int.le_of_lt h), Nat.add_sub_add_right _ 1 1]
  omega

/-- A negative constant takes one bit more than its opposite. -/
theorem ofConstant_eq_opposite (h : c < 0) : ofConstant c = ofConstant (-c) + 1 := by
  rw [ofConstant_of_neg h, ofConstant_of_nonneg (by omega), Int.natAbs_neg]

/-- Of two constants of one sign the larger in magnitude is not narrower. -/
theorem ofConstant_mono (sign : c < 0 ↔ d < 0) (h : c.natAbs ≤ d.natAbs) :
    ofConstant c ≤ ofConstant d := by
  have hlength : bitLength c.natAbs ≤ bitLength d.natAbs := bitLength_mono h
  by_cases hc : c < 0
  · rw [ofConstant_of_neg hc, ofConstant_of_neg (sign.mp hc)]
    omega
  · have hd : ¬ d < 0 := fun hd => hc (sign.mpr hd)
    rw [ofConstant_of_nonneg (Int.not_lt.mp hc), ofConstant_of_nonneg (Int.not_lt.mp hd)]
    omega

end

/-! ## Machine words -/

/-- The magnitude of a word, as an unsigned word. The least word has no opposite among the signed
words, but its magnitude is an unsigned one. -/
def magnitude (c : Int64) : UInt64 := if c < 0 then -c.toUInt64 else c.toUInt64

def leadingZeros (n : UInt64) : UInt32 := UInt32.ofNat n.toBitVec.clz.toNat

/-- The number of binary digits of a word; zero is written with one. -/
def wordLength (n : UInt64) : UInt32 := if n = 0 then 1 else 64 - leadingZeros n

def ofWord (c : Int64) : UInt32 := wordLength (magnitude c) + 1 + if c < 0 then 1 else 0

/-- The magnitude of a word is the absolute value of its integer. -/
theorem toNat_magnitude (c : Int64) : (magnitude c).toNat = c.toInt.natAbs := by
  have hsigned : c.toInt = if 2 * c.toUInt64.toNat < 2 ^ 64 then (c.toUInt64.toNat : Int)
      else c.toUInt64.toNat - 2 ^ 64 := BitVec.toInt_eq_toNat_cond c.toBitVec
  have hlt : c.toUInt64.toNat < 2 ^ 64 := c.toUInt64.toNat_lt
  unfold magnitude
  split
  · next h =>
    -- negated as an unsigned word, the difference to 2 ^ 64 is taken
    have hneg : c.toInt < 0 := Int64.lt_iff_toInt_lt.mp h
    rw [UInt64.toNat_neg, show UInt64.size = 2 ^ 64 from rfl]
    split at hsigned <;> omega
  · next h =>
    have hneg : ¬ c.toInt < 0 := fun hneg => h (Int64.lt_iff_toInt_lt.mpr hneg)
    split at hsigned <;> omega

theorem natAbs_toInt_lt (c : Int64) : c.toInt.natAbs < 2 ^ 64 :=
  toNat_magnitude c ▸ (magnitude c).toNat_lt

/-- The zeros before the first one and the digits from there on fill a word. -/
theorem toNat_leadingZeros {n : UInt64} (h : n ≠ 0) :
    (leadingZeros n).toNat + bitLength n.toNat = 64 := by
  have hne : n.toBitVec ≠ 0#64 := fun hz => h (UInt64.toBitVec_inj.mp hz)
  have hlt : n.toBitVec.clz.toNat < 64 := BitVec.clz_lt_iff_ne_zero.mpr hne
  have hlower : 2 ^ (64 - 1 - n.toBitVec.clz.toNat) ≤ n.toNat :=
    BitVec.two_pow_sub_clz_le_toNat_of_ne_zero (by decide) hne
  have hupper : n.toNat < 2 ^ (64 - n.toBitVec.clz.toNat) := BitVec.toNat_lt_two_pow_sub_clz
  have hexponent : 64 - n.toBitVec.clz.toNat = 64 - 1 - n.toBitVec.clz.toNat + 1 := by omega
  rw [hexponent] at hupper
  have hsmall : n.toBitVec.clz.toNat < UInt32.size := Nat.lt_trans hlt (by decide)
  rw [leadingZeros, UInt32.toNat_ofNat_of_lt' hsmall, bitLength_eq hlower hupper]
  omega

/-- Counting zeros from the left gives the number of digits. -/
theorem toNat_wordLength (n : UInt64) : (wordLength n).toNat = bitLength n.toNat := by
  unfold wordLength
  split
  · next h =>
    rw [h]
    rfl
  · next h =>
    -- no more zeros than bits, so the difference does not wrap around
    have hsum : (leadingZeros n).toNat + bitLength n.toNat = 64 := toNat_leadingZeros h
    have hle : leadingZeros n ≤ 64 := UInt32.le_iff_toNat_le.mpr (Nat.le.intro hsum)
    rw [UInt32.toNat_sub_of_le _ _ hle]
    exact Nat.sub_eq_of_eq_add (hsum.symm.trans (Nat.add_comm _ _))

/-- **No step wraps around.** Machine words give the width that integers give. -/
theorem toNat_ofWord (c : Int64) : (ofWord c).toNat = ofConstant c.toInt := by
  have hlength : (wordLength (magnitude c)).toNat = bitLength c.toInt.natAbs := by
    rw [toNat_wordLength, toNat_magnitude]
  -- two more than 64 is far from where sums wrap around
  have hle : bitLength c.toInt.natAbs ≤ 64 := (bitLength_le_iff (by decide)).mpr (natAbs_toInt_lt c)
  have hsign : (if c < 0 then (1 : UInt32) else 0).toNat = if c.toInt < 0 then 1 else 0 := by
    have hiff : c < 0 ↔ c.toInt < 0 := Int64.lt_iff_toInt_lt
    by_cases h : c < 0
    · rw [if_pos h, if_pos (hiff.mp h), UInt32.toNat_one]
    · rw [if_neg h, if_neg (mt hiff.mpr h), UInt32.toNat_zero]
  rw [ofWord, UInt32.toNat_add, UInt32.toNat_add, hsign, hlength, UInt32.toNat_one, ofConstant]
  split <;> omega

/-! ## All words -/

/-- **A constant fits into its width.** The width is the same in machine words and it is no more
than 66 bits. It is what a positive constant needs, one bit more than that of the opposite for a
negative one, and it grows with the magnitude. -/
theorem ofConstant_holds_word (c : Int64) :
    (ofWord c).toNat = ofConstant c.toInt ∧ Holds (ofConstant c.toInt) c.toInt ∧
      2 ≤ ofConstant c.toInt ∧ ofConstant c.toInt ≤ 66 ∧
      (0 < c.toInt → 2 ^ (ofConstant c.toInt - 2) ≤ c.toInt) ∧
      (c.toInt < 0 → ofConstant c.toInt = ofConstant (-c.toInt) + 1) ∧
      ∀ d : Int64, (c.toInt < 0 ↔ d.toInt < 0) → c.toInt.natAbs ≤ d.toInt.natAbs →
        ofConstant c.toInt ≤ ofConstant d.toInt := by
  have hle : ofConstant c.toInt ≤ 66 := ofConstant_le (by decide) (natAbs_toInt_lt c)
  exact ⟨toNat_ofWord c, holds_ofConstant _, two_le_ofConstant _, hle, two_pow_ofConstant_le,
    ofConstant_eq_opposite, fun _ => ofConstant_mono⟩

example : (ofWord Int64.minValue).toNat = 66 := by decide

end Datapath.Width
