import Datapath.Fault
import Datapath.Table
import Datapath.Width.Lattice

/-!
# Recorded widths

`Widths` is what width inference has found out: a width for some of a kernel's values, in the order
in which each was first recorded, and the number of passes it took. Widths enter by `raise` alone,
which joins; so no recorded width ever shrinks and no entry is lost.
-/

namespace Datapath

structure Widths where
  recorded : Table ValueId Nat := .empty
  /-- The passes after which inference settled; zero before it has. -/
  passes : Nat := 0

namespace Widths

def empty : Widths := {}

def width? (w : Widths) (v : ValueId) : Option Nat := w.recorded.find? v

/-- The width of a value, which has to be recorded. -/
def width (w : Widths) (v : ValueId) : Outcome Nat :=
  match w.width? v with
  | some bits => .ok bits
  | none => reject (.missingWidth v)

def has (w : Widths) (v : ValueId) : Bool := w.recorded.contains v

def size (w : Widths) : Nat := w.recorded.size

def isEmpty (w : Widths) : Bool := w.recorded.isEmpty

def toList (w : Widths) : List (ValueId × Nat) := w.recorded.entries

def widest (w : Widths) : Nat := w.recorded.values.foldl max 0

/-- Joins a width into that of a value. Beside the result stands whether anything changed. -/
def raise (w : Widths) (v : ValueId) (bits : Nat) : Bool × Widths :=
  match Width.join (w.width? v) (some bits) with
  | none => (false, w)
  | some joined =>
    if w.width? v = some joined then (false, w)
    else (true, { w with recorded := w.recorded.insert v joined })

/-- Pointwise order: every width recorded in the first is recorded in the second, and is no larger
there than here. -/
def isBelow (w u : Widths) : Bool := w.toList.all fun (v, bits) => (u.width? v).any (bits ≤ ·)

/-! ## What raising does -/

@[simp] theorem width?_empty (v : ValueId) : empty.width? v = none := rfl

/-- Raising joins into one width, and leaves the others alone. -/
theorem width?_raise (w : Widths) (v u : ValueId) (bits : Nat) :
    (w.raise v bits).2.width? u =
      if v = u then Width.join (w.width? u) (some bits) else w.width? u := by
  obtain ⟨joined, h, -⟩ := Width.exists_join_some (w.width? v) bits
  unfold raise
  rw [h]
  dsimp only
  split
  · -- the join is what was recorded, so nothing is inserted
    next same =>
    split
    · next e => rw [← e, h, same]
    · rfl
  · show (w.recorded.insert v joined).find? u = _
    rw [Table.find?_insert]
    split
    · next e => rw [← e, h]
    · rfl

/-- Raising reports a change exactly if the value's width is another one afterwards. -/
theorem raise_fst (w : Widths) (v : ValueId) (bits : Nat) :
    (w.raise v bits).1 = true ↔ (w.raise v bits).2.width? v ≠ w.width? v := by
  rw [width?_raise]
  obtain ⟨joined, h, -⟩ := Width.exists_join_some (w.width? v) bits
  unfold raise
  rw [h, if_pos rfl]
  dsimp only
  split
  · next same => simp [same]
  · next differs => simpa using fun e => differs e.symm

theorem width_eq_ok {w : Widths} {v : ValueId} {bits : Nat} :
    w.width v = .ok bits ↔ w.width? v = some bits := by
  unfold width
  cases w.width? v with
  | none => simp [reject, throw, throwThe, MonadExceptOf.throw]
  | some b => simp

end Widths

end Datapath
