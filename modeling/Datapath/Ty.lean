/-!
# Types of values

`Ty` is the type of a value: an integer of some width, a pointer, an array, or `void` for what
carries no data. Width analysis looks *through* indirection: `scalar` strips every pointer and
array, and `naturalWidth?` is the width of the integer found there, if one is.
-/

namespace Datapath

inductive Ty where
  | int (bits : Nat)
  | pointer (element : Ty)
  | array (length : Nat) (element : Ty)
  | void
  deriving DecidableEq

namespace Ty

/-- The written form: `i8`, `i8*`, `[4 x i8]`, `void`. A star follows what it points to, and an
array puts its length before its element. -/
def text : Ty → String
  | int bits => "i" ++ bits.repr
  | pointer element => element.text ++ "*"
  | array length element => "[" ++ length.repr ++ " x " ++ element.text ++ "]"
  | void => "void"

/-! ## Indirection -/

/-- Only a `pointer` is one; an array is not an address. -/
def isPointer : Ty → Bool
  | pointer _ => true
  | _ => false

def pointee? : Ty → Option Ty
  | pointer element => some element
  | _ => none

/-- The type below every pointer and array. -/
def scalar : Ty → Ty
  | pointer element => element.scalar
  | array _ element => element.scalar
  | int bits => int bits
  | void => void

/-- The width of the integer below every pointer and array. -/
def naturalWidth? (t : Ty) : Option Nat :=
  match t.scalar with
  | int bits => some bits
  | _ => none

/-- Steps into an array `depth` times. The error is the type, not an array, that could not be
entered. -/
def within : (depth : Nat) → Ty → Except Ty Ty
  | 0, t => .ok t
  | depth + 1, array _ element => within depth element
  | _ + 1, t => .error t

/-! ## How the views relate -/

@[simp] theorem isPointer_iff {t : Ty} : t.isPointer = true ↔ ∃ e, t = pointer e := by
  cases t <;> simp [isPointer]

@[simp] theorem pointee?_eq_some {t e : Ty} : t.pointee? = some e ↔ t = pointer e := by
  cases t <;> simp [pointee?]

@[simp] theorem naturalWidth?_array (n : Nat) (e : Ty) :
    (array n e).naturalWidth? = e.naturalWidth? := rfl

end Ty

end Datapath
