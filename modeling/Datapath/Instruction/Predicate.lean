/-!
# Comparison predicates

A `Predicate` is the relation that an integer comparison tests. `signed` forgets signedness: each
unsigned order becomes the signed order of the same direction and strictness.
-/

namespace Datapath

/-- The relation tested by an integer comparison. -/
inductive Predicate where
  | eq | ne
  | sgt | sge | slt | sle
  | ugt | uge | ult | ule
  deriving DecidableEq

namespace Predicate

def name : Predicate → String
  | eq => "eq" | ne => "ne"
  | sgt => "sgt" | sge => "sge" | slt => "slt" | sle => "sle"
  | ugt => "ugt" | uge => "uge" | ult => "ult" | ule => "ule"

/-- The signed counterpart; equality, and what is signed already, is its own. -/
def signed : Predicate → Predicate
  | ugt => sgt
  | uge => sge
  | ult => slt
  | ule => sle
  | p => p

end Predicate

end Datapath
