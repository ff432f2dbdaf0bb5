/-!
# Identities

A kernel numbers its values and its basic blocks from zero, each in order of creation. The two
counts are kept apart by type: a `ValueId` never selects a block, nor a `BlockId` a value.

The written forms, `%n` for a value and `bbn` for a block, are the ones every message uses.
-/

namespace Datapath

@[ext]
structure ValueId where
  index : Nat
  deriving DecidableEq

/-- A value is written as its number behind a percent sign. -/
def ValueId.text (v : ValueId) : String := "%" ++ v.index.repr

@[ext]
structure BlockId where
  index : Nat
  deriving DecidableEq

/-- A block is written as its number behind `bb`. -/
def BlockId.text (b : BlockId) : String := "bb" ++ b.index.repr

end Datapath
