import Datapath.Graph.Node

/-!
# Tallies

Two tallies are kept of the nodes of a graph, one by kind and one by class of width. Each takes
nodes one at a time, and `total` is the number taken in.
-/

namespace Datapath

/-! ## By kind -/

structure KindCount where
  inParams : Nat := 0
  outParams : Nat := 0
  inOutParams : Nat := 0
  loads : Nat := 0
  stores : Nat := 0
  instructions : Nat := 0

namespace KindCount

def add (c : KindCount) : NodeKind → KindCount
  | .inParam => { c with inParams := c.inParams + 1 }
  | .outParam => { c with outParams := c.outParams + 1 }
  | .inOutParam => { c with inOutParams := c.inOutParams + 1 }
  | .load => { c with loads := c.loads + 1 }
  | .store => { c with stores := c.stores + 1 }
  | .instruction => { c with instructions := c.instructions + 1 }

def total (c : KindCount) : Nat :=
  c.inParams + c.outParams + c.inOutParams + c.loads + c.stores + c.instructions

/-- Every node is counted in one of the classes. -/
@[simp] theorem total_add (c : KindCount) (kind : NodeKind) : (c.add kind).total = c.total + 1 := by
  cases kind <;> simp only [add, total] <;> omega

end KindCount

/-! ## By width -/

/-- The number of widths in each class. A class is named for its widest member. -/
structure WidthCount where
  /-- At most 1. -/
  singleBit : Nat := 0
  /-- At most 8. -/
  byte : Nat := 0
  /-- At most 16. -/
  half : Nat := 0
  /-- At most 32. -/
  word : Nat := 0
  /-- More than 32. -/
  wide : Nat := 0

namespace WidthCount

/-- Counts a width in the first class that holds it. -/
def add (c : WidthCount) (width : Nat) : WidthCount :=
  if width ≤ 1 then { c with singleBit := c.singleBit + 1 }
  else if width ≤ 8 then { c with byte := c.byte + 1 }
  else if width ≤ 16 then { c with half := c.half + 1 }
  else if width ≤ 32 then { c with word := c.word + 1 }
  else { c with wide := c.wide + 1 }

def total (c : WidthCount) : Nat := c.singleBit + c.byte + c.half + c.word + c.wide

/-- Every width falls into one of the classes. -/
@[simp] theorem total_add (c : WidthCount) (width : Nat) : (c.add width).total = c.total + 1 := by
  unfold add
  repeat' split
  all_goals simp only [total]; omega

end WidthCount

end Datapath
