import Datapath.Width.Override
import Datapath.Width.Rule

/-!
# Width inference

Inference finds for every value the bits needed to carry it. Parameters and globals start from their
type, or a parameter from its override; constants from their magnitude; instructions from the
rules. A *pass* applies every rule once in textual order, operands first, and passes repeat until
one changes nothing.

## Why it ends

Widths only grow, and every width there is comes from a parameter, a global or a constant, or is 0
or 1. So a pass that changes something raises one of finitely many values by at least a bit, below a
bound known from the start: `Kernel.latticeHeight` is one more than the number of raises possible. A
caller may allow fewer passes than that.
-/

namespace Datapath

/-! ## Where widths start -/

/-- The width that a type gives a value, which it may not. -/
def naturalWidth (v : ValueId) (type : Ty) : Outcome Nat :=
  match type.naturalWidth? with
  | some bits => .ok bits
  | none => reject (.unsupportedType v type)

namespace Kernel

/-- The width a parameter starts from: the one stated for its name, else that of its type. -/
def paramWidth (k : Kernel) (overrides : Overrides) (param : ValueId) : Outcome Nat := do
  let x ← k.value param
  match overrides.bits? (k.nameOf param) with
  | some bits => return bits
  | none => naturalWidth param x.type

def globalWidth (k : Kernel) (global : ValueId) : Outcome Nat := do
  naturalWidth global (← k.value global).type

def seeds (k : Kernel) (overrides : Overrides) : Outcome Widths := do
  let params ← k.params.foldlM (fun w p => return (w.raise p (← k.paramWidth overrides p)).2) .empty
  k.globals.foldlM (fun w g => return (w.raise g (← k.globalWidth g)).2) params

def widestConstant (k : Kernel) : Nat :=
  ((k.values.toList.filterMap (·.constant?)).map Width.ofConstant).foldl max 0

/-- One more than the raises possible from some seeds: each value is set once and then grows by at
least a bit up to the widest seed or constant, or to 1. -/
def latticeHeight (k : Kernel) (seeds : Widths) : Nat :=
  k.size * (max (max seeds.widest k.widestConstant) 1 + 1) + 1

/-- The passes allowed: as many as a caller says, else as many as could ever be needed. -/
def passLimit (k : Kernel) (seeds : Widths) (cap : Option Nat) : Nat :=
  cap.getD (k.latticeHeight seeds)

end Kernel

/-! ## Passes -/

namespace Infer

def isVisited (v : ValueId) : Infer Bool := do
  return v ∈ (← get).visited

def markVisited (v : ValueId) : Infer Unit := modify fun p => { p with visited := v :: p.visited }

/-- Gives an argument or a global the width of its type, unless it has one. -/
def seedMissing (v : ValueId) (type : Ty) : Infer Bool := do
  if (← get).widths.has v then return false
  raise v (← MonadExcept.ofExcept (naturalWidth v type))

/-- Handles a value: applies its rule, operands first, once in a pass. Answers whether that counts
as a change of widths. Operands are looked for among the values defined before. -/
def process (k : Kernel) (v : ValueId) : Infer Bool := do
  match k.value? v with
  | none => throw (.outOfRange v.index)
  | some x =>
    if ← isVisited v then return false
    markVisited v
    match x.kind with
    | .argument _ => seedMissing v x.type
    | .global => seedMissing v x.type
    | .constant c => raise v (Width.ofConstant c)
    | .instruction i block =>
      let visit (o : ValueId) : Infer Bool :=
        if _h : o.index < v.index then process k o else throw (.outOfRange o.index)
      rule visit k v i block
termination_by v.index

def beginPass : Infer Unit :=
  modify fun p => { p with visited := [], passes := p.passes + 1 }

/-- A pass over all instructions in textual order. Answers whether widths changed. -/
def pass (k : Kernel) : Infer Bool := do
  beginPass
  visitAll (process k) k.instructions

end Infer

/-! ## To the fixed point -/

namespace Kernel

/-- Runs passes until one changes nothing, at most `fuel` of them. -/
def settle (k : Kernel) : (fuel : Nat) → Progress → Outcome Widths
  | 0, p => reject (.noFixpoint k.name p.passes)
  | fuel + 1, p =>
    match Infer.pass k p with
    | .ok true p => settle k fuel p
    | .ok false p => .ok { p.widths with passes := p.passes }
    | .error fault _ => .error fault

/-- Goes on from some progress until a pass changes nothing, within `limit` passes in all. -/
def run (k : Kernel) (limit : Nat) (p : Progress) : Outcome Widths :=
  k.settle (limit - p.passes) p

/-- The widths of a kernel's values, found within a number of passes. -/
def inferWithin (k : Kernel) (overrides : Overrides) (cap : Option Nat) : Outcome Widths := do
  let seeds ← k.seeds overrides
  k.run (k.passLimit seeds cap) { widths := seeds }

def infer (k : Kernel) (overrides : Overrides) : Outcome Widths := k.inferWithin overrides none

end Kernel

end Datapath
