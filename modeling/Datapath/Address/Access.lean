import Datapath.Kernel.Basic

/-!
# How memory is accessed through a value

Starting from a value, `Kernel.access` follows use-lists forward and reports three things: whether
the value *feeds an address*, and whether memory is read or written on the way.

* A load or a store ends a path.
* An address computation ends a path as well, and the value feeds an address. The loads and stores
  under that address count, and those under addresses computed from it in turn.
* Any other value passes the walk on to its users.

No value is walked twice. Users have larger numbers, so the walk ends.
-/

namespace Datapath

/-- How memory is accessed through a value. -/
structure Access where
  /-- The value is part of an address. -/
  feedsAddress : Bool
  reads : Bool
  writes : Bool
  deriving DecidableEq

/-- Where a walk over users has been and what it met. -/
structure Access.Trail where
  visited : List ValueId := []
  reads : Bool := false
  writes : Bool := false

namespace Kernel

open Access (Trail)

/-- Takes in one user of the address `v`: loads and stores count, and `next` follows an address
computed from `v`, unless that was visited. -/
def noteAddressUser (k : Kernel) (next : ValueId → Trail → Outcome (Bool × Trail)) (v : ValueId)
    (t : Trail) (user : ValueId) : Outcome Trail := do
  match (← k.value user).instruction? with
  | none => return t
  | some i =>
    match i.opcode with
    | .load => return { t with reads := true }
    | .store => return if i.address? = some v then { t with writes := true } else t
    | .getElementPtr => if user ∈ t.visited then return t else return (← next user t).2
    | _ => return t

/-- Follows one user with `next`, unless it was visited. -/
def followUser (next : ValueId → Trail → Outcome (Bool × Trail)) (sofar : Bool × Trail)
    (user : ValueId) : Outcome (Bool × Trail) := do
  if user ∈ sofar.2.visited then return sofar
  let (feeds, t) ← next user sofar.2
  return (sofar.1 || feeds, t)

/-- Walks forward from a value. The flag answers whether the value feeds an address. Users are
looked for among the values defined after. -/
def follow (k : Kernel) (v : ValueId) (t : Trail) : Outcome (Bool × Trail) := do
  match k.value? v with
  | none => throw (.outOfRange v.index)
  | some x =>
    let t := { t with visited := v :: t.visited }
    let next (user : ValueId) (t : Trail) : Outcome (Bool × Trail) :=
      if _h : v.index < user.index ∧ user.index < k.size then follow k user t
      else throw (.outOfRange user.index)
    match x.opcode? with
    | some .getElementPtr => return (true, ← (k.usersOf v).foldlM (k.noteAddressUser next v) t)
    | some .load => return (false, { t with reads := true })
    | some .store => return (false, { t with writes := true })
    | _ => (k.usersOf v).foldlM (followUser next) (false, t)
termination_by k.size - v.index

def access (k : Kernel) (v : ValueId) : Outcome Access := do
  let (feeds, t) ← k.follow v {}
  return { feedsAddress := feeds, reads := t.reads, writes := t.writes }

end Kernel

end Datapath
