import Datapath.Kernel.Basic

/-!
# Which values feed an address

A `FeedTable` answers for every value of a kernel at once whether it feeds an address: an address
computation does, a load or a store does not, and any other value does if one of its users does.

The table is filled by asking about each value in turn. A value that is asked about for the first
time is *resolved*, and the values that this needs along with it; whatever is resolved is read off
from then on. So each use-list is read once.
-/

namespace Datapath

/-- For each value, by number, whether it feeds an address, as far as that is resolved. -/
structure FeedTable where
  flags : Array (Option Bool)

namespace FeedTable

def unresolved (k : Kernel) : FeedTable := ⟨Array.replicate k.size none⟩

def flag? (t : FeedTable) (v : ValueId) : Option Bool := t.flags[v.index]?.join

/-- Whether a value feeds an address; what is not in the table does not. -/
def feeds (t : FeedTable) (v : ValueId) : Bool := (t.flag? v).getD false

def record (t : FeedTable) (v : ValueId) (flag : Bool) : FeedTable :=
  ⟨t.flags.setIfInBounds v.index (some flag)⟩

def askUser (next : ValueId → FeedTable → Outcome (Bool × FeedTable)) (sofar : Bool × FeedTable)
    (user : ValueId) : Outcome (Bool × FeedTable) := do
  let (flag, t) ← next user sofar.2
  return (sofar.1 || flag, t)

/-- Whether a value feeds an address, by what it is or by what `next` says of its users. -/
def ask (k : Kernel) (next : ValueId → FeedTable → Outcome (Bool × FeedTable)) (v : ValueId)
    (t : FeedTable) : Outcome (Bool × FeedTable) :=
  match k.opcode? v with
  | some .getElementPtr => .ok (true, t)
  | some .load => .ok (false, t)
  | some .store => .ok (false, t)
  | _ => (k.usersOf v).foldlM (askUser next) (false, t)

/-- Whether a value feeds an address, and the table in which it is resolved. While its users are
being asked about, it counts as one that feeds no address. Users are looked for among the values
defined after. -/
def resolve (k : Kernel) (v : ValueId) (t : FeedTable) : Outcome (Bool × FeedTable) := do
  match t.flag? v with
  | some flag => return (flag, t)
  | none =>
    let next (user : ValueId) (t : FeedTable) : Outcome (Bool × FeedTable) :=
      if _h : v.index < user.index ∧ user.index < k.size then resolve k user t
      else throw (.outOfRange user.index)
    let (flag, t) ← ask k next v (t.record v false)
    return (flag, t.record v flag)
termination_by k.size - v.index

/-- Asks about one more value, for the table alone. -/
def settle (k : Kernel) (t : FeedTable) (v : ValueId) : Outcome FeedTable := do
  return (← resolve k v t).2

def ofKernel (k : Kernel) : Outcome FeedTable :=
  k.ids.foldlM (settle k) (unresolved k)

/-! ## What recording does to the flags -/

@[simp] theorem size_record (t : FeedTable) (v : ValueId) (flag : Bool) :
    (t.record v flag).flags.size = t.flags.size := Array.size_setIfInBounds

/-- Recording a value changes what is known of it, and of no other. -/
theorem flag?_record {t : FeedTable} {v : ValueId} (hv : v.index < t.flags.size) (flag : Bool)
    (w : ValueId) : (t.record v flag).flag? w = if w = v then some flag else t.flag? w := by
  unfold record flag?
  rw [Array.getElem?_setIfInBounds]
  by_cases h : w = v
  · rw [if_pos h, h, if_pos rfl, if_pos hv]
    rfl
  · rw [if_neg h, if_neg fun e => h (ValueId.ext e.symm)]

@[simp] theorem flag?_unresolved (k : Kernel) (v : ValueId) : (unresolved k).flag? v = none := by
  unfold unresolved flag?
  rw [Array.getElem?_replicate]
  split <;> rfl

end FeedTable

end Datapath
