import Datapath.Fault
import Datapath.Instruction.Basic

/-!
# Kernels

A `Kernel` is one function in single-assignment form: its values, the use-list of each value, and
basic blocks that list instructions in textual order. Arguments, globals, constants and instructions
are all values, numbered together in order of creation.

A kernel is *raw*: nothing in the type says that operands exist or that use-lists are right. Kernels
put together call by call are well-formed, and an analysis of any other meets `Fault.outOfRange`
where it looks up a number that nobody handed out.

## Order

An operand of a well-formed kernel has a smaller number than its user. So a walk over operands goes
down and a walk over users goes up, and that is what makes either end.
-/

namespace Datapath

/-! ## Values and blocks -/

/-- What sort of thing a value is. -/
inductive ValueKind where
  /-- A parameter of the kernel, counted from zero. -/
  | argument (position : Nat)
  | constant (value : Int)
  | global
  /-- An instruction and the block it stands in. -/
  | instruction (operation : Instruction) (block : BlockId)
  deriving DecidableEq

/-- A value: an optional source name, a type and a kind. -/
structure Value where
  name : Option String
  type : Ty
  kind : ValueKind

namespace Value

def instruction? (x : Value) : Option Instruction :=
  match x.kind with
  | .instruction i _ => some i
  | _ => none

def opcode? (x : Value) : Option Opcode := x.instruction?.map (·.opcode)

def constant? (x : Value) : Option Int :=
  match x.kind with
  | .constant c => some c
  | _ => none

def isArgument (x : Value) : Bool :=
  match x.kind with
  | .argument _ => true
  | _ => false

def isGlobal (x : Value) : Bool :=
  match x.kind with
  | .global => true
  | _ => false

def isBase (x : Value) : Bool := x.isArgument || x.isGlobal

/-- What the value reads: nothing, unless it is an instruction. -/
def operands (x : Value) : List ValueId := (x.instruction?.map (·.operands)).getD []

end Value

/-- A basic block: instructions in textual order, the last one possibly a terminator. -/
structure Block where
  name : String
  instructions : List ValueId

/-! ## Kernels -/

/-- One function: values, use-lists and blocks. -/
structure Kernel where
  name : String
  values : Array Value
  /-- For each value its users, once for every operand that is this value. -/
  users : Array (List ValueId)
  params : List ValueId
  globals : List ValueId
  blocks : Array Block

namespace Kernel

def empty (name : String) : Kernel := ⟨name, #[], #[], [], [], #[]⟩

def size (k : Kernel) : Nat := k.values.size

/-! ## Looking things up -/

def value? (k : Kernel) (v : ValueId) : Option Value := k.values[v.index]?

/-- The value with a number, which is out of range if nothing has it. -/
def value (k : Kernel) (v : ValueId) : Outcome Value :=
  match k.value? v with
  | some x => .ok x
  | none => .error (.outOfRange v.index)

/-- The block with a number, which is out of range if nothing has it. -/
def block (k : Kernel) (b : BlockId) : Outcome Block :=
  match k.blocks[b.index]? with
  | some block => .ok block
  | none => .error (.outOfRange b.index)

def instruction? (k : Kernel) (v : ValueId) : Option Instruction :=
  (k.value? v).bind (·.instruction?)

def opcode? (k : Kernel) (v : ValueId) : Option Opcode := (k.instruction? v).map (·.opcode)

/-- The users of a value, in order of creation. -/
def usersOf (k : Kernel) (v : ValueId) : List ValueId := k.users[v.index]?.getD []

/-- The source name of a value; one without goes by its number. -/
def nameOf (k : Kernel) (v : ValueId) : String := ((k.value? v).bind (·.name)).getD v.text

/-! ## Text order -/

def ids (k : Kernel) : List ValueId := (List.range k.size).map ValueId.mk

def blockIds (k : Kernel) : List BlockId := (List.range k.blocks.size).map BlockId.mk

def instructions (k : Kernel) : List ValueId := k.blocks.toList.flatMap (·.instructions)

/-- The last instruction of a block, if it is a terminator. -/
def terminator? (k : Kernel) (block : Block) : Option ValueId :=
  block.instructions.getLast?.filter fun last => (k.opcode? last).any (·.isTerminator)

/-! ## Growing -/

/-- Enters `user` at the end of the use-list of each operand. -/
def enterUses (users : Array (List ValueId)) (user : ValueId) (operands : List ValueId) :
    Array (List ValueId) :=
  operands.foldl (fun users o => users.modify o.index (· ++ [user])) users

/-- Adds a value under the next number and enters it in the use-lists of its operands. -/
def push (k : Kernel) (x : Value) : Kernel :=
  { k with
    values := k.values.push x
    users := (enterUses k.users ⟨k.size⟩ x.operands).push [] }

def append (k : Kernel) (b : BlockId) (v : ValueId) : Kernel :=
  { k with
    blocks := k.blocks.modify b.index fun block =>
      { block with instructions := block.instructions ++ [v] } }

/-! ## What growing does to the views -/

@[simp] theorem size_push (k : Kernel) (x : Value) : (k.push x).size = k.size + 1 := by
  simp [push, size]

/-- A new value gets the next number, and the others keep theirs. -/
theorem value?_push (k : Kernel) (x : Value) (v : ValueId) :
    (k.push x).value? v = if v.index = k.size then some x else k.value? v := by
  show (k.values.push x)[v.index]? = _
  rw [Array.getElem?_push]
  rfl

/-- The numbers below the size are those that were handed out. -/
theorem value?_isSome (k : Kernel) (v : ValueId) : (k.value? v).isSome ↔ v.index < k.size := by
  simp [value?, size]

theorem value_eq_ok {k : Kernel} {v : ValueId} {x : Value} :
    k.value v = .ok x ↔ k.value? v = some x := by
  unfold value
  cases k.value? v <;> simp

@[simp] theorem size_enterUses (users : Array (List ValueId)) (user : ValueId)
    (operands : List ValueId) : (enterUses users user operands).size = users.size := by
  induction operands generalizing users with
  | nil => rfl
  | cons o rest ih => simpa [enterUses] using ih (users.modify o.index (· ++ [user]))

end Kernel

end Datapath
