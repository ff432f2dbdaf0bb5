import Datapath.Kernel.Basic
import Datapath.Table

/-!
# Building a kernel call by call

A `Builder` is a kernel under construction, the block that new instructions go to and a table of the
constants handed out. Each call is a `Build` action: it may be rejected, and the builder as it then
stands *survives the rejection*, so a caller can go on with the next call.

## What is checked

A call checks the operands whose type it needs, then that there is a current block, then that the
block is still open. The right operand of a binary instruction and the indices of an address
computation are not among the operands checked: one that does not exist is out of range.

Constants are shared: the same integer at the same width is the same value. The table tells which one
that is, and it is all that a call for a constant looks at.
-/

namespace Datapath

/-- A kernel under construction. -/
structure Builder where
  kernel : Kernel
  /-- Where new instructions go. -/
  current : Option BlockId := none
  /-- The constants handed out, by integer and width. -/
  constants : Table (Int × Nat) ValueId := .empty

abbrev Build := EStateM Fault Builder

namespace Builder

def start (name : String) : Builder := { kernel := Kernel.empty name }

/-! ## Steps shared by the calls -/

def push (x : Value) : Build ValueId :=
  modifyGet fun b => (⟨b.kernel.size⟩, { b with kernel := b.kernel.push x })

/-- The type of an operand, which has to exist. -/
def typeOf (operand : ValueId) : Build Ty := do
  match (← get).kernel.value? operand with
  | some x => return x.type
  | none => reject (.malformed (.unknownOperand operand))

/-- The block that a new instruction goes to: the current one, if it is still open. -/
def openBlock (opcode : Opcode) : Build BlockId := do
  let b ← get
  match b.current with
  | none => reject (.malformed (.outsideBlock opcode))
  | some current =>
    match b.kernel.blocks[current.index]? with
    | none => throw (.outOfRange current.index)
    | some block =>
      match b.kernel.terminator? block with
      | some last => reject (.malformed (.afterTerminator opcode last block.name))
      | none => return current

/-- The first of some operands that has no number in a kernel. -/
def firstUnknown? (k : Kernel) (operands : List ValueId) : Option ValueId :=
  operands.find? fun o => k.size ≤ o.index

/-- Appends an instruction to the current block. An empty name leaves it unnamed. -/
def emit (operation : Instruction) (type : Ty) (name : String) : Build ValueId := do
  let block ← openBlock operation.opcode
  match firstUnknown? (← get).kernel operation.operands with
  | some o => throw (.outOfRange o.index)
  | none =>
    let v ← push
      { name := if name.isEmpty then none else some name
        type := type
        kind := .instruction operation block }
    modify fun b => { b with kernel := b.kernel.append block v }
    return v

/-! ## Parameters, globals and constants -/

/-- Adds a parameter behind those there are. -/
def param (name : String) (type : Ty) : Build ValueId := do
  let v ← push
    { name := some name, type := type, kind := .argument (← get).kernel.params.length }
  modify fun b => { b with kernel := { b.kernel with params := b.kernel.params ++ [v] } }
  return v

def global (name : String) (type : Ty) : Build ValueId := do
  let v ← push { name := some name, type := type, kind := .global }
  modify fun b => { b with kernel := { b.kernel with globals := b.kernel.globals ++ [v] } }
  return v

/-- The constant with an integer and a width, added if it is new. -/
def constant (value : Int) (bits : Nat) : Build ValueId := do
  match (← get).constants.find? (value, bits) with
  | some v => return v
  | none =>
    let v ← push { name := none, type := .int bits, kind := .constant value }
    modify fun b => { b with constants := b.constants.insert (value, bits) v }
    return v

/-! ## Blocks -/

def block (name : String) : Build BlockId :=
  modifyGet fun b =>
    (⟨b.kernel.blocks.size⟩,
      { b with kernel := { b.kernel with blocks := b.kernel.blocks.push ⟨name, []⟩ } })

/-- Sends new instructions to the end of a block, which need not exist yet. -/
def moveTo (block : BlockId) : Build Unit := modify fun b => { b with current := some block }

/-! ## Instructions that carry data -/

def binary (opcode : Opcode) (left right : ValueId) (name : String) : Build ValueId := do
  let type ← typeOf left
  emit { opcode := opcode, operands := [left, right] } type name

def compare (predicate : Predicate) (left right : ValueId) (name : String) : Build ValueId := do
  let _ ← typeOf left
  emit { opcode := .icmp, operands := [left, right], predicate := some predicate } (.int 1) name

/-- An address computation. The first index steps over the base pointer and each further one into
an array; the result points at the element reached. -/
def elementPointer (base : ValueId) (indices : List ValueId) (name : String) : Build ValueId := do
  let type ← typeOf base
  match type.pointee? with
  | none => reject (.malformed (.baseNotPointer base type))
  | some whole =>
    match whole.within (indices.length - 1) with
    | .error type => reject (.malformed (.notIndexable type))
    | .ok element =>
      emit { opcode := .getElementPtr, operands := base :: indices } (.pointer element) name

def load (address : ValueId) (name : String) : Build ValueId := do
  let type ← typeOf address
  match type.pointee? with
  | none => reject (.malformed (.loadFromNonPointer address type))
  | some element => emit { opcode := .load, operands := [address] } element name

def store (value address : ValueId) : Build ValueId := do
  let _ ← typeOf value
  let type ← typeOf address
  match type.pointee? with
  | none => reject (.malformed (.storeToNonPointer address type))
  | some _ => emit { opcode := .store, operands := [value, address] } .void ""

def cast (opcode : Opcode) (value : ValueId) (bits : Nat) (name : String) : Build ValueId := do
  let _ ← typeOf value
  emit { opcode := opcode, operands := [value] } (.int bits) name

/-- An instruction of any opcode, arity and type; all operands have to exist. -/
def instruction (opcode : Opcode) (operands : List ValueId) (type : Ty) (name : String) :
    Build ValueId := do
  operands.forM fun o => discard (typeOf o)
  emit { opcode := opcode, operands := operands } type name

/-! ## Terminators -/

def branch (target : BlockId) : Build ValueId :=
  emit { opcode := .br, operands := [], successors := [target] } .void ""

def branchIf (condition : ValueId) (whenTrue whenFalse : BlockId) : Build ValueId := do
  let _ ← typeOf condition
  emit { opcode := .condBr, operands := [condition], successors := [whenTrue, whenFalse] } .void ""

/-- A jump to one of several blocks, the default first. -/
def switch (value : ValueId) (default : BlockId) (cases : List BlockId) : Build ValueId := do
  let _ ← typeOf value
  emit { opcode := .switch, operands := [value], successors := default :: cases } .void ""

/-- A return, with or without a value. -/
def ret (value : Option ValueId) : Build ValueId := do
  match value with
  | some v =>
    let _ ← typeOf v
    emit { opcode := .ret, operands := [v] } .void ""
  | none => emit { opcode := .ret, operands := [] } .void ""

end Builder

end Datapath
