import Datapath.Id
import Datapath.Ty
import Datapath.Instruction.Opcode
import Datapath.Instruction.Predicate

/-!
# What can go wrong

An analysis ends in an `Outcome`: an answer or a `Fault`. There are two sorts of fault.

* `rejected` carries a `Rejection`: the kernel was read and is refused, for a reason with a message.
* `outOfRange` says that something was looked up under a number nobody handed out. No message goes
  with it, and no kernel built step by step ever causes one from within.

A `Rejection` holds the *cause*; its wording is `Rejection.message`, and nowhere else. A kernel
whose parts do not fit together is refused as `malformed`, with the `Defect` that was found.
-/

namespace Datapath

/-! ## Defects of a kernel -/

/-- A way in which the parts of a kernel do not fit together. -/
inductive Defect where
  | unknownOperand (operand : ValueId)
  | outsideBlock (opcode : Opcode)
  | afterTerminator (opcode : Opcode) (terminator : ValueId) (block : String)
  | baseNotPointer (base : ValueId) (type : Ty)
  | notIndexable (type : Ty)
  | loadFromNonPointer (address : ValueId) (type : Ty)
  | storeToNonPointer (address : ValueId) (type : Ty)
  | missingOperand (opcode : Opcode) (value : ValueId) (position : Nat)
  | unwritableOperand (value : ValueId) (position : Nat)
  | missingAddress (opcode : Opcode) (value : ValueId)
  | unwritableAddress (value : ValueId)
  | notInstruction (value : ValueId)
  | missingPredicate (comparison : ValueId)
  | missingCondition (branch : ValueId)
  | unnumberedBlock (block : BlockId)
  | stated (text : String)

/-- The wording of a defect; `stated` is put into words by whoever found it. -/
def Defect.text : Defect → String
  | unknownOperand v => s!"operand {v.text} does not exist"
  | outsideBlock o => s!"`{o.name}` emitted outside of any block"
  | afterTerminator o v b => s!"`{o.name}` appended after terminator {v.text} in block `{b}`"
  | baseNotPointer v t => s!"getelementptr base {v.text} has non-pointer type {t.text}"
  | notIndexable t => s!"getelementptr indexes into non-aggregate type {t.text}"
  | loadFromNonPointer v t => s!"load from non-pointer {v.text} of type {t.text}"
  | storeToNonPointer v t => s!"store to non-pointer {v.text} of type {t.text}"
  | missingOperand o v n => s!"`{o.name}` at {v.text} is missing operand {n}"
  | unwritableOperand v n => s!"{v.text} is missing operand {n}"
  | missingAddress o v => s!"`{o.name}` at {v.text} has no address"
  | unwritableAddress v => s!"{v.text} has no address"
  | notInstruction v => s!"{v.text} is not an instruction"
  | missingPredicate v => s!"comparison {v.text} has no predicate"
  | missingCondition v => s!"conditional branch {v.text} has no condition"
  | unnumberedBlock b => s!"block {b.text} was not numbered"
  | stated text => text

/-! ## Rejections -/

/-- Why an analysis refuses a kernel. -/
inductive Rejection where
  /-- An instruction that no rule covers. -/
  | unsupportedOpcode (kernel : String) (value : ValueId) (opcode : Opcode)
  /-- A block that ends in something other than a branch or a return. -/
  | unsupportedTerminator (kernel block : String) (opcode : Opcode)
  /-- An address with no argument or global at its root. -/
  | untraceableAddress (value : ValueId)
  /-- A value whose type has no integer below its indirection. -/
  | unsupportedType (value : ValueId) (type : Ty)
  /-- A comparison without an infix symbol. -/
  | unsupportedPredicate (value : ValueId) (predicate : Predicate)
  /-- A width was asked for before one was recorded. -/
  | missingWidth (value : ValueId)
  /-- A node was asked for that the graph does not have. -/
  | missingNode (value : ValueId)
  /-- The passes allowed were used up while widths still grew. -/
  | noFixpoint (kernel : String) (passes : Nat)
  /-- The kernel's parts do not fit together. -/
  | malformed (defect : Defect)

namespace Rejection

def message : Rejection → String
  | unsupportedOpcode k v o => s!"unsupported opcode `{o.name}` at {v.text} in function `{k}`"
  | unsupportedTerminator k b o =>
    s!"unsupported terminator `{o.name}` ending block `{b}` in function `{k}`"
  | untraceableAddress v => s!"address expression {v.text} cannot be traced to a base pointer"
  | unsupportedType v t => s!"value {v.text} has type `{t.text}` with no derivable bit width"
  | unsupportedPredicate v p => s!"unsupported comparison predicate `{p.name}` at {v.text}"
  | missingWidth v => s!"no bit width recorded for {v.text}"
  | missingNode v => s!"no DFG node for {v.text}"
  | noFixpoint k n => s!"bit-width inference for `{k}` did not converge after {n} passes"
  | malformed d => "malformed IR: " ++ d.text

/-- The constructs that the analyses decline to handle, as opposed to misuse by a caller. -/
def isUnsupportedConstruct : Rejection → Bool
  | unsupportedOpcode .. | unsupportedTerminator .. | untraceableAddress .. | unsupportedType ..
  | unsupportedPredicate .. => true
  | _ => false

end Rejection

/-! ## Faults and outcomes -/

/-- Why there is no answer. -/
inductive Fault where
  /-- Nothing has this number. -/
  | outOfRange (index : Nat)
  | rejected (why : Rejection)

abbrev Outcome := Except Fault

def reject {m : Type → Type} [MonadExceptOf Fault m] {α : Type} (why : Rejection) : m α :=
  throw (.rejected why)

end Datapath
