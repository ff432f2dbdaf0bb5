import Datapath.Address.Underlying

/-!
# Expressions as text

`Kernel.written` renders an address or an index the way it would stand in source text: `a[i + 1]`.
Casts vanish, a loaded value is written like its address, and a sum or a difference below a product
or a quotient is put in parentheses.

`Kernel.symbol` is the operator of a single instruction. A comparison is written through its signed
predicate, and only the strict orders have a symbol.
-/

namespace Datapath.Kernel

/-! ## Operators -/

/-- The operator of an arithmetic instruction or a comparison. -/
def symbol (k : Kernel) (v : ValueId) : Outcome String := do
  match (← k.value v).instruction? with
  | none => reject (.malformed (.notInstruction v))
  | some i =>
    match i.opcode with
    | .add => return "+"
    | .sub => return "-"
    | .mul => return "*"
    | .sdiv => return "/"
    | .udiv => return "/"
    | .ashr => return ">>"
    | .icmp =>
      match i.predicate with
      | none => reject (.malformed (.missingPredicate v))
      | some predicate =>
        match predicate.signed with
        | .sgt => return ">"
        | .slt => return "<"
        | other => reject (.unsupportedPredicate v other)
    | opcode => reject (.unsupportedOpcode k.name v opcode)

/-! ## Expressions -/

/-- The operand of `v` that is written at a position: taken through a cast. -/
def writtenOperand (k : Kernel) (v : ValueId) (i : Instruction) (position : Nat) :
    Outcome ValueId :=
  match i.operand? position with
  | some o => .ok (k.underlying o)
  | none => reject (.malformed (.unwritableOperand v position))

/-- Puts a sum or a difference in parentheses. -/
def parenthesised (k : Kernel) (v : ValueId) (text : String) : String :=
  match k.opcode? v with
  | some .add | some .sub => "(" ++ text ++ ")"
  | _ => text

/-- The text of an address or index expression. -/
def written (k : Kernel) (v : ValueId) : Outcome String := do
  match k.value? v with
  | none => throw (.outOfRange v.index)
  | some x =>
    let next (o : ValueId) : Outcome String :=
      if _h : o.index < v.index then written k o else throw (.outOfRange o.index)
    match x.kind with
    | .argument _ => return k.nameOf v
    | .global => return k.nameOf v
    | .constant c => return toString c
    | .instruction i _ =>
      match i.opcode with
      | .getElementPtr =>
        let base ← next (← k.writtenOperand v i 0)
        let indices ← i.indices.mapM fun o => next (k.underlying o)
        return base ++ String.join (indices.map fun index => "[" ++ index ++ "]")
      | .load => next (← k.writtenOperand v i 0)
      | .add | .sub | .ashr =>
        let left ← next (← k.writtenOperand v i 0)
        let operator ← k.symbol v
        let right ← next (← k.writtenOperand v i 1)
        return left ++ " " ++ operator ++ " " ++ right
      | .mul | .sdiv =>
        let left ← k.writtenOperand v i 0
        let leftText ← next left
        let operator ← k.symbol v
        let right ← k.writtenOperand v i 1
        let rightText ← next right
        return k.parenthesised left leftText ++ " " ++ operator ++ " "
          ++ k.parenthesised right rightText
      | opcode => reject (.unsupportedOpcode k.name v opcode)
termination_by v.index

end Datapath.Kernel
