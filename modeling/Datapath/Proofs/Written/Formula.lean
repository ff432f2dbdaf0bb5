import Datapath.Address.Written
import Datapath.Proofs.InRange

/-!
# Integer expressions and their texts

A `Formula` is an expression of arguments and constants by sums, differences, products, quotients
and shifts, as a tree. `Kernel.Expresses` says which tree a value of a kernel stands for, and
`Formula.eval` what the tree is worth.

The text of such a value is a row of `Token`s: leaves, operators and parentheses, the latter around
sums and differences below a product or a quotient and nowhere else. `Kernel.written_of_expresses`
is the agreement with `Kernel.written`. From there on texts are about trees and no longer about
kernels.
-/

namespace Datapath

/-! ## Operators -/

inductive Operator where
  | add | sub | mul | div | shr
  deriving DecidableEq

namespace Operator

/-- The opcode that an operator stands for; quotients and shifts are the signed ones. -/
def opcode : Operator → Opcode
  | add => .add | sub => .sub | mul => .mul | div => .sdiv | shr => .ashr

def symbol : Operator → String
  | add => "+" | sub => "-" | mul => "*" | div => "/" | shr => ">>"

/-- Products and quotients bind more tightly than sums and differences. -/
def isTight : Operator → Bool
  | mul | div => true
  | _ => false

/-- What an operator makes of two integers. There is no quotient by zero and no shift by a negative
distance; other quotients are rounded towards zero. -/
def eval : Operator → Int → Int → Option Int
  | add, x, y => some (x + y)
  | sub, x, y => some (x - y)
  | mul, x, y => some (x * y)
  | div, x, y => if y = 0 then none else some (x.tdiv y)
  | shr, x, y => if y < 0 then none else some (x >>> y.toNat)

/-- The same where an operand may be undefined. -/
def apply (o : Operator) (x y : Option Int) : Option Int := do
  o.eval (← x) (← y)

end Operator

/-! ## Formulas -/

inductive Leaf where
  | argument (v : ValueId)
  | constant (value : Int)
  deriving DecidableEq

inductive Formula where
  | leaf (x : Leaf)
  | operation (o : Operator) (left right : Formula)
  deriving DecidableEq

def Leaf.eval (env : ValueId → Int) : Leaf → Int
  | argument v => env v
  | constant value => value

namespace Formula

/-- The value of an expression, if it is defined. -/
def eval (env : ValueId → Int) : Formula → Option Int
  | leaf x => some (x.eval env)
  | operation o left right => o.apply (left.eval env) (right.eval env)

def isLeaf : Formula → Bool
  | leaf _ => true
  | _ => false

def isSum : Formula → Bool
  | operation .add _ _ | operation .sub _ _ => true
  | _ => false

def isShift : Formula → Bool
  | operation .shr _ _ => true
  | _ => false

end Formula

/-- A value of a kernel stands for an expression of integer arguments and constants. -/
inductive Kernel.Expresses (k : Kernel) : ValueId → Formula → Prop
  | argument {v : ValueId} {x : Value} {position bits : Nat} (known : k.value? v = some x)
      (kind : x.kind = .argument position) (type : x.type = .int bits) :
      Expresses k v (.leaf (.argument v))
  | constant {v : ValueId} {x : Value} {value : Int} (known : k.value? v = some x)
      (kind : x.kind = .constant value) : Expresses k v (.leaf (.constant value))
  | operation {v l r : ValueId} {i : Instruction} {o : Operator} {e f : Formula}
      (known : k.instruction? v = some i) (opcode : i.opcode = o.opcode)
      (operands : i.operands = [l, r]) (left : Expresses k l e) (right : Expresses k r f) :
      Expresses k v (.operation o e f)

/-! ## Tokens -/

/-- The smallest parts of a text that mean something. -/
inductive Token where
  | leaf (x : Leaf)
  | operator (o : Operator)
  | opening
  | closing
  deriving DecidableEq

/-- The characters of a token. Operators stand between blanks. -/
def Token.chars (name : ValueId → String) : Token → List Char
  | leaf (.argument v) => (name v).toList
  | leaf (.constant value) => (toString value).toList
  | operator o => ' ' :: o.symbol.toList ++ [' ']
  | opening => ['(']
  | closing => [')']

namespace Formula

def enclose (e : Formula) (ts : List Token) : List Token :=
  if e.isSum then .opening :: ts ++ [.closing] else ts

theorem enclose_of_isSum {e : Formula} {ts : List Token} (h : e.isSum = true) :
    e.enclose ts = .opening :: ts ++ [.closing] := if_pos h

theorem enclose_of_not_isSum {e : Formula} {ts : List Token} (h : e.isSum = false) :
    e.enclose ts = ts := if_neg (by simp [h])

def tokens : Formula → List Token
  | leaf x => [.leaf x]
  | operation o left right =>
    if o.isTight then enclose left left.tokens ++ .operator o :: enclose right right.tokens
    else left.tokens ++ .operator o :: right.tokens

def chars (name : ValueId → String) (e : Formula) : List Char :=
  e.tokens.flatMap (Token.chars name)

end Formula

/-! ## Agreement -/

namespace Kernel

variable {k : Kernel} {v : ValueId} {e : Formula} {i : Instruction}

/-- The symbol of an operation is that of its operator. -/
theorem symbol_of_operator {o : Operator} (hi : k.instruction? v = some i)
    (opcode : i.opcode = o.opcode) : k.symbol v = .ok o.symbol := by
  obtain ⟨x, hx, hxi⟩ := Option.bind_eq_some_iff.mp hi
  unfold symbol
  rw [value_eq_ok.mpr hx]
  simp only [bind, Except.bind, hxi, opcode]
  cases o <;> rfl

namespace Expresses

/-- An expression is not looked through. -/
theorem underlying_eq (h : k.Expresses v e) : k.underlying v = v := by
  unfold underlying
  cases h with
  | argument known kind =>
      rw [instruction?_of_value? known, Value.instruction?, kind]
  | constant known kind => rw [instruction?_of_constant known kind]
  | @operation _ l r i o _ _ known opcode =>
      rw [known]
      cases o <;> simp [opcode, Operator.opcode, Opcode.isCast, Instruction.condition?]

/-- Parentheses go by the tree. -/
theorem parenthesised_eq (h : k.Expresses v e) (name : ValueId → String) (ts : List Token) :
    k.parenthesised v (String.ofList (ts.flatMap (Token.chars name)))
      = String.ofList ((e.enclose ts).flatMap (Token.chars name)) := by
  unfold parenthesised opcode?
  cases h with
  | argument known kind =>
      rw [instruction?_of_value? known, Value.instruction?, kind]
      rfl
  | constant known kind =>
      rw [instruction?_of_constant known kind]
      rfl
  | @operation _ l r i o _ _ known opcode =>
      rw [known]
      apply String.toList_inj.mp
      cases o <;>
        simp [opcode, Operator.opcode, Formula.enclose, Formula.isSum, Token.chars]

end Expresses

theorem writtenOperand_of_operand? {o : ValueId} {p : Nat} (ho : i.operand? p = some o) :
    k.writtenOperand v i p = .ok (k.underlying o) := by
  simp only [writtenOperand, ho]

/-- An operation writes its operands around its operator. -/
theorem written_of_operator (wf : k.WellFormed) (hi : k.instruction? v = some i) {o : Operator}
    (opcode : i.opcode = o.opcode) {l r : ValueId} (hl : k.writtenOperand v i 0 = .ok l)
    (hr : k.writtenOperand v i 1 = .ok r) : k.written v = do
      let s ← k.written l
      let t ← k.written r
      return if o.isTight
        then k.parenthesised l s ++ " " ++ o.symbol ++ " " ++ k.parenthesised r t
        else s ++ " " ++ o.symbol ++ " " ++ t := by
  have hlv : l.index < v.index := wf.writtenOperand_lt hi hl
  have hrv : r.index < v.index := wf.writtenOperand_lt hi hr
  have hsymbol := symbol_of_operator hi opcode
  obtain ⟨x, b, hx, hk⟩ := exists_kind_of_instruction? hi
  rw [written, hx]
  cases o <;>
  · simp only [hk, opcode, Operator.opcode, hl, hr, hsymbol, bind, Except.bind]
    rw [dif_pos hlv, dif_pos hrv]
    rfl

/-- Where both operands have texts, the operation has one. -/
theorem written_of_operation (wf : k.WellFormed) (hi : k.instruction? v = some i) {o : Operator}
    (opcode : i.opcode = o.opcode) {l r : ValueId} {s t : String}
    (hl : k.writtenOperand v i 0 = .ok l) (hr : k.writtenOperand v i 1 = .ok r)
    (hs : k.written l = .ok s) (ht : k.written r = .ok t) :
    k.written v = .ok (if o.isTight
      then k.parenthesised l s ++ " " ++ o.symbol ++ " " ++ k.parenthesised r t
      else s ++ " " ++ o.symbol ++ " " ++ t) := by
  rw [written_of_operator wf hi opcode hl hr, hs, ht]
  rfl

/-- The text of a value that stands for an expression is the text of that expression. -/
theorem written_of_expresses (wf : k.WellFormed) (h : k.Expresses v e) :
    k.written v = .ok (String.ofList (e.chars k.nameOf)) := by
  induction h with
  | argument known kind =>
      rw [written, known]
      simp only [kind, Formula.chars, Formula.tokens, List.flatMap_singleton, Token.chars,
        String.ofList_toList]
      rfl
  | constant known kind =>
      rw [written, known]
      simp only [kind, Formula.chars, Formula.tokens, List.flatMap_singleton, Token.chars,
        String.ofList_toList]
      rfl
  | @operation v l r i o e f known opcode operands left right ihl ihr =>
      -- operands that stand for expressions are no casts, so they are written themselves
      have hl : k.writtenOperand v i 0 = .ok l :=
        left.underlying_eq ▸ writtenOperand_of_operand? (by simp [Instruction.operand?, operands])
      have hr : k.writtenOperand v i 1 = .ok r :=
        right.underlying_eq ▸ writtenOperand_of_operand? (by simp [Instruction.operand?, operands])
      rw [written_of_operation wf known opcode hl hr ihl ihr, Formula.chars, Formula.chars,
        left.parenthesised_eq, right.parenthesised_eq]
      apply congrArg
      apply String.toList_inj.mp
      cases ho : o.isTight <;> simp [Formula.chars, Formula.tokens, ho, Token.chars]

end Kernel

end Datapath
