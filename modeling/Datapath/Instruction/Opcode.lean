/-!
# Opcodes

An `Opcode` names what an instruction does. The analyses understand the first fifteen; the rest can
be written down in a kernel so that they are *rejected by name*, never dropped.

Four classes sort the opcodes that share a rule. That `sext` is *not* a cast is on purpose: no rule
covers a sign extension.
-/

namespace Datapath

/-- What an instruction does. -/
inductive Opcode where
  | add | sub | mul | sdiv | udiv | ashr
  | icmp
  | load | store | getElementPtr
  | trunc | zext
  | br | condBr | ret
  | switch | phi | call | and | or | xor | shl | lshr | sext | select
  deriving DecidableEq

namespace Opcode

/-- The written form. Both branches are written `br`. -/
def name : Opcode → String
  | add => "add" | sub => "sub" | mul => "mul"
  | sdiv => "sdiv" | udiv => "udiv" | ashr => "ashr"
  | icmp => "icmp"
  | load => "load" | store => "store" | getElementPtr => "getelementptr"
  | trunc => "trunc" | zext => "zext"
  | br => "br" | condBr => "br" | ret => "ret"
  | switch => "switch" | phi => "phi" | call => "call"
  | and => "and" | or => "or" | xor => "xor"
  | shl => "shl" | lshr => "lshr" | sext => "sext" | select => "select"

/-- Terminators end a block: nothing may follow one. -/
def isTerminator : Opcode → Bool
  | br | condBr | ret | switch => true
  | _ => false

/-- Branches pass control on and carry no data. -/
def isBranch : Opcode → Bool
  | br | condBr => true
  | _ => false

/-- Casts hand their operand's width straight through. -/
def isCast : Opcode → Bool
  | trunc | zext => true
  | _ => false

/-- Arithmetic is as wide as its wider operand. -/
def isArithmetic : Opcode → Bool
  | add | sub | mul | sdiv | udiv | ashr => true
  | _ => false

end Opcode

end Datapath
