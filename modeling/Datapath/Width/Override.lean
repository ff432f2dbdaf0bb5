import Datapath.Table
import Datapath.Text.Split

/-!
# Width overrides

An override states the width of one parameter of one kernel. Overrides are read from text, a line
each; a line counts only if it carries the *directive*:

    DATASIZE kernel.parameter 12

Of such a line, the word after the first that mentions the directive is the qualified name and the
word after that the width; whatever follows is ignored. A line that carries the directive and does
not go on like this is *malformed*. Reading a whole text skips malformed lines.
-/

namespace Datapath

/-! ## One line -/

/-- The width stated for a parameter of a kernel. -/
structure Override where
  kernel : String
  param : String
  bits : Nat

/-- What is wrong with a line that carries the directive. -/
inductive Override.Anomaly where
  | missingName
  | unqualifiedName (name : String)
  | missingWidth
  | invalidWidth (text : String)

def Override.Anomaly.message : Override.Anomaly → String
  | missingName => "missing qualified parameter name"
  | unqualifiedName name => s!"`{name}` is not of the form function.parameter"
  | missingWidth => "missing bit width"
  | invalidWidth text => s!"`{text}` is not a positive bit width"

namespace Override

open Text

def directive : String := "DATASIZE"

def maxBits : Nat := 0xFFFFFFFF

/-- A kernel's name and a parameter's name, neither empty, joined by the first dot. -/
def qualifiedName? (word : List Char) : Option (String × String) :=
  match cutAt? '.' word with
  | some (kernel, param) =>
    if kernel.isEmpty || param.isEmpty then none
    else some (String.ofList kernel, String.ofList param)
  | none => none

/-- A width: digits, with or without a plus sign, for a number from 1 to `maxBits`. -/
def bits? (word : List Char) : Option Nat :=
  let digits :=
    match word with
    | '+' :: rest => rest
    | _ => word
  (decimal? digits).filter fun bits => 0 < bits && bits ≤ maxBits

/-- The words from the directive on. -/
def marked (line : List Char) : List (List Char) :=
  (words line).dropWhile fun word => !mentions directive.toList word

/-- Reads a line; one without the directive states nothing. -/
def ofLine (line : List Char) : Except Anomaly (Option Override) :=
  match marked line with
  | [] => .ok none
  | [_] => .error .missingName
  | _ :: name :: rest =>
    match qualifiedName? name with
    | none => .error (.unqualifiedName (String.ofList name))
    | some (kernel, param) =>
      match rest with
      | [] => .error .missingWidth
      | width :: _ =>
        match bits? width with
        | none => .error (.invalidWidth (String.ofList width))
        | some bits => .ok (some ⟨kernel, param, bits⟩)

def parse (line : String) : Except Anomaly (Option Override) := ofLine line.toList

end Override

/-! ## The overrides of one kernel -/

structure Overrides where
  byParam : Table String Nat := .empty

namespace Overrides

def empty : Overrides := {}

def insert (o : Overrides) (param : String) (bits : Nat) : Overrides :=
  ⟨o.byParam.insert param bits⟩

def bits? (o : Overrides) (param : String) : Option Nat := o.byParam.find? param

def size (o : Overrides) : Nat := o.byParam.size

def isEmpty (o : Overrides) : Bool := o.byParam.isEmpty

/-- States the widths of a list: of two for one parameter, the later one counts. -/
def ofList (pairs : List (String × Nat)) : Overrides := ⟨.ofList pairs⟩

/-- Whether two collections state the same widths. -/
def same (o p : Overrides) : Bool :=
  o.size == p.size && o.byParam.entries.all fun (param, bits) => p.bits? param == some bits

/-- Enters what a line states about `kernel`: nothing, if it is malformed, states nothing or is
about another kernel. -/
def enterLine (kernel : String) (o : Overrides) (line : List Char) : Overrides :=
  match Override.ofLine line with
  | .ok (some entry) => if entry.kernel = kernel then o.insert entry.param entry.bits else o
  | _ => o

/-- The overrides that a text states for `kernel`, line by line. -/
def ofText (kernel : String) (text : String) : Overrides :=
  (Text.lines text.toList).foldl (enterLine kernel) empty

/-- The overrides that a file states for `kernel`, from the file's bytes. There are none to be had
if the file is missing or its bytes are not UTF-8. -/
def ofFile? (kernel : String) (content : Option ByteArray) : Option Overrides := do
  let text ← String.fromUTF8? (← content)
  return ofText kernel text

/-! ## The view -/

@[simp] theorem bits?_empty (param : String) : empty.bits? param = none := rfl

/-- A width stated again replaces the one before. -/
theorem bits?_insert (o : Overrides) (param name : String) (bits : Nat) :
    (o.insert param bits).bits? name = if param = name then some bits else o.bits? name :=
  Table.find?_insert ..

end Overrides

end Datapath
