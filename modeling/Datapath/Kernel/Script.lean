import Datapath.Kernel.Builder

/-!
# Construction scripts

A `Step` is one builder call as data and a script is a list of steps. Running a script calls the
builder step by step and collects the answers. A rejected step leaves its rejection among the
answers and the script goes on; a step that is out of range *ends* the script, with no builder left.
-/

namespace Datapath

inductive Step where
  | param (name : String) (type : Ty)
  | global (name : String) (type : Ty)
  | constant (value : Int) (bits : Nat)
  | block (name : String)
  | moveTo (target : BlockId)
  | binary (opcode : Opcode) (left right : ValueId) (name : String)
  | compare (predicate : Predicate) (left right : ValueId) (name : String)
  | elementPointer (base : ValueId) (indices : List ValueId) (name : String)
  | load (address : ValueId) (name : String)
  | store (value address : ValueId)
  | cast (opcode : Opcode) (value : ValueId) (bits : Nat) (name : String)
  | branch (target : BlockId)
  | branchIf (condition : ValueId) (whenTrue whenFalse : BlockId)
  | switch (value : ValueId) (default : BlockId) (cases : List BlockId)
  | ret (value : Option ValueId)
  | instruction (opcode : Opcode) (operands : List ValueId) (type : Ty) (name : String)

/-- What a successful step hands back. -/
inductive Step.Answer where
  | value (id : ValueId)
  | block (id : BlockId)
  | done

namespace Step

def run : Step → Build Answer
  | param name type => .value <$> Builder.param name type
  | global name type => .value <$> Builder.global name type
  | constant value bits => .value <$> Builder.constant value bits
  | block name => .block <$> Builder.block name
  | moveTo target => (fun _ => .done) <$> Builder.moveTo target
  | binary opcode left right name => .value <$> Builder.binary opcode left right name
  | compare predicate left right name => .value <$> Builder.compare predicate left right name
  | elementPointer base indices name => .value <$> Builder.elementPointer base indices name
  | load address name => .value <$> Builder.load address name
  | store value address => .value <$> Builder.store value address
  | cast opcode value bits name => .value <$> Builder.cast opcode value bits name
  | branch target => .value <$> Builder.branch target
  | branchIf condition whenTrue whenFalse =>
    .value <$> Builder.branchIf condition whenTrue whenFalse
  | switch value default cases => .value <$> Builder.switch value default cases
  | ret value => .value <$> Builder.ret value
  | instruction opcode operands type name =>
    .value <$> Builder.instruction opcode operands type name

/-- Runs steps in order. Beside the answers stands the builder at the end, unless a step was out of
range: its answer is the last, and no builder is left. -/
def runAll : List Step → Builder → List (Outcome Answer) × Option Builder
  | [], b => ([], some b)
  | s :: rest, b =>
    match s.run b with
    | .ok answer b =>
      let (answers, last) := runAll rest b
      (.ok answer :: answers, last)
    | .error (.rejected why) b =>
      let (answers, last) := runAll rest b
      (.error (.rejected why) :: answers, last)
    | .error (.outOfRange index) _ => ([.error (.outOfRange index)], none)

end Step

/-- The kernel that a script builds from nothing, unless the script ends out of range. -/
def Kernel.ofScript? (name : String) (script : List Step) : Option Kernel :=
  (Step.runAll script (Builder.start name)).2.map (·.kernel)

end Datapath
