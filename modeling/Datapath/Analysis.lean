import Datapath.Graph.Construction
import Datapath.Graph.Verdict
import Datapath.Width.Inference

/-!
# Analysing kernels

An `Analysis` is what is derived from a kernel: first the widths of its values, then the data-flow
graph made with them. The graph reads widths that have settled, so the two always come in this
order, and a kernel that fails either stage has no analysis.
-/

namespace Datapath

/-- The widths of a kernel's values and its data-flow graph. -/
structure Analysis where
  widths : Widths
  graph : Graph

namespace Kernel

def analysisWith (k : Kernel) (widths : Widths) : Outcome Analysis := do
  return ⟨widths, ← Graph.ofKernel k widths⟩

/-- Analyses a kernel, with inference held to a number of passes. -/
def analyzeWithin (k : Kernel) (overrides : Overrides) (cap : Option Nat) : Outcome Analysis := do
  k.analysisWith (← k.inferWithin overrides cap)

def analyze (k : Kernel) (overrides : Overrides) : Outcome Analysis :=
  k.analyzeWithin overrides none

end Kernel

namespace Analysis

/-- Analyses kernels that have nothing to do with each other, and stops at the first that fails. -/
def all (jobs : List (Kernel × Overrides)) (cap : Option Nat) : Outcome (List Analysis) :=
  jobs.mapM fun (k, overrides) => k.analyzeWithin overrides cap

def verify (a : Analysis) (k : Kernel) : Outcome Verdict := a.graph.verify k a.widths

end Analysis

end Datapath
