import Datapath.Analysis
import Datapath.Metrics.Count
import Datapath.Metrics.Depth

/-!
# Metrics

`Metrics` are the figures by which kernels are compared: how large a graph is, how wide its values
are and how deep its dependencies go.
-/

namespace Datapath

structure Metrics where
  kernel : String
  nodes : KindCount
  useEdges : Nat
  controlEdges : Nat
  buckets : Nat
  maxWidth : Nat
  totalWidth : Nat
  criticalPath : Nat
  widths : WidthCount
  /-- The passes that width inference took. -/
  passes : Nat

/-- The figures of an analysis, which there are unless its use edges form a cycle. -/
def Analysis.metrics? (a : Analysis) : Option Metrics := do
  let g := a.graph
  let nodes := g.nodes.toList
  let criticalPath ← g.criticalPath?
  return {
    kernel := g.kernel
    nodes := (nodes.map (·.kind)).foldl KindCount.add {}
    useEdges := g.useCount
    controlEdges := g.controlCount
    buckets := g.buckets.size
    maxWidth := (nodes.map (·.width)).foldl max 0
    totalWidth := (nodes.map (·.width)).foldl (· + ·) 0
    criticalPath := criticalPath
    widths := (nodes.map (·.width)).foldl WidthCount.add {}
    passes := a.widths.passes }

end Datapath
