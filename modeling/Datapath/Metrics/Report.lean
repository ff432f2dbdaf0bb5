import Datapath.Metrics.Basic
import Datapath.Text.Quoted

/-!
# Metrics as a report

A report is a JSON object on several lines: one field on each, two spaces further in for each level,
a space after the colon, and no comma after the last field. `Report` is such an object in the making
and `Report.render` lays it out; which fields there are, and in what order, is `Metrics.report`.
-/

namespace Datapath

/-- A value of a report. -/
inductive Report where
  | number (n : Nat)
  | text (s : String)
  | fields (entries : List (String × Report))

namespace Report

def margin (depth : Nat) : String := String.ofList (List.replicate (2 * depth) ' ')

/-- The line of a field at some depth, given its value's text. -/
def entry (depth : Nat) (key value : String) : String :=
  margin depth ++ Text.quoted key ++ ": " ++ value

mutual

/-- A value, whose own lines stand at a depth. -/
def renderAt (depth : Nat) : Report → String
  | number n => n.repr
  | text s => Text.quoted s
  | fields [] => "\x7b\x7d"
  | fields (first :: rest) =>
    "\x7b\n" ++ renderEntries (depth + 1) (first :: rest) ++ "\n" ++ margin depth ++ "\x7d"

/-- Fields at a depth, a line each. -/
def renderEntries (depth : Nat) : List (String × Report) → String
  | [] => ""
  | [(key, value)] => entry depth key (renderAt depth value)
  | (key, value) :: rest =>
    entry depth key (renderAt depth value) ++ ",\n" ++ renderEntries depth rest

end

def render (r : Report) : String := renderAt 0 r

end Report

/-! ## The fields -/

def KindCount.report (c : KindCount) : Report :=
  .fields [
    ("in_params", .number c.inParams),
    ("out_params", .number c.outParams),
    ("inout_params", .number c.inOutParams),
    ("loads", .number c.loads),
    ("stores", .number c.stores),
    ("instructions", .number c.instructions)]

def WidthCount.report (c : WidthCount) : Report :=
  .fields [
    ("single_bit", .number c.singleBit),
    ("byte", .number c.byte),
    ("half", .number c.half),
    ("word", .number c.word),
    ("wide", .number c.wide)]

def Metrics.report (m : Metrics) : Report :=
  .fields [
    ("function", .text m.kernel),
    ("nodes", m.nodes.report),
    ("use_edges", .number m.useEdges),
    ("control_edges", .number m.controlEdges),
    ("buckets", .number m.buckets),
    ("max_width", .number m.maxWidth),
    ("total_width", .number m.totalWidth),
    ("critical_path", .number m.criticalPath),
    ("width_distribution", m.widths.report),
    ("passes", .number m.passes)]

def Metrics.json (m : Metrics) : String := m.report.render

end Datapath
