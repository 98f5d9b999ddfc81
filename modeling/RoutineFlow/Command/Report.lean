import RoutineFlow.Command.Library
import RoutineFlow.Flow.Analysis
import RoutineFlow.Flow.Chart

namespace RoutineFlow.Command

open Syntax (Tree Kind Id)

-- The line on which a node begins.
def lineOf (t : Tree) (id : Syntax.Id) : Nat :=
  (t.span? id).elim 0 (·.startLine)

def hasBody (t : Tree) (id : Syntax.Id) : Bool :=
  match t.kind? id with
  | some (.routine _ (some _)) => true
  | _                          => false

-- The routines that have a body and, if one is given, the name.
def named (t : Tree) (name? : Option String) : List Syntax.Id :=
  (t.routines.filter fun (id, name) => name?.all (· = name) && hasBody t id).map (·.1)

-- How many lines a node goes on after its first one, if it is on the line.
def extentAt? (t : Tree) (line : Nat) (id : Syntax.Id) : Option Nat := do
  let span ← t.span? id
  guard (span.startLine ≤ line && line ≤ span.endLine)
  return span.endLine - span.startLine

-- Whether one candidate takes fewer lines than another, or was added before it.
def tighter (a b : Nat × Syntax.Id) : Bool :=
  a.1 < b.1 || (a.1 = b.1 && a.2.index < b.2.index)

-- The first of the candidates with the fewest lines.
def tightest? (candidates : List (Nat × Syntax.Id)) : Option (Nat × Syntax.Id) :=
  candidates.foldl
    (fun best? c => some (best?.elim c fun best => if tighter c best then c else best))
    none

-- The routines to analyze: all that have a body and the name, or of these the innermost one on a
-- line.
def select (t : Tree) (name? : Option String) (line? : Option Nat) : List Syntax.Id :=
  let routines := named t name?
  match line? with
  | none      => routines
  | some line =>
    (tightest? (routines.filterMap fun id => (extentAt? t line id).map (·, id))).toList.map (·.2)

-- What is said about a routine: its place and name, and the figures of its graph or an error.
structure Result where
  path             : String
  name             : String
  line             : Nat
  stats?           : Option Flow.Stats := none
  unreachableLines : List Nat := []
  error?           : Option String := none
  chart?           : Option String := none

-- The path with slashes between its steps.
def shownPath (path : Path) : String :=
  .ofList (path.text.toList.map fun c => if c = '\\' then '/' else c)

def nameOf (t : Tree) (routine : Syntax.Id) : String :=
  match t.kind? routine with
  | some (.routine name _) => name
  | _                      => t.describe routine

def Result.fill (r : Result) (t : Tree) (s : Flow.Summary) (chart : Bool) : Result :=
  { r with
    stats?           := some s.stats
    unreachableLines := s.unreachable.map (lineOf t)
    chart?           := if chart then some (s.chart t) else none }

def analyzeRoutine (path : Path) (t : Tree) (routine : Syntax.Id) (s : Settings) (chart : Bool) :
    Result :=
  let r : Result := { path := shownPath path, name := nameOf t routine, line := lineOf t routine }
  match Flow.flowAround t s routine with
  | .ok summary => r.fill t summary chart
  | .error e    => { r with error? := some e.message }

namespace Result

-- The lines that tell a result to a reader.
def lines (paint : Look → String → String) (r : Result) : List String :=
  let head := paint .cyan s!"{r.path}:{r.line}" ++ " " ++ paint .bold r.name
  match r.stats?, r.error? with
  | _,          some e => [head ++ " " ++ paint .red e]
  | some stats, none   =>
    [head ++ s!"  nodes {stats.nodes}  edges {stats.edges}"
      ++ s!"  conditions {stats.conditions}  complexity "
      ++ paint .yellow (toString stats.cyclomaticComplexity)]
    ++ r.unreachableLines.map (fun line =>
      "  - " ++ paint .yellow "warning:" ++ s!" unreachable statement at line {line}")
    ++ r.chart?.elim [] fun chart => [chart, ""]
  | none,       none   => []

def statsData (s : Flow.Stats) : Data :=
  .record [
    ("nodes", .number s.nodes),
    ("edges", .number s.edges),
    ("basic_blocks", .number s.basicBlocks),
    ("conditions", .number s.conditions),
    ("cyclomatic_complexity", .number s.cyclomaticComplexity),
    ("unreachable", .number s.unreachable)]

-- A result for other programs. What there is not is left out.
def data (r : Result) : Data :=
  let field? (name : String) (d? : Option Data) : List (String × Data) :=
    (d?.map (name, ·)).toList
  .record (
    [("path", .text r.path), ("name", .text r.name), ("line", .number r.line)]
      ++ field? "stats" (r.stats?.map statsData)
      ++ [("unreachable_lines", .list (r.unreachableLines.map .number))]
      ++ field? "error" (r.error?.map .text)
      ++ field? "mermaid" (r.chart?.map .text))

end Result

structure Report where
  routines      : List Result
  totalRoutines : Nat
  failures      : Nat

namespace Report

def ofResults (results : List Result) : Report where
  routines      := results
  totalRoutines := results.length
  failures      := (results.filter (·.error?.isSome)).length

variable (r : Report)

def data : Data :=
  .record [
    ("routines", .list (r.routines.map Result.data)),
    ("total_routines", .number r.totalRoutines),
    ("failures", .number r.failures)]

-- The line that closes a report, after an empty one.
def closingLines : List String :=
  ["", s!"{r.totalRoutines} routines analyzed, {r.failures} failed"]

end Report
end RoutineFlow.Command
