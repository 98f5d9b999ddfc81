import RoutineFlow.Command.Collect
import RoutineFlow.Command.Overrides
import RoutineFlow.Command.Report

-- The whole command, as a function of the libraries it uses, the files and the words of a call.

namespace RoutineFlow.Command

variable (lib : Library) (fs : Files)

-- The settings of the file at a path; a file that does not exist changes nothing.
def settingsAt (path : Path) : Except Failure Settings :=
  if (fs.find? path).isNone then
    .ok {}
  else
    match (fs.text? path).bind (Settings.ofText? lib.settings?) with
    | some s => .ok s
    | none   => .error (.invalidConfig path)

-- Which paths are ignored.
def ignoredBy (patterns : List String) : Except Failure (Path → Bool) :=
  if patterns.isEmpty then
    .ok fun _ => false
  else
    ((do lib.globs (← patterns.mapM lib.glob)) : Except String _).mapError .invalidPattern

-- What comes of going through files.
structure Survey where
  results  : List Result := []
  skipped  : List (Path × Lowering.SyntaxError) := []
  -- The first file that cannot be read ends it.
  failure? : Option Failure := none

-- The results for the routines of a tree that are selected.
def resultsFor (a : Arguments) (s : Settings) (path : Path) (t : Syntax.Tree) : List Result :=
  (select t a.function? a.line?).map (analyzeRoutine path t · s a.mermaid)

def survey (a : Arguments) (s : Settings) : List Path → Survey
  | []            => {}
  | path :: paths =>
    match Dialect.ofPath? path, fs.text? path with
    | none,         _         => survey a s paths
    | some _,       none      => { failure? := some (.unreadable path) }
    | some dialect, some text =>
      let rest := survey a s paths
      match Lowering.lower (.ofString text) (lib.parse dialect text) with
      | .ok t    => { rest with results := resultsFor a s path t ++ rest.results }
      | .error e => { rest with skipped := (path, e) :: rest.skipped }

-- Lines of output, each with its end.
def unlines (lines : List String) : String :=
  .join (lines.map (· ++ "\n"))

-- What is said about results as they come in.
def progress (a : Arguments) (results : List Result) : String :=
  if a.json || a.quiet then "" else unlines (results.flatMap (·.lines lib.paint))

-- What is said at the end.
def conclusion (a : Arguments) (r : Report) : String :=
  unlines (if a.json then [lib.json r.data] else r.closingLines)

-- A call whose arguments are understood.
def call (a : Arguments) : Outcome :=
  let prepared : Except Failure (Settings × (Path → Bool)) := do
    let s ← effective (← settingsAt lib fs a.config) a
    return (s, ← ignoredBy lib a.ignore)
  match prepared with
  | .error e         => { exitCode := 1, failure? := some e }
  | .ok (s, ignored) =>
    let found := survey lib fs a s (fs.discover ignored a.paths)
    let report := Report.ofResults found.results
    let said := progress lib a found.results
    match found.failure? with
    | some e => { exitCode := 1, output := said, skipped := found.skipped, failure? := some e }
    | none   => {
      exitCode := if 0 < report.failures then 1 else 0
      output   := said ++ conclusion lib a report
      skipped  := found.skipped }

-- A call with any words.
def run (args : List String) : Outcome :=
  match lib.arguments args with
  | .ok a          => call lib fs a
  | .error outcome => outcome

end RoutineFlow.Command
