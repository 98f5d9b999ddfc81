import RoutineFlow.Command.Plain
import RoutineFlow.Command.Run
import RoutineFlow.Proofs.Discovery
import RoutineFlow.Proofs.Rows
import RoutineFlow.Proofs.Selection

-- What a call reports. Each selected routine of each file without a syntax error has one entry, in
-- the order of the files, and the entries are the same however they are shown.

namespace RoutineFlow

namespace Data

-- The value of a field.
def field? (name : String) : Data → Option Data
  | record fields => fields.lookup name
  | _             => none

end Data

namespace Command

open Syntax (Tree)

-- A routine that a call is about, with its file and the tree that it is in.
structure Subject where
  path    : Path
  tree    : Tree
  routine : Syntax.Id

namespace Subject

-- The analysis of the routine alone.
def outcome (s : Settings) (x : Subject) : Except Flow.Error Flow.Summary :=
  Flow.flowAround x.tree s x.routine

def fails (s : Settings) (x : Subject) : Bool :=
  x.outcome s matches .error _

-- The lines on which nodes begin.
def linesOf (x : Subject) (ids : List Syntax.Id) : List Nat :=
  ids.map fun id => (x.tree.span? id).elim 0 (·.startLine)

-- How a subject is called: its path with slashes only, its name, and the line on which it begins.
structure Called (x : Subject) (path name : String) (line : Nat) : Prop where
  path : path.toList = x.path.text.toList.map fun c => if c = '\\' then '/' else c
  name : ∃ body, x.tree.kind? x.routine = some (.routine name (some body))
  line : ∃ span, x.tree.span? x.routine = some span ∧ span.startLine = line

-- The lines that tell of a subject: figures, a warning for each node left out, and a chart if there
-- are to be charts, or else an error.
inductive Shows (paint : Look → String → String) (s : Settings) (chart : Bool) (x : Subject) :
    List String → Prop
  | figures {path name : String} {line : Nat} {summary : Flow.Summary} :
    x.Called path name line → x.outcome s = .ok summary → Shows paint s chart x (
      [paint .cyan s!"{path}:{line}" ++ " " ++ paint .bold name
        ++ s!"  nodes {summary.stats.nodes}  edges {summary.stats.edges}"
        ++ s!"  conditions {summary.stats.conditions}  complexity "
        ++ paint .yellow (toString summary.stats.cyclomaticComplexity)]
      ++ (x.linesOf summary.unreachable).map (fun line =>
        "  - " ++ paint .yellow "warning:" ++ s!" unreachable statement at line {line}")
      ++ if chart then [summary.chart x.tree, ""] else [])
  | error {path name : String} {line : Nat} {e : Flow.Error} :
    x.Called path name line → x.outcome s = .error e → Shows paint s chart x
      [paint .cyan s!"{path}:{line}" ++ " " ++ paint .bold name ++ " " ++ paint .red e.message]

-- The record of a subject says how it is called (1). It has figures, the lines of the nodes left
-- out, and a chart if there are to be charts (2), or else an error (3), but never both (4).
structure Records (s : Settings) (chart : Bool) (x : Subject) (d : Data) : Prop where
  called  : ∃ path name line, x.Called path name line ∧                           -- (1)
    d.field? "path" = some (.text path) ∧ d.field? "name" = some (.text name) ∧
    d.field? "line" = some (.number line)
  figures : ∀ summary, x.outcome s = .ok summary →                                -- (2)
    d.field? "stats" = some (.record [
      ("nodes", .number summary.stats.nodes),
      ("edges", .number summary.stats.edges),
      ("basic_blocks", .number summary.stats.basicBlocks),
      ("conditions", .number summary.stats.conditions),
      ("cyclomatic_complexity", .number summary.stats.cyclomaticComplexity),
      ("unreachable", .number summary.stats.unreachable)]) ∧
    d.field? "unreachable_lines" =
      some (.list ((x.linesOf summary.unreachable).map .number)) ∧
    d.field? "mermaid" = if chart then some (.text (summary.chart x.tree)) else none
  error   : ∀ e, x.outcome s = .error e →                                         -- (3)
    d.field? "error" = some (.text e.message) ∧
    d.field? "unreachable_lines" = some (.list []) ∧ d.field? "mermaid" = none
  either  : (d.field? "stats").isSome = !(d.field? "error").isSome                -- (4)

end Subject

-- What lowering makes of the text of a file in a dialect.
def lowered? (lib : Library) (fs : Files) (path : Path) :
    Option (Except Lowering.SyntaxError Tree) := do
  let dialect ← Dialect.ofPath? path
  let text ← fs.text? path
  return Lowering.lower (.ofString text) (lib.parse dialect text)

-- The files without a syntax error, with their trees.
def grown (lib : Library) (fs : Files) (files : List Path) : List (Path × Tree) :=
  files.filterMap fun path =>
    match lowered? lib fs path with
    | some (.ok t) => some (path, t)
    | _            => none

-- The files with a syntax error, with the first of them.
def faulty (lib : Library) (fs : Files) (files : List Path) : List (Path × Lowering.SyntaxError) :=
  files.filterMap fun path =>
    match lowered? lib fs path with
    | some (.error e) => some (path, e)
    | _               => none

-- The selected routines of files with their trees.
def subjects (a : Arguments) (trees : List (Path × Tree)) : List Subject :=
  trees.flatMap fun (path, t) => (select t a.function? a.line?).map (⟨path, t, ·⟩)

-- The settings and the patterns of a call are in order, and each file that it collects is readable.
structure Ready (lib : Library) (fs : Files) (a : Arguments) (s : Settings)
    (ignored : Path → Bool) : Prop where
  configured : (do effective (← settingsAt lib fs a.config) a) = .ok s
  compiled   : ignoredBy lib a.ignore = .ok ignored
  readable   : ∀ path ∈ fs.discover ignored a.paths, (fs.text? path).isSome

-- The line with the numbers of subjects and failures, after an empty one.
def closing (s : Settings) (xs : List Subject) : String :=
  "\n" ++ s!"{xs.length} routines analyzed, {xs.countP (·.fails s)} failed" ++ "\n"

-- How a call about subjects ends: with the code that says whether an analysis fails (1), without
-- giving up (2). It is told by one record for each subject, with their numbers (3), by the numbers
-- alone (4), or by the lines of each subject and the numbers (5).
structure Presents (lib : Library) (s : Settings) (xs : List Subject) (json mermaid quiet : Bool)
    (o : Outcome) : Prop where
  code    : o.exitCode = if 0 < xs.countP (·.fails s) then 1 else 0               -- (1)
  failure : o.failure? = none                                                     -- (2)
  data    : json →                                                                -- (3)
    ∃ report records, o.output = lib.json report ++ "\n" ∧
      report.field? "routines" = some (.list records) ∧
      report.field? "total_routines" = some (.number xs.length) ∧
      report.field? "failures" = some (.number (xs.countP (·.fails s))) ∧
      List.Forall₂ (Subject.Records s mermaid) xs records
  brief   : ¬json → quiet →                                                       -- (4)
    o.output = closing s xs
  full    : ¬json → ¬quiet →                                                      -- (5)
    ∃ blocks, List.Forall₂ (Subject.Shows lib.paint s mermaid) xs blocks ∧
      o.output = unlines blocks.flatten ++ closing s xs

-- The files come in the order of their paths (1), and the selected routines of each in that of
-- their ids (2). Whatever the flags are, the call is about just these routines (3), and passes over
-- the files with a syntax error (4), which make no difference to what is said of the others (5).
structure Reports (lib : Library) (fs : Files) (a : Arguments) (s : Settings)
    (ignored : Path → Bool) : Prop where
  sorted   : (fs.discover ignored a.paths).Pairwise (·.le ·)                      -- (1)
  ordered  : ∀ t, (select t a.function? a.line?).Pairwise (·.index < ·.index)     -- (2)
  presents : ∀ args json mermaid quiet,                                           -- (3)
    lib.arguments args = .ok { a with json, mermaid, quiet } →
    Presents lib s (subjects a (grown lib fs (fs.discover ignored a.paths))) json mermaid quiet
      (run lib fs args)
  skipped  : ∀ args json mermaid quiet,                                           -- (4)
    lib.arguments args = .ok { a with json, mermaid, quiet } →
    (run lib fs args).skipped = faulty lib fs (fs.discover ignored a.paths)
  stable   : ∀ fs', Ready lib fs' a s ignored →                                   -- (5)
    grown lib fs' (fs'.discover ignored a.paths) = grown lib fs (fs.discover ignored a.paths) →
    ∀ args json mermaid quiet, lib.arguments args = .ok { a with json, mermaid, quiet } →
      (run lib fs' args).exitCode = (run lib fs args).exitCode ∧
      (run lib fs' args).output = (run lib fs args).output

variable {lib : Library} {fs : Files} {a : Arguments} {s : Settings} {ignored : Path → Bool}
  {files : List Path} {trees : List (Path × Tree)} {x : Subject} {args : List String}
  {json mermaid quiet chart : Bool} {path name : String} {line : Nat}
  {paint : Look → String → String}

namespace Subject

-- What the command comes to know of a subject.
def result (s : Settings) (chart : Bool) (x : Subject) : Result :=
  analyzeRoutine x.path x.tree x.routine s chart

theorem called_of_mem (h : x ∈ subjects a trees) :
    x.Called (shownPath x.path) (nameOf x.tree x.routine) (lineOf x.tree x.routine) := by
  obtain ⟨⟨path, t⟩, _, h⟩ := List.mem_flatMap.mp h
  obtain ⟨routine, hr, rfl⟩ := List.mem_map.mp h
  have ⟨name, body, hk, _⟩ := isCandidate_of_mem_select hr
  have ⟨span, hs⟩ := Tree.exists_span?_of_kind? hk
  refine ⟨String.toList_ofList, ⟨body, ?_⟩, span, hs, ?_⟩
  · simp only [nameOf, hk]
  · simp only [lineOf, hs, Option.elim_some]

theorem result_of_ok {summary : Flow.Summary} (h : x.outcome s = .ok summary) :
    x.result s chart = {
      path             := shownPath x.path
      name             := nameOf x.tree x.routine
      line             := lineOf x.tree x.routine
      stats?           := some summary.stats
      unreachableLines := x.linesOf summary.unreachable
      chart?           := if chart then some (summary.chart x.tree) else none } := by
  unfold outcome at h
  simp only [result, analyzeRoutine, h]
  rfl

theorem result_of_error {e : Flow.Error} (h : x.outcome s = .error e) :
    x.result s chart = {
      path   := shownPath x.path
      name   := nameOf x.tree x.routine
      line   := lineOf x.tree x.routine
      error? := some e.message } := by
  unfold outcome at h
  simp only [result, analyzeRoutine, h]

theorem isSome_error?_result (s : Settings) (chart : Bool) (x : Subject) :
    (x.result s chart).error?.isSome = x.fails s := by
  unfold fails
  cases ho : x.outcome s
  case ok    => rw [result_of_ok ho]; rfl
  case error => rw [result_of_error ho]; rfl

theorem shows_lines (h : x ∈ subjects a trees) (s : Settings) (chart : Bool) :
    Shows paint s chart x ((x.result s chart).lines paint) := by
  have hc := called_of_mem h
  cases ho : x.outcome s
  case ok    =>
    rw [result_of_ok ho]
    cases chart
    all_goals exact .figures hc ho
  case error =>
    rw [result_of_error ho]
    exact .error hc ho

theorem records_data (h : x ∈ subjects a trees) (s : Settings) (chart : Bool) :
    Records s chart x (x.result s chart).data := by
  have hc := called_of_mem h
  cases ho : x.outcome s
  case ok summary =>
    rw [result_of_ok ho]
    refine ⟨⟨_, _, _, hc, rfl, rfl, rfl⟩, fun _ hs => ?_, fun _ he => ?_, ?_⟩
    · cases ho.symm.trans hs
      cases chart
      all_goals exact ⟨rfl, rfl, rfl⟩
    · cases ho.symm.trans he
    · cases chart
      all_goals rfl
  case error e =>
    rw [result_of_error ho]
    refine ⟨⟨_, _, _, hc, rfl, rfl, rfl⟩, fun _ hs => ?_, fun _ he => ?_, rfl⟩
    · cases ho.symm.trans hs
    · cases ho.symm.trans he
      exact ⟨rfl, rfl, rfl⟩

end Subject

theorem resultsFor_eq (a : Arguments) (s : Settings) (path : Path) (t : Tree) :
    resultsFor a s path t = (subjects a [(path, t)]).map (Subject.result s a.mermaid) := by
  simp [resultsFor, subjects, Subject.result, Function.comp_def]

theorem subjects_cons (a : Arguments) (file : Path × Tree) (trees : List (Path × Tree)) :
    subjects a (file :: trees) = subjects a [file] ++ subjects a trees := by
  simp [subjects]

-- The induction is on the files that are left; none of them ends the survey.
theorem survey_eq (h : ∀ path ∈ files, (fs.text? path).isSome) :
    survey lib fs a s files = {
      results := (subjects a (grown lib fs files)).map (Subject.result s a.mermaid)
      skipped := faulty lib fs files } := by
  induction files
  case nil             => rfl
  case cons path _ ih  =>
    have ⟨hp, h⟩ := List.forall_mem_cons.mp h
    have ⟨text, ht⟩ := Option.isSome_iff_exists.mp hp
    have hl : lowered? lib fs path = (Dialect.ofPath? path).map fun dialect =>
        Lowering.lower (.ofString text) (lib.parse dialect text) := by
      rw [lowered?, ht]
      cases Dialect.ofPath? path <;> rfl
    simp only [survey, grown, faulty, List.filterMap_cons, ht, ih h, hl]
    cases Dialect.ofPath? path
    case none         => rfl
    case some dialect =>
      simp only [Option.map_some]
      cases Lowering.lower (.ofString text) (lib.parse dialect text)
      case ok t    => rw [subjects_cons, List.map_append, ← resultsFor_eq]
      case error e => rfl

-- What a call comes to know.
def results (lib : Library) (fs : Files) (a : Arguments) (s : Settings) (ignored : Path → Bool) :
    List Result :=
  (subjects a (grown lib fs (fs.discover ignored a.paths))).map (Subject.result s a.mermaid)

theorem call_eq (h : Ready lib fs a s ignored) :
    call lib fs a = {
      exitCode := if 0 < (Report.ofResults (results lib fs a s ignored)).failures then 1 else 0
      output   := progress lib a (results lib fs a s ignored)
        ++ conclusion lib a (.ofResults (results lib fs a s ignored))
      skipped  := faulty lib fs (fs.discover ignored a.paths) } := by
  have ⟨s₀, h₀, he⟩ : ∃ s₀, settingsAt lib fs a.config = .ok s₀ ∧ effective s₀ a = .ok s := by
    have hc := h.configured
    cases hs : settingsAt lib fs a.config
    case ok s₀ => rw [hs] at hc; exact ⟨s₀, rfl, hc⟩
    case error => rw [hs] at hc; cases hc
  simp only [call, h₀, he, h.compiled, bind, Except.bind, pure, Except.pure, survey_eq h.readable]
  rfl

theorem totalRoutines_results : (Report.ofResults (results lib fs a s ignored)).totalRoutines =
    (subjects a (grown lib fs (fs.discover ignored a.paths))).length :=
  List.length_map _

theorem failures_results : (Report.ofResults (results lib fs a s ignored)).failures =
    (subjects a (grown lib fs (fs.discover ignored a.paths))).countP (·.fails s) := by
  rw [Report.ofResults, ← List.countP_eq_length_filter, results, List.countP_map]
  exact List.countP_congr fun x _ => by rw [Function.comp, x.isSome_error?_result]

theorem unlines_singleton (line : String) : unlines [line] = line ++ "\n" := by
  simp [unlines]

theorem unlines_closingLines :
    unlines (Report.ofResults (results lib fs a s ignored)).closingLines =
      closing s (subjects a (grown lib fs (fs.discover ignored a.paths))) := by
  simp only [Report.closingLines, totalRoutines_results, failures_results, closing]
  simp [unlines, String.append_assoc]

theorem forall₂_map {β : Type} {R : Subject → β → Prop} {f : Subject → β} {xs : List Subject}
    (h : ∀ x ∈ xs, R x (f x)) : List.Forall₂ R xs (xs.map f) :=
  List.forall₂_map_right_iff.mpr (List.forall₂_same.mpr h)

theorem presents_call (h : Ready lib fs a s ignored) :
    Presents lib s (subjects a (grown lib fs (fs.discover ignored a.paths))) a.json a.mermaid
      a.quiet (call lib fs a) := by
  rw [call_eq h]
  refine ⟨congrArg (if 0 < · then 1 else 0) failures_results, rfl, ?data, ?brief, ?full⟩
  case data  =>
    intro hj
    refine ⟨(Report.ofResults (results lib fs a s ignored)).data, _, ?_, rfl, ?_, ?_, ?_⟩
    · simp [progress, conclusion, hj, unlines_singleton]
    · exact congrArg (some <| Data.number ·) totalRoutines_results
    · exact congrArg (some <| Data.number ·) failures_results
    · rw [Report.ofResults, results, List.map_map]
      exact forall₂_map fun _ hx => Subject.records_data hx s a.mermaid
  case brief =>
    intro hj hq
    simp [progress, conclusion, hj, hq, unlines_closingLines]
  case full  =>
    intro hj hq
    refine ⟨(results lib fs a s ignored).map (·.lines lib.paint), ?_, ?_⟩
    · rw [results, List.map_map]
      exact forall₂_map fun _ hx => Subject.shows_lines hx s a.mermaid
    · simp [progress, conclusion, hj, hq, unlines_closingLines, List.flatMap_def]

-- A call that is told in another way is about the same files.
theorem Ready.with_flags (h : Ready lib fs a s ignored) (json mermaid quiet : Bool) :
    Ready lib fs { a with json, mermaid, quiet } s ignored :=
  ⟨h.configured, h.compiled, h.readable⟩

theorem run_of_arguments (ha : lib.arguments args = .ok a) : run lib fs args = call lib fs a := by
  rw [run, ha]

-- A call reports in the same way whatever its flags are, and files with a syntax error make no
-- difference.
theorem run_reports (h : Ready lib fs a s ignored) : Reports lib fs a s ignored where
  sorted    := Files.pairwise_discover ..
  ordered t := pairwise_select t ..
  presents args json mermaid quiet ha := by
    rw [run_of_arguments ha]
    exact presents_call (h.with_flags json mermaid quiet)
  skipped args json mermaid quiet ha  := by
    rw [run_of_arguments ha, call_eq (h.with_flags json mermaid quiet)]
  stable fs' h' he args json mermaid quiet ha := by
    have hr : results lib fs' { a with json, mermaid, quiet } s ignored =
        results lib fs { a with json, mermaid, quiet } s ignored :=
      congrArg (fun trees => (subjects a trees).map (Subject.result s mermaid)) he
    rw [run_of_arguments ha, run_of_arguments ha, call_eq (h'.with_flags json mermaid quiet),
      call_eq (h.with_flags json mermaid quiet), hr]
    exact ⟨rfl, rfl⟩

-- A file with a routine, one whose routine has dead code, and one with a syntax error.
def threeFiles : Files where
  root := .directory [
    ("f.js", .file (some "function f() \x7b return; \x7d")),
    ("g.js", .file (some "function g() \x7b return; ok; \x7d")),
    ("h.js", .file (some "("))]

-- The concrete syntax of the three texts.
def threeTrees : String → Concrete.Node
  | "function f() \x7b return; \x7d"     =>
    .spanning "program" 0 24 none [
      .spanning "function_declaration" 0 24 none [
        .spanning "identifier" 9 10 (some "name") [],
        .spanning "formal_parameters" 10 12 (some "parameters") [],
        .spanning "statement_block" 13 24 (some "body") [
          .spanning "return_statement" 15 22 none []]]]
  | "function g() \x7b return; ok; \x7d" =>
    .spanning "program" 0 28 none [
      .spanning "function_declaration" 0 28 none [
        .spanning "identifier" 9 10 (some "name") [],
        .spanning "formal_parameters" 10 12 (some "parameters") [],
        .spanning "statement_block" 13 28 (some "body") [
          .spanning "return_statement" 15 22 none [],
          .spanning "expression_statement" 23 26 none [
            .spanning "identifier" 23 25 none []]]]]
  | _                                  =>
    .mk { kind := "program", hasError := true, startByte := 0, endByte := 1 } []

-- The library, with the grammar of these texts.
def threeTexts : Library :=
  .plain fun _ => threeTrees

theorem discover_threeFiles : threeFiles.discover (fun _ => false) [⟨"."⟩] =
    [⟨"./f.js"⟩, ⟨"./g.js"⟩, ⟨"./h.js"⟩] :=
  List.mergeSort_of_pairwise (by decide +kernel)

theorem run_reports_threeFiles :
    Ready threeTexts threeFiles {} {} (fun _ => false) ∧
    Reports threeTexts threeFiles {} {} (fun _ => false) ∧
    threeTexts.arguments ["--quiet"] = .ok { quiet := true } ∧
    run threeTexts threeFiles ["--quiet"] = {
      exitCode := 1
      output   := "\n2 routines analyzed, 1 failed\n"
      skipped  := [(⟨"./h.js"⟩, ⟨1, 1⟩)] } ∧
    run threeTexts threeFiles [] = {
      exitCode := 1
      output   := "./f.js:1 f  nodes 3  edges 2  conditions 0  complexity 1\n"
        ++ "./g.js:1 g no open flow to attach #1 to (statement follows an unconditional jump)\n"
        ++ "\n2 routines analyzed, 1 failed\n"
      skipped  := [(⟨"./h.js"⟩, ⟨1, 1⟩)] } := by
  have h : Ready threeTexts threeFiles {} {} (fun _ => false) :=
    ⟨rfl, rfl, by rw [discover_threeFiles]; decide +kernel⟩
  refine ⟨h, run_reports h, rfl, ?_, ?_⟩
  · rw [run_of_arguments (a := { quiet := true }) rfl, call_eq (h.with_flags false false true),
      results, discover_threeFiles]
    decide +kernel
  · rw [run_of_arguments (a := {}) rfl, call_eq h, results, discover_threeFiles]
    decide +kernel

end Command
end RoutineFlow
