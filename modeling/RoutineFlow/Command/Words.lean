import RoutineFlow.Command.Arguments
import RoutineFlow.Settings.Basic
import RoutineFlow.Text.Number

namespace RoutineFlow.Command

-- Options without a value.
inductive Flag
  | json
  | mermaid
  | quiet
deriving DecidableEq

-- Options with exactly one value.
inductive Single
  | config
  | function
  | line
  | unreachable
deriving DecidableEq

-- Options with any number of values, which may be given again and again.
inductive Multiple
  | ignore
  | set
deriving DecidableEq

inductive Opt
  | flag     (f : Flag)
  | single   (s : Single)
  | multiple (m : Multiple)

namespace Opt

def ofName? : String → Option Opt
  | "json"        => some (flag .json)
  | "mermaid"     => some (flag .mermaid)
  | "quiet"       => some (flag .quiet)
  | "config"      => some (single .config)
  | "function"    => some (single .function)
  | "line"        => some (single .line)
  | "unreachable" => some (single .unreachable)
  | "ignore"      => some (multiple .ignore)
  | "set"         => some (multiple .set)
  | _             => none

end Opt

-- The words of a call as far as they are read.
structure Words where
  flags        : List Flag := []
  config?      : Option Path := none
  function?    : Option String := none
  line?        : Option Nat := none
  unreachable? : Option Policy := none
  ignore       : List String := []
  overrides    : List String := []
  paths        : List Path := []

namespace Words

-- The arguments, with what is not given at its default.
def arguments (w : Words) : Arguments :=
  let default : Arguments := {}
  { config       := w.config?.getD default.config
    json         := w.flags.contains .json
    mermaid      := w.flags.contains .mermaid
    quiet        := w.flags.contains .quiet
    paths        := if w.paths.isEmpty then default.paths else w.paths
    function?    := w.function?
    line?        := w.line?
    unreachable? := w.unreachable?.map Policy.label
    ignore       := w.ignore
    overrides    := w.overrides }

-- The number of a line. A minus sign is allowed before zero.
def lineNumber? (s : String) : Option Nat := do
  let n ← match s.toList with
    | '-' :: cs => do
      guard ((← Text.digits? cs) = 0)
      pure 0
    | _         => Text.unsigned? s
  guard (n ≤ 0xFFFFFFFF)
  return n

def path? (s : String) : Option Path :=
  if s.isEmpty then none else some ⟨s⟩

-- Adds a flag, which may be given once.
def setFlag? (w : Words) (f : Flag) : Option Words :=
  if w.flags.contains f then none else some { w with flags := w.flags ++ [f] }

-- Adds an option with one value, which may be given once.
def setSingle? (w : Words) (s : Single) (value : String) : Option Words :=
  match s with
  | .config      => do
    guard w.config?.isNone
    return { w with config? := some (← path? value) }
  | .function    => do
    guard w.function?.isNone
    return { w with function? := some value }
  | .line        => do
    guard w.line?.isNone
    return { w with line? := some (← lineNumber? value) }
  | .unreachable => do
    guard w.unreachable?.isNone
    return { w with unreachable? := some (← Policy.ofLabel? value) }

def addMultiple (w : Words) (m : Multiple) (value : String) : Words :=
  match m with
  | .ignore => { w with ignore := w.ignore ++ [value] }
  | .set    => { w with overrides := w.overrides ++ [value] }

def addPath? (w : Words) (s : String) : Option Words := do
  return { w with paths := w.paths ++ [← path? s] }

-- The option whose values come next.
inductive Awaiting
  | nothing
  | one  (s : Single)
  | many (m : Multiple)

-- Takes over an option, with the value that is written after an equals sign. Without one, values
-- are awaited.
def option? (w : Words) (name : String) (value? : Option String) : Option (Words × Awaiting) := do
  match ← Opt.ofName? name, value? with
  | .flag f,     none       => return (← w.setFlag? f, .nothing)
  | .flag _,     some _     => none
  | .single s,   none       => return (w, .one s)
  | .single s,   some value => return (← w.setSingle? s value, .nothing)
  | .multiple m, none       => return (w, .many m)
  | .multiple m, some value => return (w.addMultiple m value, .nothing)

-- Reads words one after the other. An option with one value must get it at once; what begins with
-- a dash is never a value. After two dashes all is paths.
def read (w : Words) (awaiting : Awaiting) : List String → Option Words
  | []            => if awaiting matches .one _ then none else some w
  | word :: words =>
    match word.toList with
    | ['-', '-']       => if awaiting matches .one _ then none else words.foldlM addPath? w
    | '-' :: '-' :: cs =>
      if awaiting matches .one _ then
        none
      else do
        let name := cs.takeWhile (· ≠ '=')
        let value? := (cs.dropWhile (· ≠ '=')).tail?.map String.ofList
        let (w, awaiting) ← w.option? (.ofList name) value?
        read w awaiting words
    | '-' :: _ :: _    => none
    | _                =>
      match awaiting with
      | .nothing => do read (← w.addPath? word) .nothing words
      | .one s   => do read (← w.setSingle? s word) .nothing words
      | .many m  => read (w.addMultiple m word) awaiting words

-- The arguments that words give, if they are well formed.
def read? (words : List String) : Option Arguments :=
  return (← read {} .nothing words).arguments

end Words
end RoutineFlow.Command
