import RoutineFlow.Command.Library
import RoutineFlow.Command.Words
import RoutineFlow.Glob.Match
import RoutineFlow.Settings.OfYaml

namespace RoutineFlow.Command

-- The exit code of a call whose words are not understood.
def usageCode : Nat := 2

-- A library of this project's own, which paints nothing. The grammar is still to be given.
def Library.plain (parse : Dialect → String → Concrete.Node) : Library where
  arguments words    := (Words.read? words).elim (.error { exitCode := usageCode }) .ok
  settings?          := Settings.ofYaml?
  Glob               := Glob.Pattern
  glob text          :=
    (Glob.Pattern.ofText text).mapError fun flaw =>
      "error parsing glob '" ++ text ++ "': " ++ flaw.message
  globs patterns     := .ok fun path => patterns.any (·.accepts path.text)
  parse
  json               := Data.json
  paint _ text       := text

end RoutineFlow.Command
