import RoutineFlow.Command.Arguments
import RoutineFlow.Command.Outcome
import RoutineFlow.Data
import RoutineFlow.Dialect
import RoutineFlow.Settings.Basic

namespace RoutineFlow.Command

-- How a part of a line is set off.
inductive Look
  | cyan
  | bold
  | red
  | yellow
deriving DecidableEq

-- What the command leaves to others. Nothing is assumed of it here.
structure Library where
  -- Reads the arguments, or says how a call ends without them.
  arguments : List String → Except Outcome Arguments
  -- Reads settings, where a text is not blank.
  settings? : String → Option Settings
  -- A pattern for paths, or what is wrong with it.
  Glob      : Type
  glob      : String → Except String Glob
  -- Which paths one of some patterns matches.
  globs     : List Glob → Except String (Path → Bool)
  -- The concrete syntax of a text.
  parse     : Dialect → String → Concrete.Node
  -- The JSON text of data, in lines.
  json      : Data → String
  paint     : Look → String → String

end RoutineFlow.Command
