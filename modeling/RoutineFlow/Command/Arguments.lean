import RoutineFlow.Path

namespace RoutineFlow.Command

-- What the command is told. Without a path, all that is below the working directory is analyzed.
structure Arguments where
  config       : Path := ⟨"cfa.yml"⟩
  json         : Bool := false
  mermaid      : Bool := false
  quiet        : Bool := false
  paths        : List Path := [⟨"."⟩]
  function?    : Option String := none
  line?        : Option Nat := none
  unreachable? : Option String := none
  ignore       : List String := []
  overrides    : List String := []
deriving DecidableEq

end RoutineFlow.Command
