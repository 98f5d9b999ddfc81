import RoutineFlow.Lowering.Program
import RoutineFlow.Path

namespace RoutineFlow.Command

-- Why the command gives up.
inductive Failure
  | invalidConfig  (path : Path)
  | unknownKey     (key : String)
  | unknownPolicy  (text : String)
  | notANumber     (text : String)
  | invalidPattern (reason : String)
  | unreadable     (path : Path)
deriving DecidableEq

def Failure.message : Failure → String
  | invalidConfig path    => "Invalid config " ++ path.text
  | unknownKey key        => "unknown config key \x60" ++ key ++ "\x60"
  | unknownPolicy text    =>
    "unknown unreachable policy \x60" ++ text ++ "\x60 (expected error or skip)"
  | notANumber text       => "max_depth expects a number, got \x60" ++ text ++ "\x60"
  | invalidPattern reason => reason
  | unreadable path       => "Failed to read " ++ path.text

-- What a call leaves behind.
structure Outcome where
  exitCode : Nat
  output   : String := ""
  -- The files that are passed over, each with its syntax error. They are told on standard error, in
  -- a log in which other modules write, too.
  skipped  : List (Path × Lowering.SyntaxError) := []
  failure? : Option Failure := none
deriving DecidableEq

end RoutineFlow.Command
