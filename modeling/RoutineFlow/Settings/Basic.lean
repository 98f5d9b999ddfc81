import RoutineFlow.Text.Blank

namespace RoutineFlow

-- What is done with code that no open flow reaches.
inductive Policy
  -- Give up the analysis.
  | reject
  -- Leave the code out of the graph and list it.
  | skip
deriving DecidableEq

namespace Policy

def label : Policy → String
  | reject => "error"
  | skip   => "skip"

def ofLabel? : String → Option Policy
  | "error" => some reject
  | "skip"  => some skip
  | _       => none

end Policy

structure Settings where
  unreachable : Policy := .reject
  -- How deep visits may nest. A chain of binary operators counts once.
  maxDepth    : Nat := 256
deriving DecidableEq

namespace Settings

-- The greatest limit that can be set.
def maxDepthBound : Nat := 0xFFFFFFFFFFFFFFFF

-- The settings that a text gives to a reader. White space alone sets nothing.
def ofText? (read? : String → Option Settings) (text : String) : Option Settings :=
  if (Text.trim text).isEmpty then some {} else read? text

end Settings
end RoutineFlow
