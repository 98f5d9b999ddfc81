import RoutineFlow.Command.Arguments
import RoutineFlow.Command.Outcome
import RoutineFlow.Settings.Basic
import RoutineFlow.Text.Lower
import RoutineFlow.Text.Number

namespace RoutineFlow.Command

-- A policy in any case, with white space around it.
def policyOf (text : String) : Except Failure Policy :=
  let text := Text.lower (Text.trim text)
  match Policy.ofLabel? text with
  | some policy => .ok policy
  | none        => .error (.unknownPolicy text)

def limitOf (text : String) : Except Failure Nat :=
  match Text.unsigned? text with
  | some n => if n ≤ Settings.maxDepthBound then .ok n else .error (.notANumber text)
  | none   => .error (.notANumber text)

-- The two sides of the first equals sign, without the white space around them.
def keyAndValue (text : String) : String × String :=
  let trimmed (cs : List Char) := Text.trim (.ofList cs)
  (trimmed (text.toList.takeWhile (· ≠ '=')), trimmed ((text.toList.dropWhile (· ≠ '=')).drop 1))

-- Settings after one override. An override without a key says nothing.
def override (s : Settings) (text : String) : Except Failure Settings :=
  match keyAndValue text with
  | ("", _)                => .ok s
  | ("unreachable", value) => return { s with unreachable := ← policyOf value }
  | ("max_depth", value)   => return { s with maxDepth := ← limitOf value }
  | (key, _)               => .error (.unknownKey key)

-- The settings in force: those of the file, changed by the overrides in order, and by the policy
-- that has an option of its own.
def effective (s : Settings) (a : Arguments) : Except Failure Settings := do
  let s ← a.overrides.foldlM override s
  match a.unreachable? with
  | none      => return s
  | some text => return { s with unreachable := ← policyOf text }

end RoutineFlow.Command
