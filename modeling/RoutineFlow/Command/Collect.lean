import RoutineFlow.Command.Entry
import RoutineFlow.Dialect

namespace RoutineFlow.Command

-- What a walk comes by: how deep below its start, the path, and whether a directory is there.
structure Stop where
  depth       : Nat
  path        : Path
  isDirectory : Bool

namespace Entry

mutual

-- A walk over all that is at a path and below it. A directory comes before what it holds.
def walk (depth : Nat) (path : Path) : Entry → List Stop
  | file _            => [⟨depth, path, false⟩]
  | directory entries => ⟨depth, path, true⟩ :: walkAmong (depth + 1) path entries

def walkAmong (depth : Nat) (path : Path) : List (String × Entry) → List Stop
  | []                   => []
  | (name, e) :: entries => walk depth (path.join name) e ++ walkAmong depth path entries

end
end Entry

-- Collects the files in a dialect along a walk, where what is deeper than a skipped directory is
-- passed by.
def gather (ignored : Path → Bool) (skipped? : Option Nat) : List Stop → List Path
  | []            => []
  | stop :: stops =>
    if skipped?.any (· < stop.depth) then
      gather ignored skipped? stops
    else if ignored stop.path then
      gather ignored (if stop.isDirectory then some stop.depth else none) stops
    else if !stop.isDirectory && (Dialect.ofPath? stop.path).isSome then
      stop.path :: gather ignored none stops
    else
      gather ignored none stops

namespace Files

variable (fs : Files) (ignored : Path → Bool)

-- The files that an argument gives: itself, or those below it.
def given (path : Path) : List Path :=
  match fs.find? path with
  | some (.directory entries) => gather ignored none (Entry.walk 0 path (.directory entries))
  | some (.file _)            =>
    if (Dialect.ofPath? path).isSome && !ignored path then [path] else []
  | none                      => []

-- The files to analyze, in the order of their paths.
def discover (paths : List Path) : List Path :=
  (paths.flatMap (fs.given ignored)).mergeSort Path.le

end Files
end RoutineFlow.Command
