import RoutineFlow.Command.Plain
import RoutineFlow.Command.Run
import RoutineFlow.Command.Snapshot

-- The program. The files that it may see are handed over on standard input, line by line.

open RoutineFlow.Command

-- The lines up to the end of the input.
partial def readLines (input : IO.FS.Stream) : IO (List String) := do
  let line ← input.getLine
  if line.isEmpty then
    return []
  let text := String.ofList (line.toList.takeWhile (· ≠ '\n'))
  return text :: (← readLines input)

-- What a call says on standard error.
def complaints (outcome : Outcome) : List String :=
  outcome.skipped.map (fun (path, e) => "WARN skipping file " ++ path.text ++ ": " ++ e.message)
    ++ if outcome.exitCode = usageCode then ["error: the arguments are not understood"]
      else (outcome.failure?.map fun e => "Error: " ++ e.message).toList

def main (args : List String) : IO UInt32 := do
  match Snapshot.Scene.ofLines? (← readLines (← IO.getStdin)) with
  | none       =>
    IO.eprint "Error: standard input describes no files\n"
    return 1
  | some scene =>
    let outcome := run (.plain scene.parse) scene.files args
    IO.print outcome.output
    IO.eprint (unlines (complaints outcome))
    return outcome.exitCode.toUInt32
