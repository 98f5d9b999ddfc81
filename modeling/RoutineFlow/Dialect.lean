import RoutineFlow.Path

namespace RoutineFlow

inductive Dialect
  | javaScript
  | typeScript
  | tsx
deriving DecidableEq

namespace Dialect

-- The dialect that the extension of a file selects.
def ofPath? (p : Path) : Option Dialect := do
  match ← p.extension? with
  | "js" | "jsx" | "mjs" | "cjs" => some javaScript
  | "ts" | "mts" | "cts"         => some typeScript
  | "tsx"                        => some tsx
  | _                            => none

def name : Dialect → String
  | javaScript => "javascript"
  | typeScript => "typescript"
  | tsx        => "tsx"

-- The name in data files, where the words of a name are set apart by dashes.
def tag : Dialect → String
  | javaScript => "java-script"
  | typeScript => "type-script"
  | tsx        => "tsx"

end Dialect
end RoutineFlow
