namespace RoutineFlow

structure Path where
  text : String
deriving DecidableEq

namespace Path

-- A step of a path. Steps are ordered as they are listed here, and names by their characters.
inductive Component
  | root
  | current
  | parent
  | name (s : String)
deriving DecidableEq

-- Cuts at slashes.
def segments (cs : List Char) : List (List Char) :=
  cs.foldr
    (fun c parts => if c = '/' then [] :: parts else (c :: parts.headD []) :: parts.tail)
    [[]]

-- The step that a segment stands for. Nothing between two slashes, and a dot after the first
-- segment, stand for no step.
def component? (first : Bool) (segment : List Char) : Option Component :=
  match segment with
  | []         => if first then some .root else none
  | ['.']      => if first then some .current else none
  | ['.', '.'] => some .parent
  | s          => some (.name (.ofList s))

-- The steps of a path. A path that begins with a slash begins at the root.
def components (p : Path) : List Component :=
  if p.text.isEmpty then
    []
  else
    match segments p.text.toList with
    | []            => []
    | first :: rest => (component? true first).toList ++ rest.filterMap (component? false)

-- The names among the steps of a path.
def names (p : Path) : List String :=
  p.components.filterMap fun
    | .name s => some s
    | _       => none

def isAbsolute (p : Path) : Bool :=
  p.text.toList.head? = some '/'

-- The last step, if it is a name.
def fileName? (p : Path) : Option String :=
  match p.components.getLast? with
  | some (.name s) => some s
  | _              => none

-- What follows the last dot of the last name, unless the dot comes first.
def extension? (p : Path) : Option String := do
  let name := (← p.fileName?).toList.reverse
  let tail := name.takeWhile (· ≠ '.')
  let stem := (name.dropWhile (· ≠ '.')).drop 1
  guard (!stem.isEmpty)
  return .ofList tail.reverse

def Component.rank : Component → Nat
  | root    => 0
  | current => 1
  | parent  => 2
  | name _  => 3

def Component.lt : Component → Component → Bool
  | name s, name t => s < t
  | a,      b      => a.rank < b.rank

-- Whether one list of steps comes before another or is equal to it.
def componentsLe : List Component → List Component → Bool
  | [], _           => true
  | _ :: _, []      => false
  | a :: as, b :: bs => a.lt b || (a = b && componentsLe as bs)

-- Paths are ordered step by step; two spellings of the same steps are equal in this order.
def le (p q : Path) : Bool :=
  componentsLe p.components q.components

-- A path below a directory.
def join (p : Path) (name : String) : Path where
  text :=
    if p.text.isEmpty || p.text.toList.getLast? = some '/' then p.text ++ name
    else p.text ++ "/" ++ name

end Path
end RoutineFlow
