import RoutineFlow.Path

namespace RoutineFlow.Command

inductive Entry
  -- A file, with its text if it holds one.
  | file      (text? : Option String)
  | directory (entries : List (String × Entry))

namespace Entry

instance : Inhabited Entry := ⟨directory []⟩

def isDirectory : Entry → Bool
  | directory _ => true
  | file _      => false

-- Puts an entry into its place, with the directories on the way. A directory that is there already
-- stays.
def insert (leaf : Entry) : List String → Entry → Entry
  | [],            directory entries => if leaf.isDirectory then directory entries else leaf
  | [],            file _            => leaf
  | name :: names, e                 =>
    let entries := match e with
      | directory entries => entries
      | file _            => []
    match entries.lookup name with
    | some child =>
      let child := insert leaf names child
      directory (entries.map fun (n, e) => if n = name then (n, child) else (n, e))
    | none       => directory (entries ++ [(name, insert leaf names (directory []))])

-- The tree of entries that are given by their paths.
def ofList (entries : List (Path × Entry)) : Entry :=
  entries.foldl (fun root (path, e) => insert e path.names root) (directory [])

-- Goes down names. The directories passed are kept, nearest first.
def descend (above : List Entry) (here : Entry) : List String → Option (List Entry × Entry)
  | []            => some (above, here)
  | name :: names =>
    match here with
    | file _            => none
    | directory entries => do descend (here :: above) (← entries.lookup name) names

-- Follows the segments of a path, where `above` are the directories passed, nearest first. The root
-- is above itself.
def follow (above : List Entry) (here : Entry) : List (List Char) → Option Entry
  | []              => some here
  | segment :: rest =>
    match here with
    | file _            => none
    | directory entries =>
      if segment = [] || segment = ['.'] then
        follow above here rest
      else if segment = ['.', '.'] then
        match above with
        | []              => follow [] here rest
        | parent :: above => follow above parent rest
      else do
        let child ← entries.lookup (.ofList segment)
        follow (here :: above) child rest

end Entry

-- A file system: all that is below the root, and the names of the directories from the root down to
-- the one in which the command is called.
structure Files where
  root    : Entry
  working : List String := []

namespace Files

variable (fs : Files)

-- What a path leads to. It starts from the root or from the working directory.
def find? (path : Path) : Option Entry :=
  if path.text.isEmpty then
    none
  else do
    let (above, here) ← Entry.descend [] fs.root (if path.isAbsolute then [] else fs.working)
    Entry.follow above here (Path.segments path.text.toList)

-- The text of the file to which a path leads.
def text? (path : Path) : Option String :=
  match fs.find? path with
  | some (.file text?) => text?
  | _                  => none

end Files
end RoutineFlow.Command
