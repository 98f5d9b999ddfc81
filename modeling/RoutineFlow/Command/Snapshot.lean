import RoutineFlow.Command.Entry
import RoutineFlow.Concrete.Node
import RoutineFlow.Dialect

-- File systems written as lines of text, for callers that hand over what the command may see. A
-- line is one record, and tabs stand between its fields:
--
-- * `work`, a path: the directory in which the command is called, if it is not the root;
-- * `dir`, a path: a directory;
-- * `file`, a path: a file, and what follows up to the next path is about it;
-- * `text`, a text: what the file holds, if that is text;
-- * `node`, a parent, a kind, flags, a field, two offsets: one node of its concrete syntax.
--
-- All paths are from the root. The nodes of a file come in preorder. A parent is the place of a
-- node in this list, and the root has none. A field without a name is empty.

namespace RoutineFlow.Command.Snapshot

inductive Record
  | working   (path : Path)
  | directory (path : Path)
  | file      (path : Path)
  | text      (s : String)
  | node      (parent? : Option Nat) (row : Concrete.Row)

-- Cuts at tabs.
def fields (cs : List Char) : List (List Char) :=
  cs.foldr
    (fun c parts => if c = '\t' then [] :: parts else (c :: parts.headD []) :: parts.tail)
    [[]]

-- A tab, a line feed, a carriage return or a backslash in a field is written by two characters.
def unescape? : List Char → Option (List Char)
  | []                => some []
  | '\\' :: 't' :: r  => (unescape? r).map ('\t' :: ·)
  | '\\' :: 'n' :: r  => (unescape? r).map ('\n' :: ·)
  | '\\' :: 'r' :: r  => (unescape? r).map ('\r' :: ·)
  | '\\' :: '\\' :: r => (unescape? r).map ('\\' :: ·)
  | '\\' :: _         => none
  | c :: r            => (unescape? r).map (c :: ·)

def word? (cs : List Char) : Option String :=
  (unescape? cs).map String.ofList

def number? (cs : List Char) : Option Nat :=
  (String.ofList cs).toNat?

-- A number, or nothing at all.
def optionalNumber? : List Char → Option (Option Nat)
  | [] => some none
  | cs => (number? cs).map some

-- The flags are letters: named, error, missing, and an error here or below.
def row? (kind flags field start stop : List Char) : Option Concrete.Row := do
  return {
    kind      := ← word? kind
    named     := flags.contains 'n'
    isError   := flags.contains 'e'
    isMissing := flags.contains 'm'
    hasError  := flags.contains 'h'
    field?    := ← if field.isEmpty then some none else (word? field).map some
    startByte := ← number? start
    endByte   := ← number? stop }

def Record.ofLine? (line : String) : Option Record := do
  match fields line.toList with
  | ['w', 'o', 'r', 'k'] :: [path] => return working ⟨← word? path⟩
  | ['d', 'i', 'r'] :: [path]      => return directory ⟨← word? path⟩
  | ['f', 'i', 'l', 'e'] :: [path] => return file ⟨← word? path⟩
  | ['t', 'e', 'x', 't'] :: [s]    => return text (← word? s)
  | ['n', 'o', 'd', 'e'] :: [parent, kind, flags, field, start, stop] =>
    return node (← optionalNumber? parent) (← row? kind flags field start stop)
  | _                              => none

-- What is known of the file above.
structure Content where
  text? : Option String := none
  rows  : List (Option Nat × Concrete.Row) := []

-- What lines give: a file system, and the concrete syntax of the texts in it.
structure Scene where
  working : Path := ⟨""⟩
  entries : List (Path × Entry) := []
  trees   : List (Path × String × Concrete.Node) := []

def Scene.addFile (scene : Scene) (path : Path) (c : Content) : Scene :=
  let tree? := do return (path, ← c.text?, ← Concrete.Node.ofRows? c.rows)
  { scene with
    entries := (path, .file c.text?) :: scene.entries
    trees   := tree?.toList ++ scene.trees }

-- What records describe, and what the first of them say about a file still to come.
def scene : List Record → Content × Scene
  | []           => ({}, {})
  | r :: records =>
    let (content, rest) := scene records
    match r with
    | .working path     => ({}, { rest with working := path })
    | .directory path   => ({}, { rest with entries := (path, .directory []) :: rest.entries })
    | .file path        => ({}, rest.addFile path content)
    | .text s           => ({ content with text? := some s }, rest)
    | .node parent? row => ({ content with rows := (parent?, row) :: content.rows }, rest)

def Scene.ofLines? (lines : List String) : Option Scene :=
  return (scene (← lines.mapM Record.ofLine?)).2

def Scene.files (scene : Scene) : Files where
  root    := .ofList scene.entries
  working := scene.working.names

-- A text of which no syntax is known counts as an error.
def Scene.parse (scene : Scene) (dialect : Dialect) (text : String) : Concrete.Node :=
  let known? := scene.trees.find? fun (path, s, _) =>
    Dialect.ofPath? path = some dialect && s = text
  known?.elim (.mk { kind := "ERROR", isError := true, hasError := true } []) (·.2.2)

end RoutineFlow.Command.Snapshot
