import RoutineFlow.Yaml.Layout

namespace RoutineFlow.Yaml

structure Scalar where
  text  : String
  style : Style := .plain
  tag?  : Option String := none
deriving DecidableEq

-- Whether a scalar stands for nothing.
def Scalar.isNull (s : Scalar) : Bool :=
  s.style = .plain && ["", "~", "null", "Null", "NULL"].contains s.text

inductive Node
  | scalar   (s : Scalar)
  | sequence (items : List Node)
  | mapping  (entries : List (Node × Node))
  -- Another name of a collection. An alias of a scalar is that scalar.
  | alias    (name : String)

namespace Node

-- A node that is not written.
def blank : Node :=
  .scalar { text := "" }

structure Reading where
  tokens  : List Token
  -- What each anchor so far stands for, the latest first; collections are known by name only.
  anchors : List (String × Option Scalar) := []
  handles : List (String × String) := []

abbrev Reader := StateT Reading Option

namespace Reader

def peek? : Reader (Option Token) :=
  return (← get).tokens.head?

def skip : Reader Unit :=
  modify fun r => { r with tokens := r.tokens.tail }

-- Goes over a token if it comes next.
def accept (token : Token) : Reader Bool := do
  let found := (← peek?) = some token
  if found then skip
  return found

def expect (token : Token) : Reader Unit := do
  guard (← accept token)

-- Whether one of some tokens, or the end, comes next.
def before (tokens : List Token) : Reader Bool := do
  return (← peek?).all tokens.contains

def anchor? : Reader (Option String) := do
  match ← peek? with
  | some (.anchor name) => skip; return some name
  | _                   => return none

-- The full text of a tag whose handle is known.
def tag? : Reader (Option String) := do
  match ← peek? with
  | some (.tag handle rest) =>
    skip
    if handle.isEmpty then
      return some rest
    let beginning ← StateT.lift ((← get).handles.lookup handle)
    return some (beginning ++ rest)
  | _ => return none

-- The anchor and the tag before a node, in either order.
def properties : Reader (Option String × Option String) := do
  let anchor ← anchor?
  let tag ← tag?
  return (← (if anchor.isNone && tag.isSome then anchor? else pure anchor), tag)

def define (anchor? : Option String) (scalar? : Option Scalar) : Reader Unit :=
  match anchor? with
  | some name => modify fun r => { r with anchors := (name, scalar?) :: r.anchors }
  | none      => pure ()

def resolve (name : String) : Reader Node := do
  match ← StateT.lift ((← get).anchors.lookup name) with
  | some s => return .scalar s
  | none   => return .alias name

end Reader

open Reader

mutual

-- Reads a node. Block collections may stand only in block context, and a sequence that is not
-- indented only as an entry of a mapping.
def read (block indentless : Bool) (fuel : Nat) : Reader Node :=
  match fuel with
  | 0        => failure
  | fuel + 1 => do
    if let some (.alias name) ← peek? then
      skip
      return ← resolve name
    let (anchor, tag) ← properties
    match ← peek? with
    | some (.scalar style text) =>
      skip
      let s : Scalar := { text, style, tag? := tag }
      define anchor (some s)
      return .scalar s
    | token =>
      if indentless && token = some .blockEntry then
        define anchor none
        return .sequence (← indentlessItems fuel)
      else if token = some .flowSequence then
        define anchor none
        skip
        return .sequence (← flowItems true fuel)
      else if token = some .flowMapping then
        define anchor none
        skip
        return .mapping (← flowEntries true fuel)
      else if block && token = some .blockSequence then
        define anchor none
        skip
        return .sequence (← blockItems fuel)
      else if block && token = some .blockMapping then
        define anchor none
        skip
        return .mapping (← blockEntries fuel)
      else if anchor.isSome || tag.isSome then
        let s : Scalar := { text := "", tag? := tag }
        define anchor (some s)
        return .scalar s
      else
        failure

-- Reads a node unless one of `ends` comes next.
def readUnless (ends : List Token) (block indentless : Bool) (fuel : Nat) : Reader Node :=
  match fuel with
  | 0        => failure
  | fuel + 1 => do
    if ← before ends then return blank else read block indentless fuel

def blockItems (fuel : Nat) : Reader (List Node) :=
  match fuel with
  | 0        => failure
  | fuel + 1 => do
    if ← accept .blockEnd then
      return []
    expect .blockEntry
    let item ← readUnless [.blockEntry, .blockEnd] true false fuel
    return item :: (← blockItems fuel)

def indentlessItems (fuel : Nat) : Reader (List Node) :=
  match fuel with
  | 0        => failure
  | fuel + 1 => do
    if !(← accept .blockEntry) then
      return []
    let item ← readUnless [.blockEntry, .key, .value, .blockEnd] true false fuel
    return item :: (← indentlessItems fuel)

def blockEntries (fuel : Nat) : Reader (List (Node × Node)) :=
  match fuel with
  | 0        => failure
  | fuel + 1 => do
    if ← accept .blockEnd then
      return []
    expect .key
    let ends : List Token := [.key, .value, .blockEnd]
    let key ← readUnless ends true true fuel
    let value ← if ← accept .value then readUnless ends true true fuel else pure blank
    return (key, value) :: (← blockEntries fuel)

def flowItems (first : Bool) (fuel : Nat) : Reader (List Node) :=
  match fuel with
  | 0        => failure
  | fuel + 1 => do
    if ← accept .flowSequenceEnd then
      return []
    if !first then
      expect .flowEntry
    if ← accept .key then
      let entry ← flowPair fuel
      return .mapping [entry] :: (← flowItems false fuel)
    else if ← accept .flowSequenceEnd then
      return []
    else
      let item ← read false false fuel
      return item :: (← flowItems false fuel)

-- A pair in a sequence, after the question mark. A key that is not written swallows the mark that
-- ends it.
def flowPair (fuel : Nat) : Reader (Node × Node) :=
  match fuel with
  | 0        => failure
  | fuel + 1 => do
    let key ← if ← before [.value, .flowEntry, .flowSequenceEnd]
      then do skip; pure blank
      else read false false fuel
    let value ← if ← accept .value
      then readUnless [.flowEntry, .flowSequenceEnd] false false fuel
      else pure blank
    return (key, value)

def flowEntries (first : Bool) (fuel : Nat) : Reader (List (Node × Node)) :=
  match fuel with
  | 0        => failure
  | fuel + 1 => do
    if ← accept .flowMappingEnd then
      return []
    if !first then
      expect .flowEntry
    if ← accept .key then
      let key ← readUnless [.value, .flowEntry, .flowMappingEnd] false false fuel
      let value ← if ← accept .value
        then readUnless [.flowEntry, .flowMappingEnd] false false fuel
        else pure blank
      return (key, value) :: (← flowEntries false fuel)
    else if ← accept .flowMappingEnd then
      return []
    else
      let key ← read false false fuel
      return (key, blank) :: (← flowEntries false fuel)

end

-- Reads the directives before a document. Only the first two versions of the format are known, and
-- nothing may be said twice.
def directives (versioned : Bool) (fuel : Nat) : Reader Unit :=
  match fuel with
  | 0        => failure
  | fuel + 1 => do
    match ← peek? with
    | some (.version major minor) =>
      guard (!versioned && major = 1 && (minor = 1 || minor = 2))
      skip
      directives true fuel
    | some (.tagHandle handle beginning) =>
      guard (((← get).handles.lookup handle).isNone)
      skip
      modify fun r => { r with handles := (handle, beginning) :: r.handles }
      directives versioned fuel
    | _ => return

-- The handles that need no directive.
def knownHandles : List (String × String) :=
  [("!", "!"), ("!!", "tag:yaml.org,2002:")]

-- Reads one document, from its directives to its end.
def document (fuel : Nat) : Reader Node := do
  let explicit := (← peek?) matches some (.version ..) | some (.tagHandle ..) | some .documentStart
  directives false fuel
  modify fun r =>
    { r with handles := r.handles ++ knownHandles }
  let node ←
    if explicit then
      expect .documentStart
      let bare := (← peek?) matches
        none | some (.version ..) | some (.tagHandle ..) | some .documentStart | some .documentEnd
      if bare then pure blank else read true false fuel
    else
      read true false fuel
  return node

-- Goes over any number of marks that end a document.
def documentEnds (fuel : Nat) : Reader Unit :=
  match fuel with
  | 0        => failure
  | fuel + 1 => do
    if ← accept .documentEnd then documentEnds fuel

-- The only document of a text: `none` inside if there is none at all.
def ofTokens? (tokens : List Token) : Option (Option Node) :=
  if tokens.isEmpty then
    some none
  else do
    let fuel := 4 * tokens.length + 4
    let read : Reader Node := do
      let node ← document fuel
      documentEnds fuel
      return node
    let (node, rest) ← read.run { tokens }
    guard rest.tokens.isEmpty
    return some node

end Node
end RoutineFlow.Yaml
