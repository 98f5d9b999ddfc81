import RoutineFlow.Yaml.Scalar

namespace RoutineFlow.Yaml

-- The octet written by a percent sign and two digits.
def octet? : List Char → Option UInt8
  | '%' :: d :: e :: _ => return .ofNat (← hexNumber? [d, e])
  | _                  => none

-- How many octets a character takes that begins with this one.
def octetCount? (first : UInt8) : Option Nat :=
  if first < 0x80 then some 1
  else if first &&& 0xE0 = 0xC0 then some 2
  else if first &&& 0xF0 = 0xE0 then some 3
  else if first &&& 0xF8 = 0xF0 then some 4
  else none

-- A character written octet by octet, and how many characters spell it.
def percentChar? (r : List Char) : Option (Char × Nat) := do
  let count ← octetCount? (← octet? r)
  let octets ← (List.range count).mapM fun i => octet? (r.drop (3 * i))
  let text ← String.fromUTF8? ⟨octets.toArray⟩
  match text.toList with
  | [c] => return (c, 3 * count)
  | _   => none

-- Reads the characters of a tag.
def tagChars (delimited : Bool) (fuel : Nat) (text : List Char) (c : Cursor) :
    Option (List Char × Cursor) :=
  match fuel, c.rest with
  | fuel + 1, d :: _ =>
    if d = '%' then do
      let (e, n) ← percentChar? c.rest
      tagChars delimited fuel (text ++ [e]) (c.skip n)
    else if isTagChar delimited d then
      tagChars delimited fuel (text ++ [d]) (c.skip 1)
    else
      some (text, c)
  | _, _ => some (text, c)

-- Reads a tag, or the rest of one, which must not be empty.
def tagText? (delimited : Bool) (c : Cursor) : Option (List Char × Cursor) := do
  let (text, c) ← tagChars delimited c.rest.length [] c
  guard (!text.isEmpty)
  return (text, c)

-- Reads the handle of a tag: an exclamation mark, or a name between two of them, or one followed
-- by a name that belongs to the tag itself.
def handle? (c : Cursor) : Option (List Char × Cursor) := do
  guard (c.rest.head? = some '!')
  let (word, c) := (c.skip 1).takeWhile isWord
  if c.rest.head? = some '!' then
    return ('!' :: word ++ ['!'], c.skip 1)
  return ('!' :: word, c)

-- Whether a handle is closed by an exclamation mark of its own.
def isClosed (handle : List Char) : Bool :=
  handle.length > 1 && handle.getLast? = some '!'

-- Reads a tag from its first exclamation mark.
def tag? (flow : Bool) (c : Cursor) : Option (Token × Cursor) := do
  let (token, c) ←
    if c.rest[1]? = some '<' then do
      let (text, c) ← tagText? true (c.skip 2)
      guard (c.rest.head? = some '>')
      pure (Token.tag "" (.ofList text), c.skip 1)
    else do
      let (handle, c) ← handle? c
      if isClosed handle then
        let (text, c) ← tagText? false c
        pure (Token.tag (.ofList handle) (.ofList text), c)
      else
        let (text, c) ← tagChars false c.rest.length handle.tail c
        pure (if text.isEmpty then Token.tag "" "!" else Token.tag "!" (.ofList text), c)
  guard ((flow && c.rest.head? = some ',') || endsWord c.rest)
  return (token, c)

-- Reads the name of an anchor or an alias after its first character.
def anchorName? (c : Cursor) : Option (String × Cursor) := do
  let (name, c) := (c.skip 1).takeWhile isWord
  guard (!name.isEmpty && (endsWord c.rest || c.rest.head?.any ("?:,]\x7d%@\x60".contains ·)))
  return (.ofList name, c)

-- Reads a number of a version.
def versionNumber? (c : Cursor) : Option (Nat × Cursor) := do
  let (digits, c) := c.takeWhile Char.isDigit
  guard (!digits.isEmpty && digits.length ≤ 9)
  return (← (String.ofList digits).toNat?, c)

-- Reads a directive, with the line it stands on, from its percent sign.
def directive? (c : Cursor) : Option (Token × Cursor) := do
  let (name, c) := (c.skip 1).takeWhile isWord
  guard (endsWord c.rest)
  let c := c.skipBlanks
  let (token, c) ←
    match String.ofList name with
    | "YAML" => do
      let (major, c) ← versionNumber? c
      guard (c.rest.head? = some '.')
      let (minor, c) ← versionNumber? (c.skip 1)
      pure (Token.version major minor, c)
    | "TAG" => do
      let (handle, c) ← handle? c
      guard (handle = ['!'] || isClosed handle)
      guard (c.rest.head?.any isBlank)
      let (beginning, c) ← tagText? true c.skipBlanks
      guard (endsWord c.rest)
      pure (Token.tagHandle (.ofList handle) (.ofList beginning), c)
    | _ => none
  return (token, ← c.finishLine?)

end RoutineFlow.Yaml
