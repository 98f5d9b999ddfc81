import RoutineFlow.Yaml.Tag

-- From text to tokens. Columns tell where block collections begin and end; a scalar turns out to be
-- a key only when the colon after it is found, and the tokens before it are put in then.

namespace RoutineFlow.Yaml

-- Where a key may have begun that needs no question mark.
structure KeyStart where
  -- How many tokens lie before it.
  tokens   : Nat
  index    : Nat
  line     : Nat
  column   : Nat
  -- Nothing but a key can stand there.
  required : Bool

structure Layout where
  cursor     : Cursor
  tokens     : Array Token := #[]
  -- The columns of the open block collections, innermost first.
  indents    : List Nat := []
  -- The last possible key of the block level, and of each open bracket.
  blockKey?  : Option KeyStart := none
  flowKeys   : List (Option KeyStart) := []
  -- Whether a key may begin at the cursor.
  keyAllowed : Bool := true

namespace Layout

variable (l : Layout)

-- Whether a bracket is open. Inside brackets columns mean nothing.
def inFlow : Bool :=
  !l.flowKeys.isEmpty

def emit (token : Token) : Layout :=
  { l with tokens := l.tokens.push token }

def skip (n : Nat) : Layout :=
  { l with cursor := l.cursor.skip n }

def allowKey (allowed : Bool) : Layout :=
  { l with keyAllowed := allowed }

def key? : Option KeyStart :=
  l.flowKeys.headD l.blockKey?

def setKey (key? : Option KeyStart) : Layout :=
  match l.flowKeys with
  | []        => { l with blockKey? := key? }
  | _ :: keys => { l with flowKeys := key? :: keys }

-- Gives up the possible key at hand.
def dropKey? : Option Layout :=
  if l.key?.any (·.required) then none else some (l.setKey none)

-- Notes that a key may begin here.
def noteKey? : Option Layout :=
  if l.keyAllowed then do
    let l ← l.dropKey?
    return l.setKey (some {
      tokens   := l.tokens.size
      index    := l.cursor.index
      line     := l.cursor.line
      column   := l.cursor.column
      required := !l.inFlow && l.indents.head? = some l.cursor.column })
  else
    some l

-- A key without a question mark ends on its line, within 1024 characters.
def expired (key : KeyStart) : Bool :=
  key.line < l.cursor.line || key.index + 1024 < l.cursor.index

def expireKeys? : Option Layout :=
  let expire : Option KeyStart → Option (Option KeyStart)
    | none     => some none
    | some key =>
      if !l.expired key then some (some key) else if key.required then none else some none
  return { l with blockKey? := ← expire l.blockKey?, flowKeys := ← l.flowKeys.mapM expire }

-- Opens a block collection at a column, if it lies right of the one at hand. The token goes
-- before the tokens from `place` on.
def openBlock (column place : Nat) (token : Token) : Layout :=
  if !l.inFlow && l.indents.head?.all (· < column) then
    { l with
      indents := column :: l.indents
      tokens  := l.tokens.insertIdxIfInBounds place token }
  else
    l

-- Closes the block collections that lie right of a column.
def closeBlocks (column : Nat) : Layout :=
  if l.inFlow then
    l
  else
    let closed := l.indents.takeWhile (column < ·)
    { l with
      indents := l.indents.drop closed.length
      tokens  := l.tokens ++ (closed.map fun _ => Token.blockEnd).toArray }

def closeAllBlocks : Layout :=
  if l.inFlow then
    l
  else
    { l with indents := [], tokens := l.tokens ++ (l.indents.map fun _ => Token.blockEnd).toArray }

-- Goes over blanks, comments and line breaks. Tabs do not indent.
def toNextToken (fuel : Nat) (l : Layout) : Layout :=
  match fuel with
  | 0        => l
  | fuel + 1 =>
    let c := if l.cursor.index = 0 && l.cursor.rest.head? = some '\ufeff' then l.cursor.skip 1
      else l.cursor
    let c := c.skipWhile fun d => d = ' ' || (d = '\t' && (l.inFlow || !l.keyAllowed))
    let c := c.skipComment
    if c.atBreak then
      toNextToken fuel { l with cursor := c.skipBreak, keyAllowed := l.keyAllowed || !l.inFlow }
    else
      { l with cursor := c }

-- Reads a token that may begin a key.
def node? (read : Cursor → Option (Token × Cursor)) : Option Layout := do
  let l ← l.noteKey?
  let (token, cursor) ← read l.cursor
  return { l with cursor, tokens := l.tokens.push token, keyAllowed := false }

def documentMark? (token : Token) : Option Layout := do
  let l ← l.closeAllBlocks.dropKey?
  return (l.skip 3 |>.allowKey false).emit token

def flowStart? (token : Token) : Option Layout := do
  let l ← l.noteKey?
  return ({ l with flowKeys := none :: l.flowKeys }.allowKey true |>.skip 1).emit token

def flowEnd? (token : Token) : Option Layout := do
  let l ← l.dropKey?
  return ({ l with flowKeys := l.flowKeys.tail }.allowKey false |>.skip 1).emit token

def flowEntry? : Option Layout := do
  let l ← l.dropKey?
  return (l.allowKey true |>.skip 1).emit .flowEntry

def blockEntry? : Option Layout := do
  guard (l.inFlow || l.keyAllowed)
  let l ← (l.openBlock l.cursor.column l.tokens.size .blockSequence).dropKey?
  return (l.allowKey true |>.skip 1).emit .blockEntry

def explicitKey? : Option Layout := do
  guard (l.inFlow || l.keyAllowed)
  let l ← (l.openBlock l.cursor.column l.tokens.size .blockMapping).dropKey?
  return (l.allowKey !l.inFlow |>.skip 1).emit .key

def value? : Option Layout := do
  let l ← match l.key? with
    | some key =>
      let l := { l with tokens := l.tokens.insertIdxIfInBounds key.tokens .key }
      pure ((l.openBlock key.column key.tokens .blockMapping).setKey none |>.allowKey false)
    | none     => do
      guard (l.inFlow || l.keyAllowed)
      pure (l.openBlock l.cursor.column l.tokens.size .blockMapping |>.allowKey !l.inFlow)
  return (l.skip 1).emit .value

def blockScalar? (folded : Bool) : Option Layout := do
  let l ← l.dropKey?
  let (text, cursor) ← Yaml.blockScalar folded l.indents.head? l.cursor
  let token := Token.scalar (if folded then .folded else .literal) (.ofList text)
  return { l with cursor, tokens := l.tokens.push token, keyAllowed := true }

def quoted? (single : Bool) : Option Layout :=
  l.node? fun c => do
    let (text, c) ← Yaml.quoted single c
    return (.scalar (if single then .singleQuoted else .doubleQuoted) (.ofList text), c)

def plain? : Option Layout := do
  let l ← l.noteKey?
  let (text, crossed, cursor) ← Yaml.plain l.inFlow (l.indents.head?.elim 0 (· + 1)) l.cursor
  return { l with
    cursor
    tokens     := l.tokens.push (.scalar .plain (.ofList text))
    keyAllowed := crossed }

-- Characters that cannot begin a plain scalar, unless the next character makes them part of it.
def isIndicator (c : Char) : Bool :=
  "-?:,[]\x7b\x7d#&*!|>'\"%@\x60".contains c

-- Reads the token at the cursor, which is neither at the end nor at white space that separates
-- tokens.
def token? : Option Layout :=
  let c := l.cursor
  let alone := endsWord c.rest.tail
  match c.rest with
  | []     => none
  | d :: r =>
    if c.column = 0 && d = '%' then do
      let l ← l.closeAllBlocks.dropKey?
      let (token, cursor) ← directive? l.cursor
      return { l with cursor, tokens := l.tokens.push token, keyAllowed := false }
    else if c.atDocumentMark then
      l.documentMark? (if d = '-' then .documentStart else .documentEnd)
    else if d = '[' then l.flowStart? .flowSequence
    else if d = '\x7b' then l.flowStart? .flowMapping
    else if d = ']' then l.flowEnd? .flowSequenceEnd
    else if d = '\x7d' then l.flowEnd? .flowMappingEnd
    else if d = ',' then l.flowEntry?
    else if d = '-' && alone then l.blockEntry?
    else if d = '?' && (l.inFlow || alone) then l.explicitKey?
    else if d = ':' && (l.inFlow || alone) then l.value?
    else if d = '*' then l.node? fun c => (anchorName? c).map fun (name, c) => (.alias name, c)
    else if d = '&' then l.node? fun c => (anchorName? c).map fun (name, c) => (.anchor name, c)
    else if d = '!' then l.node? (tag? l.inFlow)
    else if d = '|' && !l.inFlow then l.blockScalar? false
    else if d = '>' && !l.inFlow then l.blockScalar? true
    else if d = '\x27' then l.quoted? true
    else if d = '\x22' then l.quoted? false
    else if !(isBlank d || isBreak d || isIndicator d)
        || (d = '-' && !r.head?.any isBlank)
        || (!l.inFlow && (d = '?' || d = ':') && !alone) then l.plain?
    else none

-- Reads tokens up to the end of the text.
def finish? (fuel : Nat) (l : Layout) : Option (Array Token) :=
  match fuel with
  | 0        => none
  | fuel + 1 => do
    let l ← (toNextToken (l.cursor.rest.length + 1) l).expireKeys?
    let l := l.closeBlocks l.cursor.column
    if l.cursor.rest.isEmpty then
      return (← l.closeAllBlocks.dropKey?).tokens
    finish? fuel (← l.token?)

end Layout

-- The tokens of a text, if it is well formed so far. Every token but the last takes at least one
-- character.
def Token.ofText? (text : String) : Option (List Token) := do
  let chars := text.toList
  guard (chars.all isPrintable)
  return (← Layout.finish? (chars.length + 1) { cursor := { rest := chars } }).toList

end RoutineFlow.Yaml
