import RoutineFlow.Yaml.Cursor

-- The five ways to write a scalar. Each reader starts at the first character of the scalar and
-- answers its text and the place after it, or nothing if the scalar is not well formed.

namespace RoutineFlow.Yaml

-- White space inside a scalar: blanks of the line at hand, and the line breaks.
structure Gap where
  blanks : List Char := []
  breaks : List Char := []

namespace Gap

-- What a gap reads as: its blanks within a line, a space for a single line break, and the further
-- breaks for several.
def fold (g : Gap) : List Char :=
  match g.breaks with
  | []           => g.blanks
  | ['\n']       => [' ']
  | '\n' :: rest => rest
  | breaks       => breaks

-- Reads a gap. Blanks after a line break are dropped; a tab among them is refused left of
-- `tabsFrom`.
def read (tabsFrom : Nat) (fuel : Nat) (g : Gap) (c : Cursor) : Option (Gap × Cursor) :=
  match fuel, c.rest with
  | fuel + 1, d :: _ =>
    if isBlank d then
      if g.breaks.isEmpty then
        read tabsFrom fuel { g with blanks := g.blanks ++ [d] } (c.skip 1)
      else if d = '\t' && c.column < tabsFrom then
        none
      else
        read tabsFrom fuel g (c.skip 1)
    else if isBreak d then
      let (b, c) := c.readBreak
      read tabsFrom fuel { blanks := [], breaks := g.breaks ++ b } c
    else
      some (g, c)
  | _, _ => some (g, c)

end Gap

def isFlowMark (c : Char) : Bool :=
  c = ',' || c = '[' || c = ']' || c = '\x7b' || c = '\x7d'

-- The characters up to the next blank or to a mark that ends a plain scalar. Inside brackets a
-- colon must not touch a mark.
def plainWord? (flow : Bool) : List Char → Option (List Char)
  | []     => some []
  | c :: r =>
    if isBlank c || isBreak c then
      some []
    else if flow && c = ':' && r.head?.any (fun d => isFlowMark d || d = '?') then
      none
    else if (c = ':' && endsWord r) || (flow && isFlowMark c) then
      some []
    else
      (plainWord? flow r).map (c :: ·)

-- Whether a plain scalar ran over a line break before it ended.
abbrev CrossedLine := Bool

-- Reads on after `gap`; lines left of `indent` do not belong to the scalar.
def plainFrom (flow : Bool) (indent : Nat) (fuel : Nat) (text : List Char) (gap : Gap)
    (c : Cursor) : Option (List Char × CrossedLine × Cursor) :=
  match fuel with
  | 0        => none
  | fuel + 1 =>
    if c.atDocumentMark || c.rest.head? = some '#' then
      some (text, !gap.breaks.isEmpty, c)
    else do
      let word ← plainWord? flow c.rest
      let (text, gap) := if word.isEmpty then (text, gap) else (text ++ gap.fold ++ word, {})
      let c := c.skip word.length
      if !c.rest.head?.any (fun d => isBlank d || isBreak d) then
        return (text, !gap.breaks.isEmpty, c)
      let (gap, c) ← Gap.read indent c.rest.length gap c
      if !flow && c.column < indent then
        return (text, !gap.breaks.isEmpty, c)
      plainFrom flow indent fuel text gap c

def plain (flow : Bool) (indent : Nat) (c : Cursor) : Option (List Char × CrossedLine × Cursor) :=
  plainFrom flow indent (c.rest.length + 1) [] {} c

def hexDigit? (c : Char) : Option Nat :=
  if '0' ≤ c && c ≤ '9' then some (c.toNat - '0'.toNat)
  else if 'a' ≤ c && c ≤ 'f' then some (c.toNat - 'a'.toNat + 10)
  else if 'A' ≤ c && c ≤ 'F' then some (c.toNat - 'A'.toNat + 10)
  else none

-- The number that a list of hexadecimal digits stands for.
def hexNumber? (digits : List Char) : Option Nat :=
  digits.foldlM (fun n d => return 16 * n + (← hexDigit? d)) 0

-- The character with a number, if there is one.
def char? (n : Nat) : Option Char :=
  if n < 0xD800 || (0xDFFF < n && n < 0x110000) then some (.ofNat n) else none

-- The character written by a backslash and what follows it, and how many characters follow.
def escape? : List Char → Option (Char × Nat)
  | []      => none
  | c :: r  =>
    let coded (width : Nat) : Option (Char × Nat) := do
      let digits := r.take width
      guard (digits.length = width)
      return (← char? (← hexNumber? digits), width + 1)
    match c with
    | '0'    => some ('\x00', 1)
    | 'a'    => some ('\x07', 1)
    | 'b'    => some ('\x08', 1)
    | 't'    => some ('\t', 1)
    | '\t'   => some ('\t', 1)
    | 'n'    => some ('\n', 1)
    | 'v'    => some ('\x0b', 1)
    | 'f'    => some ('\x0c', 1)
    | 'r'    => some ('\r', 1)
    | 'e'    => some ('\x1b', 1)
    | ' '    => some (' ', 1)
    | '\x22' => some ('\x22', 1)
    | '/'    => some ('/', 1)
    | '\\'   => some ('\\', 1)
    | 'N'    => some ('\u0085', 1)
    | '_'    => some ('\u00a0', 1)
    | 'L'    => some ('\u2028', 1)
    | 'P'    => some ('\u2029', 1)
    | 'x'    => coded 2
    | 'u'    => coded 4
    | 'U'    => coded 8
    | _      => none

-- How a run of characters without white space ends inside quotes.
inductive QuoteStop
  | quote
  | gap
  -- A backslash at the end of its line.
  | joined

-- The characters up to the next white space or the closing quote.
def quotedWord? (single : Bool) (fuel : Nat) (text : List Char) (c : Cursor) :
    Option (List Char × QuoteStop × Cursor) :=
  match fuel, c.rest with
  | 0, _ | _, [] => some (text, .gap, c)
  | fuel + 1, d :: r =>
    if isBlank d || isBreak d then
      some (text, .gap, c)
    else if single then
      if d = '\x27' then
        if r.head? = some '\x27' then quotedWord? single fuel (text ++ ['\x27']) (c.skip 2)
        else some (text, .quote, c.skip 1)
      else
        quotedWord? single fuel (text ++ [d]) (c.skip 1)
    else if d = '\x22' then
      some (text, .quote, c.skip 1)
    else if d = '\\' then
      if r.head?.any isBreak then
        some (text, .joined, (c.skip 1).skipBreak)
      else do
        let (e, n) ← escape? r
        quotedWord? single fuel (text ++ [e]) (c.skip (n + 1))
    else
      quotedWord? single fuel (text ++ [d]) (c.skip 1)

-- Reads on inside quotes. No document may begin or end there, and the text must go on.
def quotedFrom (single : Bool) (fuel : Nat) (text : List Char) (c : Cursor) :
    Option (List Char × Cursor) :=
  match fuel with
  | 0        => none
  | fuel + 1 => do
    guard (!c.atDocumentMark && !c.rest.isEmpty)
    let (text, stop, c) ← quotedWord? single c.rest.length text c
    match stop with
    | .quote  => return (text, c)
    | .gap    =>
      let (gap, c) ← Gap.read 0 c.rest.length {} c
      quotedFrom single fuel (text ++ gap.fold) c
    | .joined =>
      -- The break that the backslash takes away counts as the first one.
      let (gap, c) ← Gap.read 0 c.rest.length { breaks := ['\n'] } c
      quotedFrom single fuel (text ++ gap.breaks.tail) c

-- Reads a quoted scalar from its opening quote.
def quoted (single : Bool) (c : Cursor) : Option (List Char × Cursor) :=
  quotedFrom single (c.rest.length + 1) [] (c.skip 1)

-- What becomes of the line breaks at the end of a block scalar.
inductive Chomping
  | strip
  | clip
  | keep
deriving DecidableEq

def chomping? : Char → Option Chomping
  | '-' => some .strip
  | '+' => some .keep
  | _   => none

-- A digit other than zero.
def increment? (c : Char) : Option Nat :=
  if '1' ≤ c && c ≤ '9' then some (c.toNat - '0'.toNat) else none

-- The marks after the first character of a block scalar: how to chomp, and how far to indent.
def blockHeader? (c : Cursor) : Option (Chomping × Option Nat × Cursor) := do
  guard (!c.rest.head?.any (· = '0'))
  match c.rest with
  | d :: e :: _ =>
    match chomping? d, increment? d with
    | some chomp, _ =>
      guard (e ≠ '0')
      match increment? e with
      | some n => return (chomp, some n, c.skip 2)
      | none   => return (chomp, none, c.skip 1)
    | none, some n =>
      match chomping? e with
      | some chomp => return (chomp, some n, c.skip 2)
      | none       => return (.clip, some n, c.skip 1)
    | none, none   => return (.clip, none, c)
  | [d] =>
    match chomping? d, increment? d with
    | some chomp, _  => return (chomp, none, c.skip 1)
    | none, some n   => return (.clip, some n, c.skip 1)
    | none, none     => return (.clip, none, c)
  | []  => return (.clip, none, c)

-- Goes over the spaces before a line, up to the indentation if it is known, and over empty lines.
-- Answers the line breaks and the deepest column seen.
def blockBreaks (indent? : Option Nat) (fuel : Nat) (breaks : List Char) (deepest : Nat)
    (c : Cursor) : Option (List Char × Nat × Cursor) :=
  match fuel with
  | 0        => some (breaks, deepest, c)
  | fuel + 1 =>
    let spaces := (c.rest.takeWhile (· = ' ')).length
    let c := c.skip (indent?.elim spaces fun indent => min spaces (indent - c.column))
    let deepest := max deepest c.column
    if indent?.all (c.column < ·) && c.rest.head? = some '\t' then
      none
    else if c.atBreak then
      let (b, c) := c.readBreak
      blockBreaks indent? fuel (breaks ++ b) deepest c
    else
      some (breaks, deepest, c)

-- Reads the lines of a block scalar. `lead` is the break after the line before, and `breaks` those
-- of the empty lines since; a folded scalar joins two lines that do not begin with a blank.
def blockLines (folded : Bool) (chomp : Chomping) (indent : Nat) (fuel : Nat) (text : List Char)
    (lead breaks : List Char) (blankBefore : Bool) (c : Cursor) : Option (List Char × Cursor) :=
  match fuel with
  | 0        => none
  | fuel + 1 =>
    if c.column = indent && !c.rest.isEmpty then do
      let blank := c.rest.head?.any isBlank
      let joint :=
        if folded && lead.head? = some '\n' && !blankBefore && !blank then
          if breaks.isEmpty then [' '] else []
        else
          lead
      let (line, c) := c.takeWhile (!isBreak ·)
      let (lead, c) := c.readBreak
      let text := text ++ joint ++ breaks ++ line
      let (breaks, _, c) ← blockBreaks (some indent) (c.rest.length + 1) [] 0 c
      blockLines folded chomp indent fuel text lead breaks blank c
    else
      let text := if chomp ≠ .strip then text ++ lead else text
      some (if chomp = .keep then text ++ breaks else text, c)

-- Reads a block scalar from its first character; `parentIndent?` is the column of the collection
-- that holds it. Without a mark the first line tells the indentation.
def blockScalar (folded : Bool) (parentIndent? : Option Nat) (c : Cursor) :
    Option (List Char × Cursor) := do
  let (chomp, increment?, c) ← blockHeader? (c.skip 1)
  let c ← c.finishLine?
  let indent? := increment?.map (parentIndent?.getD 0 + ·)
  let (breaks, deepest, c) ← blockBreaks indent? (c.rest.length + 1) [] 0 c
  let indent := indent?.getD (max deepest (max 1 (parentIndent?.elim 0 (· + 1))))
  blockLines folded chomp indent (c.rest.length + 1) [] [] breaks false c

end RoutineFlow.Yaml
