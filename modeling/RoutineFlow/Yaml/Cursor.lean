import RoutineFlow.Yaml.Token

namespace RoutineFlow.Yaml

structure Cursor where
  rest   : List Char
  -- Characters, lines and, within the line, characters before this place.
  index  : Nat := 0
  line   : Nat := 0
  column : Nat := 0

namespace Cursor

-- Goes over some characters of a line.
def skip (n : Nat) (c : Cursor) : Cursor where
  rest   := c.rest.drop n
  index  := c.index + n
  line   := c.line
  column := c.column + n

def takeWhile (p : Char → Bool) (c : Cursor) : List Char × Cursor :=
  let taken := c.rest.takeWhile p
  (taken, c.skip taken.length)

def skipWhile (p : Char → Bool) (c : Cursor) : Cursor :=
  (c.takeWhile p).2

-- Goes over a line break, if there is one. It reads as a line feed unless it separates
-- paragraphs or lines by a character of its own.
def readBreak (c : Cursor) : List Char × Cursor :=
  let next (n : Nat) : Cursor :=
    { rest := c.rest.drop n, index := c.index + n, line := c.line + 1, column := 0 }
  match c.rest with
  | '\r' :: '\n' :: _ => (['\n'], next 2)
  | d :: _            =>
    if d = '\u2028' || d = '\u2029' then ([d], next 1)
    else if isBreak d then (['\n'], next 1)
    else ([], c)
  | []                => ([], c)

def skipBreak (c : Cursor) : Cursor :=
  c.readBreak.2

def atBreak (c : Cursor) : Bool :=
  c.rest.head?.any isBreak

-- Whether the line or the text ends here.
def atLineEnd (c : Cursor) : Bool :=
  c.rest.head?.all isBreak

def skipBlanks (c : Cursor) : Cursor :=
  c.skipWhile isBlank

def skipComment (c : Cursor) : Cursor :=
  if c.rest.head? = some '#' then c.skipWhile (!isBreak ·) else c

-- Whether a line begins here with three dashes or dots that stand alone.
def atDocumentMark (c : Cursor) : Bool :=
  c.column = 0 &&
    match c.rest with
    | '-' :: '-' :: '-' :: r => endsWord r
    | '.' :: '.' :: '.' :: r => endsWord r
    | _                      => false

-- Goes over the rest of a line that must hold nothing but a comment.
def finishLine? (c : Cursor) : Option Cursor :=
  let c := c.skipBlanks.skipComment
  if c.atLineEnd then some c.skipBreak else none

end Cursor
end RoutineFlow.Yaml
