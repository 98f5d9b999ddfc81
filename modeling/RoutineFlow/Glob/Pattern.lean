-- Patterns for paths, and how they are written. A star stands for any characters, slashes included;
-- two stars that are a whole step of a path stand for any number of steps.

namespace RoutineFlow.Glob

inductive Token
  | literal      (c : Char)
  -- Any one byte.
  | any
  -- Any bytes.
  | star
  -- One byte of those that the ranges spell, or of all others.
  | oneOf        (negated : Bool) (ranges : List (Char × Char))
  -- Two stars before a slash, after one, and between two.
  | leadingSteps
  | trailingSteps
  | innerSteps
  -- One of several patterns.
  | alternates   (options : List (List Token))

abbrev Pattern := List Token

-- What is wrong with the text of a pattern.
inductive Flaw
  | unclosedClass
  | invalidRange  (first last : Char)
  | unopenedGroup
  | unclosedGroup
  | danglingEscape
deriving DecidableEq

namespace Flaw

def message : Flaw → String
  | unclosedClass           => "unclosed character class; missing ']'"
  | invalidRange first last =>
    "invalid range; '" ++ first.toString ++ "' > '" ++ last.toString ++ "'"
  | unopenedGroup           =>
    "unopened alternate group; missing '\x7b' (maybe escape '\x7d' with '[\x7d]'?)"
  | unclosedGroup           =>
    "unclosed alternate group; missing '\x7d' (maybe escape '\x7b' with '[\x7b]'?)"
  | danglingEscape          => "dangling '\\'"

end Flaw

-- A class as far as it is read.
structure Class where
  ranges : List (Char × Char) := []
  -- A dash was read that waits for the end of its range.
  open?  : Bool := false

namespace Class

-- Ends the range at hand, or begins one of a single character.
def add (k : Class) (c : Char) : Except Flaw Class :=
  match k.open?, k.ranges.reverse with
  | true, (first, _) :: earlier =>
    if c < first then .error (.invalidRange first c)
    else .ok { ranges := (((first, c) :: earlier).reverse), open? := false }
  | _, _                        => .ok { ranges := k.ranges ++ [(c, c)], open? := false }

-- The ranges of a whole class: a dash at its end stands for itself.
def close (k : Class) : List (Char × Char) :=
  if k.open? then k.ranges ++ [('-', '-')] else k.ranges

-- Reads a class after its opening bracket. A bracket or a dash that comes first stands for
-- itself.
def read (first : Bool) (k : Class) : List Char → Except Flaw (List (Char × Char) × List Char)
  | []     => .error .unclosedClass
  | c :: r => do
    if c = ']' && !first then
      return (k.close, r)
    else if c = '-' && !first && !k.open? then
      read false { k with open? := true } r
    else
      read false (← k.add c) r

end Class

-- A pattern as far as it is read.
structure Reading where
  -- What was read since the last open brace or the last comma in it.
  tokens : Pattern := []
  -- For each open brace, innermost first: what lies before it, and its options so far.
  groups : List (Pattern × List Pattern) := []
  -- The character read last.
  last?  : Option Char := none

namespace Reading

def push (s : Reading) (token : Token) : Reading :=
  { s with tokens := s.tokens ++ [token] }

-- Reads what follows two stars. They stand for steps only as a whole step of the path.
def stars (s : Reading) (before? : Option Char) (r : List Char) : Reading × List Char :=
  let s := { s with last? := some '*' }
  let apart := (s.push .star).push .star
  if s.tokens.isEmpty then
    match r with
    | []       => (s.push .leadingSteps, [])
    | '/' :: r => ({ s with last? := some '/' }.push .leadingSteps, r)
    | _        => (apart, r)
  else if before? ≠ some '/'
      && (s.groups.isEmpty || (before? ≠ some ',' && before? ≠ some '\x7b')) then
    (apart, r)
  else
    -- The slash before the stars belongs to them.
    let replace (s : Reading) (token : Token) : Reading :=
      match s.tokens.getLast? with
      | some .leadingSteps | some .trailingSteps => s
      | _ => { s with tokens := s.tokens.dropLast ++ [token] }
    match r with
    | []       => (replace s .trailingSteps, [])
    | '/' :: r => (replace { s with last? := some '/' } .innerSteps, r)
    | c :: _   =>
      if (c = ',' || c = '\x7d') && !s.groups.isEmpty then (replace s .trailingSteps, r)
      else (apart, r)

-- Reads the token that begins with `c`.
def next (s : Reading) (c : Char) (r : List Char) : Except Flaw (Reading × List Char) :=
  let before? := s.last?
  let s := { s with last? := some c }
  match c with
  | '?'    => .ok (s.push .any, r)
  | '*'    =>
    match r with
    | '*' :: r => .ok (s.stars before? r)
    | _        => .ok (s.push .star, r)
  | '['    => do
    let negated := r.head? = some '!' || r.head? = some '^'
    let (ranges, r) ← Class.read true {} (if negated then r.tail else r)
    return ({ s with last? := some ']' }.push (.oneOf negated ranges), r)
  | '\x7b' => .ok ({ s with tokens := [], groups := (s.tokens, []) :: s.groups }, r)
  | '\x7d' =>
    match s.groups with
    | []                         => .error .unopenedGroup
    | (before, options) :: outer =>
      let group := Token.alternates (options ++ [s.tokens])
      .ok ({ s with tokens := before ++ [group], groups := outer }, r)
  | ','    =>
    match s.groups with
    | []                         => .ok (s.push (.literal ','), r)
    | (before, options) :: outer =>
      .ok ({ s with tokens := [], groups := (before, options ++ [s.tokens]) :: outer }, r)
  | '\\'   =>
    match r with
    | []     => .error .danglingEscape
    | d :: r => .ok ({ s with last? := some d }.push (.literal d), r)
  | c      => .ok (s.push (.literal c), r)

-- Reads on to the end. Every token takes at least one character, so the length is fuel enough.
def finish (fuel : Nat) (s : Reading) (r : List Char) : Except Flaw Pattern :=
  match fuel, r with
  | fuel + 1, c :: r => do
    let (s, r) ← s.next c r
    finish fuel s r
  | _, _             => if s.groups.isEmpty then .ok s.tokens else .error .unclosedGroup

end Reading

-- The pattern that a text writes.
def Pattern.ofText (text : String) : Except Flaw Pattern :=
  Reading.finish text.length {} text.toList

end RoutineFlow.Glob
