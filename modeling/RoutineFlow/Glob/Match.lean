import RoutineFlow.Glob.Pattern

-- What a pattern matches. A token takes some bytes from the front of a text; it is given by what
-- may be left of each text after it.

namespace RoutineFlow.Glob

abbrev Bytes := List UInt8

def bytesOf (c : Char) : Bytes :=
  c.toString.toUTF8.toList

-- All ends of a text, itself and nothing included.
def ends : Bytes → List Bytes
  | []     => [[]]
  | b :: r => (b :: r) :: ends r

-- What follows a given text at the front.
def after? : Bytes → Bytes → Option Bytes
  | [],     s      => some s
  | _ :: _, []     => none
  | a :: r, b :: s => if a = b then after? r s else none

def slash : UInt8 := 0x2F

-- What follows each slash.
def afterSlashes (s : Bytes) : List Bytes :=
  (ends s).filterMap (after? [slash])

-- The ranges of bytes that a range of characters spells: only its inner ends make a range, and
-- other bytes of a longer character stand for themselves.
def byteRanges (first last : Char) : List (UInt8 × UInt8) :=
  let alone (b : UInt8) := (b, b)
  let a := bytesOf first
  let b := bytesOf last
  if first = last then
    a.map alone
  else
    a.dropLast.map alone ++ [(a.getLastD 0, b.headD 0)] ++ b.tail.map alone

def Class.has (ranges : List (Char × Char)) (b : UInt8) : Bool :=
  ranges.any fun (first, last) => (byteRanges first last).any fun (lo, hi) => lo ≤ b && b ≤ hi

mutual

-- Whether a token stands for nothing at all.
def Token.isVoid : Token → Bool
  | .alternates options => allVoid options
  | _                   => false

def isVoid : List Token → Bool
  | []               => true
  | token :: pattern => token.isVoid && isVoid pattern

def allVoid : List (List Token) → Bool
  | []                 => true
  | pattern :: options => isVoid pattern && allVoid options

end

mutual

-- What may be left of a text after a token.
def Token.rests : Token → Bytes → List Bytes
  | .literal c, s            => (after? (bytesOf c) s).toList
  | .any, s                  => s.tail?.toList
  | .star, s                 => ends s
  | .oneOf negated ranges, s =>
    match s with
    | []     => []
    | b :: r => if Class.has ranges b = negated then [] else [r]
  | .leadingSteps, s         => s :: afterSlashes s
  | .trailingSteps, s        => (after? [slash] s).elim [] ends
  | .innerSteps, s           => (after? [slash] s).elim [] fun r => r :: afterSlashes r
  -- An option that stands for nothing does not count, unless there is no other.
  | .alternates options, s   => if allVoid options then [s] else optionRests options s

def rests : List Token → Bytes → List Bytes
  | [], s               => [s]
  | token :: pattern, s => restsOfAll pattern (token.rests s).eraseDups

def restsOfAll : List Token → List Bytes → List Bytes
  | [], ss               => ss
  | token :: pattern, ss => restsOfAll pattern (ss.flatMap token.rests).eraseDups

def optionRests : List (List Token) → Bytes → List Bytes
  | [], _                 => []
  | pattern :: options, s =>
    (if isVoid pattern then [] else rests pattern s) ++ optionRests options s

end

-- Whether a pattern matches the whole of a path. Two stars alone match every path.
def Pattern.accepts (pattern : Pattern) (path : String) : Bool :=
  match pattern with
  | [.leadingSteps] => true
  | _               => (rests pattern path.toUTF8.toList).contains []

end RoutineFlow.Glob
