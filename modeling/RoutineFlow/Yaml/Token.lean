-- The tokens of YAML text. Indentation shows in them as the start and the end of block collections,
-- so that a list of tokens can be read without knowing columns.

namespace RoutineFlow.Yaml

inductive Style
  | plain
  | singleQuoted
  | doubleQuoted
  | literal
  | folded
deriving DecidableEq

inductive Token
  | version      (major minor : Nat)
  -- A handle that stands for the beginning of tags.
  | tagHandle    (handle beginning : String)
  | documentStart
  | documentEnd
  | blockSequence
  | blockMapping
  | blockEnd
  | flowSequence
  | flowSequenceEnd
  | flowMapping
  | flowMappingEnd
  | blockEntry
  | flowEntry
  | key
  | value
  | alias        (name : String)
  | anchor       (name : String)
  | tag          (handle rest : String)
  | scalar       (style : Style) (text : String)
deriving DecidableEq

def isBlank (c : Char) : Bool :=
  c = ' ' || c = '\t'

def isBreak (c : Char) : Bool :=
  c = '\n' || c = '\r' || c = '\u0085' || c = '\u2028' || c = '\u2029'

-- The characters of names.
def isWord (c : Char) : Bool :=
  c.isAlphanum || c = '_' || c = '-'

-- The characters that may stand in a text at all.
def isPrintable (c : Char) : Bool :=
  let n := c.toNat
  n = 0x09 || n = 0x0A || n = 0x0D || (0x20 ≤ n && n ≤ 0x7E) || n = 0x85
    || (0xA0 ≤ n && n ≤ 0xD7FF) || (0xE000 ≤ n && n ≤ 0xFFFD) || 0x10000 ≤ n

-- The characters of tags. A comma and square brackets are among them only where the end of the tag
-- is marked.
def isTagChar (delimited : Bool) (c : Char) : Bool :=
  isWord c || ";/?:@&=+$.!~*'()".contains c || (delimited && ",[]".contains c)

-- Whether the line, or the text, ends here or a blank follows.
def endsWord : List Char → Bool
  | []     => true
  | c :: _ => isBlank c || isBreak c

end RoutineFlow.Yaml
