namespace RoutineFlow

inductive Data
  | number (n : Nat)
  | text   (s : String)
  | list   (items : List Data)
  | record (fields : List (String × Data))

namespace Data

-- A digit in base sixteen.
def hexDigit (n : Nat) : Char :=
  if n < 10 then .ofNat ('0'.toNat + n) else .ofNat ('a'.toNat + (n - 10))

-- A character between double quotes. Only the quote, the backslash and control characters are
-- written in another way than as themselves.
def escape (c : Char) : List Char :=
  match c with
  | '\x22' => ['\\', '\x22']
  | '\\'   => ['\\', '\\']
  | '\x08' => ['\\', 'b']
  | '\x0c' => ['\\', 'f']
  | '\n'   => ['\\', 'n']
  | '\r'   => ['\\', 'r']
  | '\t'   => ['\\', 't']
  | c      =>
    if c.toNat < 0x20 then
      ['\\', 'u', '0', '0', hexDigit (c.toNat / 16), hexDigit (c.toNat % 16)]
    else
      [c]

def quote (s : String) : String :=
  "\"" ++ .ofList (s.toList.flatMap escape) ++ "\""

-- The beginning of a line at a depth.
def newLine (depth : Nat) : String :=
  "\n" ++ .ofList (List.replicate (2 * depth) ' ')

mutual

-- The text of data that stands at a depth, without the beginning of its first line. Each item and
-- each field has a line of its own.
def render (depth : Nat) : Data → String
  | number n           => toString n
  | text s             => quote s
  | list []            => "[]"
  | list (d :: ds)     =>
    "[" ++ newLine (depth + 1) ++ render (depth + 1) d ++ renderItems (depth + 1) ds
      ++ newLine depth ++ "]"
  | record []          => "\x7b\x7d"
  | record ((k, d) :: fields) =>
    "\x7b" ++ newLine (depth + 1) ++ quote k ++ ": " ++ render (depth + 1) d
      ++ renderFields (depth + 1) fields ++ newLine depth ++ "\x7d"

def renderItems (depth : Nat) : List Data → String
  | []      => ""
  | d :: ds => "," ++ newLine depth ++ render depth d ++ renderItems depth ds

def renderFields (depth : Nat) : List (String × Data) → String
  | []               => ""
  | (k, d) :: fields =>
    "," ++ newLine depth ++ quote k ++ ": " ++ render depth d ++ renderFields depth fields

end

def json (d : Data) : String :=
  d.render 0

end Data
end RoutineFlow
