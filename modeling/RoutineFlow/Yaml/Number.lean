import RoutineFlow.Yaml.Node

namespace RoutineFlow.Yaml

-- The value of a digit in a radix.
def digit? (radix : Nat) (c : Char) : Option Nat := do
  let d ← hexDigit? c
  if d < radix then some d else none

-- The number that one or more digits stand for.
def digits? (radix : Nat) : List Char → Option Nat
  | [] => none
  | cs => cs.foldlM (fun n c => return radix * n + (← digit? radix c)) 0

-- A decimal number has no zero before its other digits.
def decimal? (cs : List Char) : Option Nat :=
  if cs.length > 1 && cs.head? = some '0' then none else digits? 10 cs

-- A whole number that is not negative: decimal or with the mark of its radix, after a plus sign
-- if there is one.
def natural? (text : String) : Option Nat :=
  let cs := match text.toList with
    | '+' :: cs => cs
    | cs        => cs
  match cs with
  | '0' :: 'x' :: ds => digits? 16 ds
  | '0' :: 'o' :: ds => digits? 8 ds
  | '0' :: 'b' :: ds => digits? 2 ds
  | cs               => decimal? cs

end RoutineFlow.Yaml
