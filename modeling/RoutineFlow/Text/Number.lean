namespace RoutineFlow.Text

-- A number of one or more decimal digits.
def digits? (cs : List Char) : Option Nat :=
  if !cs.isEmpty && cs.all Char.isDigit then
    some (cs.foldl (fun n c => 10 * n + (c.toNat - '0'.toNat)) 0)
  else
    none

-- A number after a plus sign, if there is one.
def unsigned? (s : String) : Option Nat :=
  match s.toList with
  | '+' :: cs => digits? cs
  | cs        => digits? cs

end RoutineFlow.Text
