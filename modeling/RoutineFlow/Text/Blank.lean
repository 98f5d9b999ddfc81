namespace RoutineFlow.Text

-- The ranges of white space, ends included.
def blankRanges : List (Nat × Nat) :=
  [(0x09, 0x0D), (0x20, 0x20), (0x85, 0x85), (0xA0, 0xA0), (0x1680, 0x1680), (0x2000, 0x200A),
    (0x2028, 0x2029), (0x202F, 0x202F), (0x205F, 0x205F), (0x3000, 0x3000)]

def isBlank (c : Char) : Bool :=
  blankRanges.any fun (first, last) => first ≤ c.toNat && c.toNat ≤ last

-- A text without the white space around it.
def trim (s : String) : String :=
  .ofList (((s.toList.dropWhile isBlank).reverse.dropWhile isBlank).reverse)

end RoutineFlow.Text
