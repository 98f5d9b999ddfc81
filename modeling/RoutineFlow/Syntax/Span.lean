-- Source ranges. Lines and columns count from one; a range whose first line is zero has no place in
-- any source text.

namespace RoutineFlow.Syntax

structure Span where
  startLine   : Nat := 0
  startColumn : Nat := 0
  endLine     : Nat := 0
  endColumn   : Nat := 0
deriving DecidableEq, Inhabited

namespace Span

-- Holds of the range of a node that was built without a source text.
def isEmpty (s : Span) : Bool :=
  s.startLine = 0

-- Positions are ordered by line, and within a line by column.
def precedes (line₁ column₁ line₂ column₂ : Nat) : Bool :=
  line₁ < line₂ || (line₁ = line₂ && column₁ < column₂)

-- A range reaches from its first position up to, and not including, its end.
def contains (s : Span) (line column : Nat) : Bool :=
  !s.isEmpty
    && !precedes line column s.startLine s.startColumn
    && precedes line column s.endLine s.endColumn

theorem contains_iff {s : Span} : s.contains line column ↔
    s.startLine ≠ 0 ∧
    (s.startLine < line ∨ s.startLine = line ∧ s.startColumn ≤ column) ∧
    (line < s.endLine ∨ line = s.endLine ∧ column < s.endColumn) := by
  simp [contains, isEmpty, precedes]
  omega

end Span
end RoutineFlow.Syntax
