import RoutineFlow.Lowering.Program
import RoutineFlow.Proofs.Chains

-- A chain of binary expressions is lowered from its inner end, so that its length needs no
-- recursion. The tree is the one that recursion down the left operands makes.

namespace RoutineFlow.Lowering

open Concrete (Cursor Rule Source)
open Syntax (Id Kind Tree)

-- Adds a node with the range of a row.
def added (kind : Kind) (c : Cursor) : Lower Id := fun source t =>
  (t.nextId, t.add kind (source.span c.node))

namespace Parts

-- A binary expression by recursion: its left operand, by the same rule if that is a binary
-- expression too, then its right operand, then the expression itself. For an operand that is
-- missing there is a node of its own.
def binaryNested (parts : Parts) (c : Cursor) : Lower Id := do
  let left ← (match _h : c.field? "left" with
    | none      => added (.other "missing") c
    | some left => if left.rule = .binary then parts.binaryNested left else parts.expression left)
  let source ← read
  let token := (c.field? "operator").elim "" (source.text ·.node)
  let right ← (match c.field? "right" with
    | none       => added (.other "missing") c
    | some right => parts.expression right)
  added (.binary (.ofToken token) left right) c
termination_by c.node.height
decreasing_by exact Cursor.height_lt_of_field? ‹_›

theorem operator_eq (parts : Parts) (left : Id) (c : Cursor) :
    parts.operator left c = (do
      let source ← read
      let token := (c.field? "operator").elim "" (source.text ·.node)
      let right ← (match c.field? "right" with
        | none       => added (.other "missing") c
        | some right => parts.expression right)
      added (.binary (.ofToken token) left right) c) := by
  unfold operator field
  cases c.field? "operator" <;> cases c.field? "right" <;> rfl

-- By induction down the left operands: once they agree on the left one, both go on alike.
theorem binary_eq_nested (parts : Parts) (c : Cursor) : parts.binary c = parts.binaryNested c := by
  rw [binary_eq, binaryNested]
  simp only [operator_eq]
  refine congrArg (· >>= _) ?_
  unfold leftOperand
  cases hl : c.field? "left"
  case none      => rfl
  case some left =>
    have := Cursor.height_lt_of_field? hl
    have ih := parts.binary_eq_nested left
    exact congrArg (if left.rule = .binary then · else parts.expression left) ih
termination_by c.node.height

variable (parts : Parts)

def expressionNested (c : Cursor) : Lower Id :=
  if c.rule = .binary then parts.binaryNested c else parts.expressionRule c

def statementNested (c : Cursor) : Lower (Option Id) :=
  if c.rule = .binary then some <$> parts.binaryNested c else parts.statementRule c

def clauseNested (c : Cursor) : Lower (List Id) :=
  if c.rule = .binary ∧ c.node.row.named then return [← parts.binaryNested c]
  else parts.clauseRule c

def nextNested : Parts where
  expression := parts.expressionNested
  statement  := parts.statementNested
  clause     := parts.clauseNested

def upToNested : Nat → Parts
  | 0     => upTo 0
  | n + 1 => (upToNested n).nextNested

theorem next_eq_nested : parts.next = parts.nextNested := by
  have hb := parts.binary_eq_nested
  unfold next nextNested
  congr 1 <;> funext c
  case e_expression =>
    unfold expressionNested
    split
    case isTrue hk => rw [expressionRule, hk, hb]
    case isFalse   => rfl
  case e_statement  =>
    unfold statementNested
    split
    case isTrue hk => rw [statementRule, hk, expressionRule, hk, hb]
    case isFalse   => rfl
  case e_clause     =>
    unfold clauseNested
    split
    case isTrue hk => simp only [clauseRule, hk, expressionRule, hb, if_true]
    case isFalse   => rfl

theorem upTo_eq_nested (n : Nat) : upTo n = upToNested n := by
  induction n
  case zero      => rfl
  case succ n ih => rw [upTo, upToNested, ih, next_eq_nested]

end Parts

-- Lowers a whole tree with recursion down left operands.
def programNested (root : Cursor) : Lower Id := do
  emit (.program (← (Parts.upToNested root.node.height).statements root.namedChildren)) root

-- The rule for a chain and the recursive one are the same step, whatever the rules for the parts
-- are: from any text and any tree so far, they add the same nodes in the same order and answer the
-- same id. With the one or the other, every program has the same tree.
theorem lower_nested :
    (∀ (parts : Parts) (c : Cursor), parts.binary c = parts.binaryNested c) ∧
    (∀ n, Parts.upTo n = Parts.upToNested n) ∧
    ∀ (root : Cursor) (source : Source) (t : Tree),
      ((program root).run source).run t = ((programNested root).run source).run t := by
  refine ⟨Parts.binary_eq_nested, Parts.upTo_eq_nested, fun root source t => ?_⟩
  rw [program, programNested, Parts.upTo_eq_nested]

end RoutineFlow.Lowering
