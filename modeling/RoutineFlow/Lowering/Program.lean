import RoutineFlow.Lowering.Statement

namespace RoutineFlow.Lowering

open Concrete (Cursor Node Source)
open Syntax (Tree)

namespace Parts

-- The rules applied to the parts of a node.
def next (parts : Parts) : Parts where
  expression := parts.expressionRule
  statement  := parts.statementRule
  clause     := parts.clauseRule

-- The rules down to a given height. Below it there is nothing to lower any more.
def upTo : Nat → Parts
  | 0     => ⟨leaf, fun _ => pure none, fun _ => pure []⟩
  | n + 1 => (upTo n).next

end Parts

-- Lowers a whole tree. A part is never higher than the node that holds it, so the height of the
-- root is height enough.
def program (root : Cursor) : Lower Syntax.Id := do
  emit (.program (← (Parts.upTo root.node.height).statements root.namedChildren)) root

-- A place in the text that the grammar does not accept.
structure SyntaxError where
  line   : Nat
  column : Nat
deriving DecidableEq

def SyntaxError.message (e : SyntaxError) : String :=
  s!"syntax error at line {e.line}, column {e.column}"

-- The syntax tree of a program, or its first syntax error.
def lower (source : Source) (root : Node) : Except SyntaxError Tree :=
  if root.row.hasError then
    let place := source.startOf (root.firstError?.getD root)
    .error ⟨place.row + 1, place.column + 1⟩
  else
    .ok ((program { node := root }).run source |>.run Tree.empty).2

end RoutineFlow.Lowering
