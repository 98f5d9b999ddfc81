import RoutineFlow.Concrete.Source
import RoutineFlow.Syntax.Builder

-- Lowering: concrete syntax becomes a syntax tree. Parts are lowered before the node that holds
-- them, in the order in which the rules ask for them.

namespace RoutineFlow.Lowering

open Concrete (Cursor Source)
open Syntax (Kind Tree)

-- A step that reads the source text and adds nodes to the tree.
abbrev Lower := ReaderT Source Syntax.Build

-- How the parts of a node are lowered. Rules take it as an argument, so that each rule stands on
-- its own.
structure Parts where
  expression : Cursor → Lower Syntax.Id
  -- Some statements leave nothing behind.
  statement  : Cursor → Lower (Option Syntax.Id)
  -- One clause of the header of a `for` may hold several parts.
  clause     : Cursor → Lower (List Syntax.Id)

def text (c : Cursor) : Lower String :=
  return (← read).text c.node

-- Adds a node with the range of `c`.
def emit (kind : Kind) (c : Cursor) : Lower Syntax.Id := do
  let span := (← read).span c.node
  Syntax.Build.node kind span

-- Stands for a part that the grammar allows to be absent.
def absent (c : Cursor) : Lower Syntax.Id :=
  emit (.other "missing") c

-- A node of which only the kind is kept.
def leaf (c : Cursor) : Lower Syntax.Id :=
  emit (.other c.node.kind) c

-- A block without statements.
def emptyBlock (c : Cursor) : Lower Syntax.Id :=
  emit (.block [] false) c

def textOf (c? : Option Cursor) : Lower String :=
  c?.elim (pure "") text

-- The name of what has no name and is bound to none: its line.
def anonymous (c : Cursor) : Lower String :=
  return s!"anonymous_{((← read).startOf c.node).row + 1}"

namespace Parts

variable (parts : Parts)

def expression? : Option Cursor → Lower (Option Syntax.Id)
  | some c => some <$> parts.expression c
  | none   => pure none

-- The expression in an optional place of `c`.
def expressionOr (c : Cursor) : Option Cursor → Lower Syntax.Id
  | some part => parts.expression part
  | none      => absent c

def field (c : Cursor) (name : String) : Lower Syntax.Id :=
  parts.expressionOr c (c.field? name)

def expressions (cs : List Cursor) : Lower (List Syntax.Id) :=
  cs.mapM parts.expression

def statements (cs : List Cursor) : Lower (List Syntax.Id) :=
  return (← cs.mapM parts.statement).reduceOption

def clauses (cs : List Cursor) : Lower (List Syntax.Id) :=
  return (← cs.mapM parts.clause).flatten

def block (c : Cursor) : Lower Syntax.Id := do
  emit (.block (← parts.statements c.namedChildren) false) c

end Parts

-- Parts joined by commas, from the left; `none` if there are no parts.
def commaChain (c : Cursor) : List Syntax.Id → Lower (Option Syntax.Id)
  | []            => pure none
  | first :: rest =>
    some <$> rest.foldlM (fun left right => emit (.binary (.other ",") left right) c) first

end RoutineFlow.Lowering
