import RoutineFlow.Lowering.Basic

namespace RoutineFlow.Lowering

open Concrete (Cursor Node Rule)

-- The parts of a node that give a name to a function bound to it.
def bindingFields : Rule → List String
  | .variableDeclarator => ["name"]
  | .assignment         => ["left"]
  | .pair               => ["key"]
  | .field              => ["property", "name"]
  | _                   => []

-- What a function is bound to by the node that holds it.
def binding? (c : Cursor) : Option Cursor := do
  let parent : Cursor := { node := ← c.parent? }
  (bindingFields parent.rule).findSome? parent.field?

-- A function has its own name, or that of what it is bound to.
def routineName (c : Cursor) : Lower String :=
  match c.field? "name" <|> binding? c with
  | some name => text name
  | none      => anonymous c

namespace Parts

variable (parts : Parts)

-- The body of a function. An expression for a body is returned from a block of its own.
def routineBody (body : Cursor) : Lower Syntax.Id := do
  if body.rule = .statementBlock then
    parts.block body
  else
    let value ← parts.expression body
    let exit ← emit (.returnStmt (some value)) body
    emit (.block [exit] false) body

def routine (c : Cursor) : Lower Syntax.Id := do
  let name ← routineName c
  let body? ← (c.field? "body").mapM parts.routineBody
  emit (.routine name body?) c

def declarator (c : Cursor) : Lower Syntax.Id := do
  let name ← textOf (c.field? "name")
  let initializer? ← parts.expression? (c.field? "value")
  emit (.declarator name initializer?) c

def declaration (c : Cursor) : Lower Syntax.Id := do
  let declarators ← (c.namedChildren.filter (·.rule = .variableDeclarator)).mapM parts.declarator
  emit (.varDecl declarators) c

-- The statements of a static block are those of its body, or of the block it holds.
def staticBlock (c : Cursor) : Lower Syntax.Id := do
  let inner? := c.field? "body" <|> c.namedChildren.find? (·.rule = .statementBlock)
  emit (.block (← parts.statements (inner?.elim [] Cursor.namedChildren)) true) c

-- A field declares one name.
def classField (c : Cursor) : Lower Syntax.Id := do
  let name ← textOf (c.field? "property" <|> c.field? "name")
  let initializer? ← parts.expression? (c.field? "value")
  let declarator ← emit (.declarator name initializer?) c
  emit (.varDecl [declarator]) c

def member (c : Cursor) : Lower Syntax.Id :=
  match c.rule with
  | .method      => parts.routine c
  | .staticBlock => parts.staticBlock c
  | .field       => parts.classField c
  | _            => leaf c

def classDecl (c : Cursor) : Lower Syntax.Id := do
  let name ← match c.field? "name" with
    | some name => text name
    | none      => anonymous c
  let members ← ((c.field? "body").elim [] Cursor.namedChildren).mapM parts.member
  emit (.classDecl name members) c

end Parts
end RoutineFlow.Lowering
