import RoutineFlow.Syntax.Tree

-- Trees assembled by hand. Each builder adds one node without a source range and answers its id, so
-- that a tree is written from its leaves to its root.

namespace RoutineFlow.Syntax

abbrev Build := StateM Tree

namespace Build

def node (kind : Kind) (span : Span := {}) : Build Id :=
  modifyGet fun t => (t.nextId, t.add kind span)

def identifier (name : String) : Build Id :=
  node (.identifier name)

def literal (text : String) : Build Id :=
  node (.literal text)

def binary (op : BinaryOp) (left right : Id) : Build Id :=
  node (.binary op left right)

def and (left right : Id) : Build Id :=
  binary .and left right

def or (left right : Id) : Build Id :=
  binary .or left right

def not (operand : Id) : Build Id :=
  node (.unary .not operand)

def parens (inner : Id) : Build Id :=
  node (.parens inner)

def assign (target value : Id) : Build Id :=
  node (.assignment target value)

def call (receiver? : Option Id) (name : String) (arguments : List Id) : Build Id :=
  node (.call receiver? name arguments)

def cast (type : String) (expr : Id) : Build Id :=
  node (.cast type expr)

def arrayAccess (indexed index : Id) : Build Id :=
  node (.arrayAccess indexed index)

-- A declaration of several names: one declarator each, then the declaration that lists them.
def varDecl (declarators : List (String × Option Id)) : Build Id := do
  let ids ← declarators.mapM fun (name, initializer?) => node (.declarator name initializer?)
  node (.varDecl ids)

def block (statements : List Id) : Build Id :=
  node (.block statements false)

def staticBlock (statements : List Id) : Build Id :=
  node (.block statements true)

def ifStmt (condition thenPart : Id) (elsePart? : Option Id := none) : Build Id :=
  node (.ifStmt condition thenPart elsePart?)

def ternary (condition truePart falsePart : Id) : Build Id :=
  node (.ternary condition truePart falsePart)

def whileStmt (condition body : Id) : Build Id :=
  node (.whileStmt condition body)

def doWhileStmt (body condition : Id) : Build Id :=
  node (.doWhileStmt body condition)

def forStmt (init : List Id) (condition? : Option Id) (update : List Id) (body : Id) : Build Id :=
  node (.forStmt init condition? update body)

def returnStmt (value? : Option Id := none) : Build Id :=
  node (.returnStmt value?)

def throwStmt (exception : Id) : Build Id :=
  node (.throwStmt exception)

def tryStmt (blocks : List Id) : Build Id :=
  node (.tryStmt blocks)

def switchStmt (discriminant? : Option Id) (statements : List Id) : Build Id :=
  node (.switchStmt discriminant? statements)

def routine (name : String) (body? : Option Id) : Build Id :=
  node (.routine name body?)

def classDecl (name : String) (members : List Id) : Build Id :=
  node (.classDecl name members)

def program (items : List Id) : Build Id :=
  node (.program items)

end Build
end RoutineFlow.Syntax
