import RoutineFlow.Lowering.Expression

namespace RoutineFlow.Lowering

open Concrete (Cursor)

-- What is inside the parentheses that a statement asks for.
def unwrapped (c : Cursor) : Cursor :=
  if c.rule = .parenthesized then c.firstNamed?.getD c else c

namespace Parts

variable (parts : Parts)

-- The condition of a statement, without the parentheses it stands in.
def condition (c : Cursor) : Lower Syntax.Id :=
  parts.expressionOr c ((c.field? "condition").map unwrapped)

-- A statement where there must be one: a lone semicolon becomes an empty block.
def statementOr (place : Cursor) (c? : Option Cursor) : Lower Syntax.Id := do
  match ← (c?.elim (pure none) parts.statement) with
  | some id => return id
  | none    => emptyBlock place

def body (c : Cursor) (name : String) : Lower Syntax.Id :=
  match c.field? name with
  | some child => parts.statementOr child (some child)
  | none       => absent c

-- The statement after `else`.
def alternative (c : Cursor) : Lower Syntax.Id :=
  parts.statementOr c (if c.rule = .elseClause then c.firstNamed? else some c)

def ifStatement (c : Cursor) : Lower Syntax.Id := do
  let condition ← parts.condition c
  let thenPart ← parts.body c "consequence"
  let elsePart? ← (c.field? "alternative").mapM parts.alternative
  emit (.ifStmt condition thenPart elsePart?) c

def forStatement (c : Cursor) : Lower Syntax.Id := do
  let init ← parts.clauses (c.fieldAll "initializer")
  let condition? ← commaChain c (← parts.clauses (c.fieldAll "condition"))
  let update ← parts.clauses (c.fieldAll "increment")
  let body ← parts.body c "body"
  emit (.forStmt init condition? update body) c

-- What is looped over is evaluated once; then the body runs any number of times.
def forInStatement (c : Cursor) : Lower Syntax.Id := do
  let iterable ← parts.field c "right"
  let body ← parts.body c "body"
  emit (.forStmt [iterable] none [] body) c

def tryStatement (c : Cursor) : Lower Syntax.Id := do
  let within (clause : String) := (c.field? clause).bind (·.field? "body")
  let blocks ← [c.field? "body", within "handler", within "finalizer"].reduceOption.mapM parts.block
  emit (.tryStmt blocks) c

-- The statements of all cases, one after the other.
def switchStatement (c : Cursor) : Lower Syntax.Id := do
  let discriminant? ← parts.expression? ((c.field? "value").map unwrapped)
  let cases := (c.field? "body").elim [] Cursor.namedChildren
  let statements ← parts.statements (cases.flatMap (·.fieldAll "body"))
  emit (.switchStmt discriminant? statements) c

-- The rule of each kind of statement; whatever has none is an expression.
def statementRule (c : Cursor) : Lower (Option Syntax.Id) :=
  match c.rule with
  | .emptyStatement | .comment => pure none
  | .statementBlock      => some <$> parts.block c
  | .staticBlock         => some <$> parts.staticBlock c
  | .expressionStatement => parts.expression? c.firstNamed?
  | .declaration         => some <$> parts.declaration c
  | .ifStatement         => some <$> parts.ifStatement c
  | .whileStatement      => do
    let condition ← parts.condition c
    let body ← parts.body c "body"
    some <$> emit (.whileStmt condition body) c
  | .doStatement         => do
    let body ← parts.body c "body"
    let condition ← parts.condition c
    some <$> emit (.doWhileStmt body condition) c
  | .forStatement        => some <$> parts.forStatement c
  | .forInStatement      => some <$> parts.forInStatement c
  | .returnStatement     => do
    let value? ← parts.expression? c.firstNamed?
    some <$> emit (.returnStmt value?) c
  | .throwStatement      => do
    let exception ← parts.expressionOr c c.firstNamed?
    some <$> emit (.throwStmt exception) c
  | .tryStatement        => some <$> parts.tryStatement c
  | .switchStatement     => some <$> parts.switchStatement c
  | .breakStatement      => some <$> emit .breakStmt c
  | .continueStatement   => some <$> emit .continueStmt c
  | .functionDeclaration => some <$> parts.routine c
  | .classDeclaration    => some <$> parts.classDecl c
  | .exportStatement     =>
    match c.field? "declaration" with
    | some declaration => parts.statement declaration
    | none             => some <$> leaf c
  | .labeledStatement    =>
    match c.field? "body" with
    | some body => parts.statement body
    | none      => some <$> leaf c
  | _                    => some <$> parts.expressionRule c

end Parts
end RoutineFlow.Lowering
