import RoutineFlow.Lowering.Routine

namespace RoutineFlow.Lowering

open Concrete (Cursor Rule)
open Syntax (BinaryOp UnaryOp)

-- The binary expressions from `c` down the left operands, innermost first and followed by
-- `outer`, and the operand at their end.
def leftSpine (c : Cursor) (outer : List Cursor) : List Cursor × Option Cursor :=
  match h : c.field? "left" with
  | none      => (c :: outer, none)
  | some left =>
    have := Cursor.height_lt_of_field? h
    if left.rule = .binary then leftSpine left (c :: outer) else (c :: outer, some left)
termination_by c.node.height

namespace Parts

variable (parts : Parts)

-- One binary expression whose left operand is lowered already.
def operator (left : Syntax.Id) (c : Cursor) : Lower Syntax.Id := do
  let op := BinaryOp.ofToken (← textOf (c.field? "operator"))
  let right ← parts.field c "right"
  emit (.binary op left right) c

-- A chain of left operands is lowered from its inner end outwards.
def binary (c : Cursor) : Lower Syntax.Id := do
  let (spine, leftmost?) := leftSpine c []
  let left ← parts.expressionOr (spine.headD c) leftmost?
  spine.foldlM parts.operator left

def unary (c : Cursor) : Lower Syntax.Id := do
  let op := UnaryOp.ofToken (← textOf (c.field? "operator"))
  let operand ← parts.field c "argument"
  emit (.unary op operand) c

-- Operators written as a word or as dots before their operand.
def leadingWord (token : String) (c : Cursor) : Lower Syntax.Id :=
  match c.firstNamed? with
  | some operand => do emit (.unary (.other token) (← parts.expression operand)) c
  | none         => leaf c

-- The arguments of a call. A template that follows the function is its only argument.
def arguments (c : Cursor) : Lower (List Syntax.Id) :=
  match c.field? "arguments" with
  | none      => pure []
  | some args =>
    parts.expressions (if args.rule = .arguments then args.namedChildren else [args])

-- What is called: the receiver, and the name if there is one.
def callee : Option Cursor → Lower (Option Syntax.Id × String)
  | none          => pure (none, "")
  | some function =>
    match function.rule with
    | .identifier => return (none, ← text function)
    | .member     => do
      let receiver? ← parts.expression? (function.field? "object")
      return (receiver?, ← textOf (function.field? "property"))
    | _           => return (some (← parts.expression function), "")

def call (c : Cursor) : Lower Syntax.Id := do
  let (receiver?, name) ← parts.callee (c.field? "function")
  emit (.call receiver? name (← parts.arguments c)) c

-- A cast of the expression in one place to the type in another.
def cast (c : Cursor) (expr? type? : Option Cursor) : Lower Syntax.Id := do
  let type ← textOf type?
  let expr ← parts.expressionOr c expr?
  emit (.cast type expr) c

-- The rule of each kind of expression; what has none is kept as a leaf.
def expressionRule (c : Cursor) : Lower Syntax.Id :=
  match c.rule with
  | .parenthesized => do emit (.parens (← parts.expressionOr c c.firstNamed?)) c
  | .binary        => parts.binary c
  | .unary         => parts.unary c
  | .await         => parts.leadingWord "await" c
  | .spread        => parts.leadingWord "..." c
  | .yield         => parts.leadingWord "yield" c
  | .ternary       => do
    let condition ← parts.field c "condition"
    let truePart ← parts.field c "consequence"
    let falsePart ← parts.field c "alternative"
    emit (.ternary condition truePart falsePart) c
  | .assignment | .augmentedAssignment => do
    let target ← parts.field c "left"
    let value ← parts.field c "right"
    emit (.assignment target value) c
  | .call          => parts.call c
  | .new           => do
    let name ← textOf (c.field? "constructor")
    emit (.new name (← parts.arguments c)) c
  | .subscript     => do
    let indexed ← parts.field c "object"
    let index ← parts.field c "index"
    emit (.arrayAccess indexed index) c
  | .typeCast      => parts.cast c c.namedChildren[0]? c.namedChildren[1]?
  | .typeAssertion => parts.cast c c.namedChildren[1]? c.namedChildren[0]?
  | .nonNull       => parts.expressionOr c c.firstNamed?
  | .sequence      => do
    let chain? ← commaChain c (← parts.clauses (if c.node.row.named then c.namedChildren else []))
    chain?.elim (absent c) pure
  | .function        => parts.routine c
  | .classExpression => parts.classDecl c
  | .identifier | .name | .member => do emit (.identifier (← text c)) c
  | .literal       => do emit (.literal (← text c)) c
  | _              => leaf c

-- The parts in one clause of the header of a `for`, without the commas between them.
def clauseRule (c : Cursor) : Lower (List Syntax.Id) :=
  if c.node.row.named then
    match c.rule with
    | .emptyStatement | .comment       => pure []
    | .declaration                     => return [← parts.declaration c]
    | .expressionStatement | .sequence => parts.clauses c.namedChildren
    | _                                => return [← parts.expressionRule c]
  else
    pure []

end Parts
end RoutineFlow.Lowering
