import RoutineFlow.Flow.Walk
import RoutineFlow.Syntax.Tree

-- How each construct routes the flow. A rule says in which order a construct is placed and its
-- parts are visited, and where their exits lead. Rules take the visit of a part as an argument, so
-- each of them can be read, and reasoned about, on its own.

namespace RoutineFlow.Flow

open Syntax (Tree BinaryOp)

-- The visit of a part of the tree.
abbrev Visitor := Syntax.Id → Outflow → Walk Outflow

namespace Visitor

open Walk

variable (visit : Visitor)

-- One part after the other.
def sequence (parts : List Syntax.Id) (out : Outflow) : Walk Outflow :=
  parts.foldlM (fun out part => visit part out) out

-- The operands in order, then the construct itself.
def strict (id : Syntax.Id) (operands : List Syntax.Id) (out : Outflow) : Walk Outflow := do
  let out ← sequence visit operands out
  place id out

-- `if` and the conditional expression.
def branching (id condition truePart : Syntax.Id) (falsePart? : Option Syntax.Id) (out : Outflow) :
    Walk Outflow := do
  let out ← place id out
  let tested ← visit condition { frontier := out.frontier }
  let out := out.absorb tested
  let (truthy, falsy) ← fork true tested.frontier
  let yes ← visit truePart { frontier := truthy }
  let out := out.absorb yes
  match falsePart? with
  | none =>
    return { out with frontier := yes.frontier ++ falsy, terminates := false }
  | some falsePart =>
    let no ← visit falsePart { frontier := falsy }
    return { out.absorb no with
      frontier := yes.frontier ++ no.frontier
      terminates := yes.terminates && no.terminates }

-- `&&` and `||`: the right operand is visited where the left one has the value `continueOn`. The
-- exits are ordered by the value on which they skip: `&&` lists the skipping ones last, `||` first.
def shortCircuit (continueOn : Bool) (right : Syntax.Id) (out : Outflow) : Walk Outflow := do
  let (evaluate, skip) ← fork continueOn out.frontier
  let visited ← visit right { frontier := evaluate }
  return { out.absorb visited with
    frontier := if continueOn then visited.frontier ++ skip else skip ++ visited.frontier
    terminates := false }

end Visitor

-- One operator of a chain of left operands.
structure Link where
  node  : Syntax.Id
  op    : BinaryOp
  right : Syntax.Id
deriving DecidableEq

-- Follows left operands down from `id`: what is found at the end, and the operators passed,
-- innermost first, before those of `links`. There is no end if more than `fuel` operators follow.
def followLeft (t : Tree) (fuel : Nat) (id : Syntax.Id) (links : List Link) :
    Option (Syntax.Id × List Link) :=
  match t.kind? id, fuel with
  | some (.binary ..), 0                      => none
  | some (.binary op left right), fuel + 1    => followLeft t fuel left (⟨id, op, right⟩ :: links)
  | _, _                                      => some (id, links)

-- The chain of left operands from `id`. A chain longer than the tree comes back to itself.
def leftChain? (t : Tree) (id : Syntax.Id) : Option (Syntax.Id × List Link) :=
  followLeft t t.size id []

namespace Visitor

open Walk

variable (visit : Visitor)

-- What a binary operator does once its left operand is visited.
def operator (link : Link) (out : Outflow) : Walk Outflow :=
  match link.op with
  | .and     => shortCircuit visit true link.right out
  | .or      => shortCircuit visit false link.right out
  | .other _ => strict visit link.node [link.right] out

-- Binary expressions. A chain of left operands is visited from its inner end outwards, so that its
-- length does not count as nesting.
def binary (t : Tree) (id : Syntax.Id) (out : Outflow) : Walk Outflow :=
  match leftChain? t id with
  | none                   => throw (.endlessOperands id)
  | some (leftmost, links) => do
    let out ← visit leftmost out
    links.foldlM (fun out link => operator visit link out) out

def negation (id operand : Syntax.Id) (out : Outflow) : Walk Outflow := do
  let out ← place id out
  let out ← visit operand out
  return { out with frontier := ← out.frontier.mapM negate }

-- Where a loop tests again: whatever follows its header.
def loopEntry (header : NodeId) : Walk NodeId := do
  match (← get).graph.next? header with
  | some entry => return entry
  | none       => throw (.missingLoopEntry header)

def whileLoop (id condition body : Syntax.Id) (out : Outflow) : Walk Outflow := do
  let out ← place id out
  let header ← gather id out.frontier
  let tested ← visit condition { frontier := [.next header] }
  let out := out.absorb tested
  let (truthy, falsy) ← fork true tested.frontier
  let looped ← visit body { frontier := truthy }
  let out := out.absorb looped
  connectAll looped.frontier (← loopEntry header)
  return { out with frontier := falsy, terminates := false }

-- The body runs before the first test, so it starts a block of its own.
def doWhileLoop (id body condition : Syntax.Id) (out : Outflow) : Walk Outflow := do
  let out ← place id out
  let header ← gather id out.frontier
  let entry ← grow (.block header)
  let looped ← visit body { frontier := [.next entry] }
  let out := out.absorb looped
  let tested ← visit condition { frontier := looped.frontier }
  let out := out.absorb tested
  let (truthy, falsy) ← fork true tested.frontier
  connectAll truthy entry
  return { out with frontier := falsy, terminates := false }

-- A loop without a condition still gets a condition node, which decides on nothing and whose falsy
-- side leaves the loop.
def forLoop (id : Syntax.Id) (init : List Syntax.Id) (condition? : Option Syntax.Id)
    (update : List Syntax.Id) (body : Syntax.Id) (out : Outflow) : Walk Outflow := do
  let out ← place id out
  let out ← sequence visit init out
  let header ← gather id out.frontier
  let tested ← match condition? with
    | some condition => visit condition { frontier := [.next header] }
    | none           => pure { frontier := [.next header] }
  let out := out.absorb tested
  let (truthy, falsy) ← fork true tested.frontier
  if condition?.isNone then
    (truthy ++ falsy).forM fun exit => Walk.update (·.forget exit.node)
  let looped ← visit body { frontier := truthy }
  let out := out.absorb looped
  let updated ← sequence visit update { frontier := looped.frontier }
  let out := out.absorb updated
  connectAll updated.frontier (← loopEntry header)
  return { out with frontier := falsy, terminates := false }

-- `return` and `throw`: the flow leaves the routine.
def jump (id : Syntax.Id) (operand? : Option Syntax.Id) (out : Outflow) : Walk Outflow := do
  let out ← strict visit id operand?.toList out
  return { frontier := [], leaving := out.leaving ++ out.frontier, terminates := true }

-- The rule of each kind of node.
def construct (t : Tree) (id : Syntax.Id) (out : Outflow) : Walk Outflow :=
  match t.kind? id with
  | none => throw (.unknownSyntaxNode id)
  | some kind =>
    match kind with
    | .block statements _                  => do sequence visit statements (← place id out)
    | .ifStmt condition yes no?            => branching visit id condition yes no? out
    | .ternary condition yes no            => branching visit id condition yes (some no) out
    | .whileStmt condition body            => whileLoop visit id condition body out
    | .doWhileStmt body condition          => doWhileLoop visit id body condition out
    | .forStmt init condition? update body => forLoop visit id init condition? update body out
    | .binary ..                           => binary visit t id out
    | .unary .not operand                  => negation visit id operand out
    | .returnStmt value?                   => jump visit id value? out
    | .throwStmt exception                 => jump visit id (some exception) out
    | .parens inner                        => do visit inner (← place id out)
    | .unary (.other _) operand            => strict visit id [operand] out
    | .cast _ expr                         => strict visit id [expr] out
    | .assignment target value             => strict visit id [target, value] out
    | .call receiver? _ arguments          => strict visit id (receiver?.toList ++ arguments) out
    | .new _ arguments                     => strict visit id arguments out
    | .varDecl declarators                 => strict visit id declarators out
    -- A declarator is not placed: the declaration that holds it is.
    | .declarator _ initializer?           => sequence visit initializer?.toList out
    -- One position, whatever is inside.
    | .identifier _ | .literal _ | .arrayAccess .. | .tryStmt _ | .switchStmt .. | .breakStmt
    | .continueStmt | .routine .. | .classDecl .. | .program _ | .other _ => place id out

end Visitor
end RoutineFlow.Flow
