import RoutineFlow.Flow.Rules
import RoutineFlow.Flow.Scope
import RoutineFlow.Flow.Summary
import RoutineFlow.Settings.Basic

-- The analysis of a routine body: one walk in source order that answers the flow graph, or the
-- first error on the way.

namespace RoutineFlow.Flow

open Syntax (Tree)

-- Visits a node below which at most `remaining` levels may nest. Code that no flow reaches is
-- skipped first, if the policy says so.
def visit (t : Tree) (settings : Settings) (remaining : Nat) (id : Syntax.Id) (out : Outflow) :
    Walk Outflow :=
  if out.frontier.isEmpty && settings.unreachable = .skip then do
    Walk.skip id
    return out
  else
    match remaining with
    | 0             => throw (.nestingTooDeep id settings.maxDepth)
    | remaining + 1 => Visitor.construct (visit t settings remaining) t id out

-- The statements of a routine body, from what leads to it up to its end node.
def visitBody (t : Tree) (settings : Settings) (scope : Syntax.Id) (out : Outflow) :
    Walk Outflow := do
  match t.kind? scope with
  | none                       => throw (.unknownSyntaxNode scope)
  | some (.block statements _) =>
    let out ← Walk.place scope out
    let out ← Visitor.sequence (visit t settings settings.maxDepth) statements out
    let finish ← Walk.grow .finish
    if !out.terminates then
      Walk.connectAll out.frontier finish
    Walk.connectAll out.leaving finish
    return { frontier := [.next finish], leaving := [], terminates := out.terminates }
  | some _                     => throw (.invalidStart scope)

def walkBody (t : Tree) (settings : Settings) (scope : Syntax.Id) : Walk (NodeId × NodeId) := do
  let start ← Walk.grow .start
  let out ← visitBody t settings scope { frontier := [.next start] }
  match out.frontier with
  | [.next finish] =>
    if (← get).graph.node? finish = some .finish then
      return (start, finish)
    throw .unterminated
  | _ => throw .unterminated

-- The flow graph of the routine body `scope`.
def analyze (t : Tree) (settings : Settings) (scope : Syntax.Id) : Except Error Summary := do
  let ((start, finish), progress) ← (walkBody t settings scope).run {}
  return { graph := progress.graph, start, finish, unreachable := progress.unreachable }

-- The flow graph of the routine around a position.
def flowAround (t : Tree) (settings : Settings) (position : Syntax.Id) : Except Error Summary := do
  analyze t settings (← scopeOf t position)

end RoutineFlow.Flow
