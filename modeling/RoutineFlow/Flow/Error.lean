import RoutineFlow.Syntax.Kind

namespace RoutineFlow.Flow

-- The place of a node in the flow graph that holds it.
@[ext]
structure NodeId where
  index : Nat
deriving DecidableEq, Inhabited

namespace NodeId

def label (id : NodeId) : String :=
  s!"N{id.index}"

end NodeId

inductive Error
  -- No routine with a body encloses the position.
  | invalidStart      (position : Syntax.Id)
  -- The position cannot be reached.
  | emptyFrontier     (position : Syntax.Id)
  -- All outgoing edges of the node are wired, or it has none of the kind asked for.
  | edgeQuotaExceeded (node : NodeId) (quota : Nat)
  -- Only a block can become a condition, or hold a position.
  | notPromotable     (node : NodeId)
  -- The block before a loop leads nowhere, so there is nothing to loop back to.
  | missingLoopEntry  (header : NodeId)
  | nestingTooDeep    (position : Syntax.Id) (limit : Nat)
  | unknownFlowNode   (node : NodeId)
  | unknownSyntaxNode (position : Syntax.Id)
  -- The analysis did not come to the end node.
  | unterminated
  -- Following left operands from this binary expression never leaves binary expressions.
  | endlessOperands   (position : Syntax.Id)
deriving DecidableEq

namespace Error

def message : Error → String
  | invalidStart position =>
    s!"invalid start point: no routine body encloses syntax node {position.label}"
  | emptyFrontier position =>
    s!"no open flow to attach {position.label} to (statement follows an unconditional jump)"
  | edgeQuotaExceeded node quota =>
    s!"flow node {node.label} already has all of its {quota} outgoing edge(s) wired"
  | notPromotable node =>
    s!"flow node {node.label} cannot be promoted to a condition node"
  | missingLoopEntry header =>
    s!"loop entry block {header.label} has no successor to loop back to"
  | nestingTooDeep position limit =>
    s!"syntax nesting exceeds the configured limit of {limit} at {position.label}"
  | unknownFlowNode node =>
    s!"flow node {node.label} does not exist in this graph"
  | unknownSyntaxNode position =>
    s!"syntax node {position.label} does not exist in this tree"
  | unterminated =>
    "analysis finished without reaching the end node"
  | endlessOperands position =>
    s!"the left operands of syntax node {position.label} never come to an end"

end Error
end RoutineFlow.Flow
