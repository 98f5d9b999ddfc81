import RoutineFlow.Flow.Traverse

namespace RoutineFlow.Flow

structure Summary where
  graph       : Graph
  start       : NodeId
  finish      : NodeId
  -- The nodes left out as unreachable; always empty when the policy rejects them.
  unreachable : List Syntax.Id
deriving DecidableEq

structure Stats where
  nodes                : Nat
  edges                : Nat
  basicBlocks          : Nat
  conditions           : Nat
  cyclomaticComplexity : Nat
  unreachable          : Nat
deriving DecidableEq

namespace Summary

variable (s : Summary)

-- The nodes that can be reached from the start, breadth first.
def traverse : List NodeId :=
  s.graph.traverse s.start

-- The nodes of a sort, in the order in which they were made.
def nodesThat (p : Node → Bool) : List NodeId :=
  s.graph.ids.filter fun id => (s.graph.node? id).any p

def basicBlocks : List NodeId :=
  s.nodesThat Node.isBlock

def conditions : List NodeId :=
  s.nodesThat Node.isCondition

def nodeCount : Nat :=
  s.graph.size

def edgeCount : Nat :=
  s.graph.edges.length

-- Edges less nodes plus two.
def cyclomaticComplexity : Nat :=
  s.edgeCount + 2 - s.nodeCount

-- Every placed position, block by block.
def positions : List Syntax.Id :=
  s.graph.ids.flatMap fun id => (s.graph.node? id).elim [] Node.positions

-- The first block that a position was placed in.
def blockOf? (position : Syntax.Id) : Option NodeId :=
  s.graph.ids.find? fun id => ((s.graph.node? id).elim [] Node.positions).contains position

def stats : Stats where
  nodes                := s.nodeCount
  edges                := s.edgeCount
  basicBlocks          := s.basicBlocks.length
  conditions           := s.conditions.length
  cyclomaticComplexity := s.cyclomaticComplexity
  unreachable          := s.unreachable.length

end Summary
end RoutineFlow.Flow
