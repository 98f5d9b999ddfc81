import RoutineFlow.Flow.Graph

-- The state of a walk over a routine body, and the steps that handle open exits. An exit is a slot
-- of the graph that is not wired yet. Every step takes over some exits and gives back others, so
-- that each slot is wired once.

namespace RoutineFlow.Flow

inductive Exit
  -- The slot of a start node or a block.
  | next   (node : NodeId)
  -- One side of a condition. `sense` is the value of the expression at hand on this side; it is
  -- the branch itself unless a negation came in between.
  | branch (node : NodeId) (branch : Branch) (sense : Bool)
deriving DecidableEq

namespace Exit

def node : Exit → NodeId
  | next node       => node
  | branch node _ _ => node

-- Whether the expression at hand has the given value on this exit.
def hasSense (value : Bool) : Exit → Bool
  | next _           => false
  | branch _ _ sense => sense = value

end Exit

-- What a visit leaves behind.
structure Outflow where
  -- Where the next position attaches.
  frontier   : List Exit := []
  -- The exits of jumps, which lead to the end of the routine.
  leaving    : List Exit := []
  -- Every path through the visited part ends in a jump.
  terminates : Bool := false
deriving DecidableEq

namespace Outflow

-- Takes over the exits of the jumps of another part.
def absorb (out other : Outflow) : Outflow :=
  { out with leaving := out.leaving ++ other.leaving }

end Outflow

structure Progress where
  graph       : Graph := {}
  -- What was left out as unreachable, in the order of the walk.
  unreachable : List Syntax.Id := []
deriving DecidableEq

-- A step of the walk. A failed step leaves nothing.
abbrev Walk := StateT Progress (Except Error)

namespace Walk

-- Runs a step that grows the graph.
def grow (step : Graph.Build α) : Walk α := fun p =>
  match step p.graph with
  | (.ok a, graph)   => .ok (a, { p with graph })
  | (.error e, _)    => .error e

-- Runs a step that answers the next graph.
def update (step : Graph → Except Error Graph) : Walk Unit := fun p =>
  match step p.graph with
  | .ok graph => .ok ((), { p with graph })
  | .error e  => .error e

-- Lists a position as unreachable.
def skip (position : Syntax.Id) : Walk Unit :=
  modify fun p => { p with unreachable := p.unreachable ++ [position] }

def connect (target : NodeId) : Exit → Walk Unit
  | .next node            => update (·.wire node target)
  | .branch node branch _ => update (·.wireBranch node branch target)

def connectAll (exits : List Exit) (target : NodeId) : Walk Unit :=
  exits.forM (connect target)

-- The block that is the only member of the frontier.
def soleBlock? (g : Graph) : List Exit → Option NodeId
  | [.next node] => if (g.node? node).any Node.isBlock then some node else none
  | _            => none

-- The block in which the frontier comes together: its only member, or a new block that all members
-- lead to.
def gather (position : Syntax.Id) (frontier : List Exit) : Walk NodeId := do
  match soleBlock? (← get).graph frontier with
  | some node => return node
  | none      =>
    if frontier.isEmpty then
      throw (.emptyFrontier position)
    let block ← grow .freshBlock
    connectAll frontier block
    return block

-- Appends a position to the block in which the frontier comes together.
def place (position : Syntax.Id) (out : Outflow) : Walk Outflow := do
  let block ← gather position out.frontier
  update (·.record block position)
  return { out with frontier := [.next block], terminates := false }

-- The sides of the condition that an exit becomes; an exit that is a side already stays.
def sides (wanted : Bool) : Exit → Walk (List Exit)
  | .next node => do
    let inverted := (← get).graph.isInverted node
    let condition ← grow (.promote node wanted)
    return [.branch condition .truthy !inverted, .branch condition .falsy inverted]
  | exit => return [exit]

-- Turns the frontier into sides of conditions: those on which the expression has the wanted value,
-- and the others.
def fork (wanted : Bool) (frontier : List Exit) : Walk (List Exit × List Exit) := do
  let exits ← frontier.mapM (sides wanted)
  return exits.flatten.partition (·.hasSense wanted)

-- Logical negation of an exit: a block swaps the edge of its next promotion, a side swaps the
-- value it stands for.
def negate : Exit → Walk Exit
  | .next node => do
    update (·.invert node)
    return .next node
  | .branch node branch sense => return .branch node branch !sense

end Walk
end RoutineFlow.Flow
