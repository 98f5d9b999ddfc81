import RoutineFlow.Flow.Error

-- The flow graph: an arena of nodes, each with a fixed number of outgoing slots. A slot is wired at
-- most once; to wire it again is an error and changes nothing.

namespace RoutineFlow.Flow

-- The two ways out of a condition.
inductive Branch
  | truthy
  | falsy
deriving DecidableEq

namespace Branch

def other : Branch → Branch
  | truthy => falsy
  | falsy  => truthy

-- The branch taken when the condition has the given value.
def ofValue (value : Bool) : Branch :=
  if value then truthy else falsy

def label : Branch → String
  | truthy => "true"
  | falsy  => "false"

end Branch

inductive EdgeLabel
  -- What follows a start node or a block.
  | next
  | branch (b : Branch)
deriving DecidableEq

structure Edge where
  source : NodeId
  label  : EdgeLabel
  target : NodeId
deriving DecidableEq

inductive Node
  | start     (next? : Option NodeId)
  | finish
  -- A run of positions without a decision. The flag asks that the next promotion swap the edge
  -- that is filled first.
  | block     (positions : List Syntax.Id) (next? : Option NodeId) (inverted : Bool)
  -- A decision on a position, or on none for a loop without a condition.
  | condition (on? : Option Syntax.Id) (truthy? falsy? : Option NodeId) (truthFirst : Bool)
deriving DecidableEq

namespace Node

-- The number of outgoing edges of a node that is fully wired.
def quota : Node → Nat
  | start _ | block .. => 1
  | finish             => 0
  | condition ..       => 2

-- The wired edges, the truthy one before the falsy one.
def successors : Node → List (EdgeLabel × NodeId)
  | start next? | block _ next? _   => next?.toList.map (EdgeLabel.next, ·)
  | finish                          => []
  | condition _ truthy? falsy? _    =>
    truthy?.toList.map (EdgeLabel.branch .truthy, ·)
      ++ falsy?.toList.map (EdgeLabel.branch .falsy, ·)

def isFullyWired (node : Node) : Bool :=
  node.successors.length = node.quota

def isBlock : Node → Bool
  | block .. => true
  | _        => false

def isCondition : Node → Bool
  | condition .. => true
  | _            => false

def positions : Node → List Syntax.Id
  | block positions .. => positions
  | _                  => []

-- Where a branch of a condition leads.
def target? : Node → Branch → Option NodeId
  | condition _ truthy? _ _, .truthy => truthy?
  | condition _ _ falsy? _,  .falsy  => falsy?
  | _,                       _       => none

-- The branch of a condition that a plain edge fills next.
def immediate? : Node → Option Branch
  | node@(condition _ _ _ truthFirst) =>
    let first := Branch.ofValue truthFirst
    [first, first.other].find? fun branch => (node.target? branch).isNone
  | _ => none

end Node

structure Graph where
  nodes : Array Node := #[]
deriving DecidableEq, Inhabited

namespace Graph

def size (g : Graph) : Nat :=
  g.nodes.size

def node? (g : Graph) (id : NodeId) : Option Node :=
  g.nodes[id.index]?

-- All ids of the graph, in the order in which the nodes were made.
def ids (g : Graph) : List NodeId :=
  (List.range g.size).map NodeId.mk

-- The id that the next node will get.
def nextId (g : Graph) : NodeId :=
  ⟨g.size⟩

def push (g : Graph) (node : Node) : Graph where
  nodes := g.nodes.push node

def set (g : Graph) (id : NodeId) (node : Node) : Graph where
  nodes := g.nodes.setIfInBounds id.index node

@[simp]
theorem size_push (g : Graph) (node : Node) : (g.push node).size = g.size + 1 := by
  simp [push, size]

@[simp]
theorem size_set (g : Graph) (id : NodeId) (node : Node) : (g.set id node).size = g.size := by
  simp [set, size]

theorem node?_push (g : Graph) (node : Node) (id : NodeId) :
    (g.push node).node? id = if id = g.nextId then some node else g.node? id := by
  simp [push, node?, nextId, size, Array.getElem?_push, NodeId.ext_iff]

theorem node?_set (g : Graph) (i id : NodeId) (node : Node) :
    (g.set i node).node? id = if i = id ∧ i.index < g.size then some node else g.node? id := by
  simp only [set, node?, size, Array.getElem?_setIfInBounds, NodeId.ext_iff]
  split <;> split <;> simp_all

-- Wires a given branch of a condition.
def wireBranch (g : Graph) (source : NodeId) (branch : Branch) (target : NodeId) :
    Except Error Graph :=
  match g.node? target, g.node? source with
  | none,   _         => .error (.unknownFlowNode target)
  | some _, none      => .error (.unknownFlowNode source)
  | some _, some node =>
    match node, branch with
    | .condition on? none falsy? first,  .truthy =>
      .ok (g.set source (.condition on? (some target) falsy? first))
    | .condition on? truthy? none first, .falsy  =>
      .ok (g.set source (.condition on? truthy? (some target) first))
    | _, _ => .error (.edgeQuotaExceeded source node.quota)

-- Wires the next free slot of a node. A condition fills the edge named by its flag first.
def wire (g : Graph) (source target : NodeId) : Except Error Graph :=
  match g.node? target, g.node? source with
  | none,   _         => .error (.unknownFlowNode target)
  | some _, none      => .error (.unknownFlowNode source)
  | some _, some node =>
    match node, node.immediate? with
    | .start none, _                    => .ok (g.set source (.start (some target)))
    | .block positions none inverted, _ =>
      .ok (g.set source (.block positions (some target) inverted))
    | .condition .., some branch        => g.wireBranch source branch target
    | _, _                              => .error (.edgeQuotaExceeded source node.quota)

-- Steps that may fail. What a step did before it failed stays done.
abbrev Build := ExceptT Error (StateM Graph)

namespace Build

def node (node : Node) : Build NodeId :=
  modifyGet fun g => (g.nextId, g.push node)

def start : Build NodeId :=
  node (.start none)

def finish : Build NodeId :=
  node .finish

-- A block that nothing leads to yet.
def freshBlock : Build NodeId :=
  node (.block [] none false)

-- Runs a step that either fails or answers the next graph.
def step (f : Graph → Except Error Graph) : Build Unit :=
  ExceptT.mk fun g =>
    match f g with
    | .ok g'   => (.ok (), g')
    | .error e => (.error e, g)

def wire (source target : NodeId) : Build Unit :=
  step (·.wire source target)

def wireBranch (source : NodeId) (branch : Branch) (target : NodeId) : Build Unit :=
  step (·.wireBranch source branch target)

-- A new block after `source`.
def block (source : NodeId) : Build NodeId := do
  let block ← freshBlock
  wire source block
  return block

-- The condition that decides on the last position of the block `source`; a condition is its own.
-- The flag of the block is spent: it swaps the edge that is filled first.
def promote (source : NodeId) (truthFirst : Bool) : Build NodeId := do
  match (← get).node? source with
  | none                                   => throw (.unknownFlowNode source)
  | some (.condition ..)                   => return source
  | some (.start _) | some .finish         => throw (.notPromotable source)
  | some (.block positions next? inverted) =>
    modify (·.set source (.block positions next? false))
    let condition ← node (.condition positions.getLast? none none (truthFirst != inverted))
    wire source condition
    return condition

end Build

-- Turns the flag of a block around; other nodes have none and stay as they are.
def invert (g : Graph) (id : NodeId) : Except Error Graph :=
  match g.node? id with
  | none                                   => .error (.unknownFlowNode id)
  | some (.block positions next? inverted) => .ok (g.set id (.block positions next? !inverted))
  | some _                                 => .ok g

def isInverted (g : Graph) (id : NodeId) : Bool :=
  match g.node? id with
  | some (.block _ _ inverted) => inverted
  | _                          => false

-- Appends a position to a block. The flag speaks of the position it was set after, so it is
-- cleared.
def record (g : Graph) (id : NodeId) (position : Syntax.Id) : Except Error Graph :=
  match g.node? id with
  | none                            => .error (.unknownFlowNode id)
  | some (.block positions next? _) => .ok (g.set id (.block (positions ++ [position]) next? false))
  | some _                          => .error (.notPromotable id)

-- Makes a condition forget the position it decides on.
def forget (g : Graph) (id : NodeId) : Except Error Graph :=
  match g.node? id with
  | none                                     => .error (.unknownFlowNode id)
  | some (.condition _ truthy? falsy? first) =>
    .ok (g.set id (.condition none truthy? falsy? first))
  | some _                                   => .ok g

-- What follows a start node or a block.
def next? (g : Graph) (id : NodeId) : Option NodeId :=
  match g.node? id with
  | some (.start next?) | some (.block _ next? _) => next?
  | _                                             => none

def successors (g : Graph) (id : NodeId) : List (EdgeLabel × NodeId) :=
  (g.node? id).elim [] Node.successors

def predecessors (g : Graph) (id : NodeId) : List NodeId :=
  g.ids.filter fun source => (g.successors source).any (·.2 = id)

def edges (g : Graph) : List Edge :=
  g.ids.flatMap fun source => (g.successors source).map fun (label, target) =>
    { source, label, target }

end Graph
end RoutineFlow.Flow
