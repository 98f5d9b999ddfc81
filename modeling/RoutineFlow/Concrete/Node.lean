import RoutineFlow.Concrete.Rule

namespace RoutineFlow.Concrete

-- A node without its children.
structure Row where
  kind      : String
  -- Tokens that stand for themselves have no name.
  named     : Bool := true
  isError   : Bool := false
  -- The grammar asked for the node and the text does not have it.
  isMissing : Bool := false
  -- There is an error here or below.
  hasError  : Bool := false
  -- The part that the node plays in its parent.
  field?    : Option String := none
  startByte : Nat := 0
  endByte   : Nat := 0
deriving DecidableEq, Inhabited

inductive Node
  | mk (row : Row) (children : List Node)
deriving Inhabited

namespace Node

def row : Node → Row
  | mk row _ => row

def children : Node → List Node
  | mk _ children => children

def kind (n : Node) : String :=
  n.row.kind

def rule (n : Node) : Rule :=
  .ofName n.kind

mutual

-- The number of nodes on the longest way down.
def height : Node → Nat
  | mk _ children => heightBelow children + 1

def heightBelow : List Node → Nat
  | []      => 0
  | n :: ns => max n.height (heightBelow ns)

end

theorem height_le_heightBelow {n : Node} {ns : List Node} (h : n ∈ ns) :
    n.height ≤ heightBelow ns := by
  induction ns with
  | nil => cases h
  | cons m ms ih =>
    rcases List.mem_cons.1 h with rfl | h
    · exact Nat.le_max_left ..
    · exact Nat.le_trans (ih h) (Nat.le_max_right ..)

theorem height_lt_of_mem {c n : Node} (h : c ∈ n.children) : c.height < n.height := by
  obtain ⟨row, children⟩ := n
  rw [height]
  exact Nat.lt_succ_of_le (height_le_heightBelow h)

-- Whether an error is on the way through this node.
def suspect (n : Node) : Bool :=
  n.row.hasError || n.row.isMissing

mutual

-- The first node, in the order of the text, that is an error or missing. Only nodes that are
-- marked to hold an error are looked into.
def firstError? : Node → Option Node
  | mk row children =>
    if row.isError || row.isMissing then some (mk row children) else firstErrorAmong? children

def firstErrorAmong? : List Node → Option Node
  | []      => none
  | n :: ns =>
    if n.suspect then
      match n.firstError? with
      | some e => some e
      | none   => firstErrorAmong? ns
    else
      firstErrorAmong? ns

end

-- Puts a node before the children of its parent found so far, or at the root.
def hang (node : Node) (parent? : Option Nat) : Array (List Node) × Option Node →
    Array (List Node) × Option Node
  | (below, root?) =>
    match parent? with
    | some parent => (below.modify parent (node :: ·), root?)
    | none        => (below, some node)

-- The tree of a list of rows in preorder, each with the place of its parent in the list. Rows are
-- taken from the last to the first, so that each finds its children complete.
def ofRows? (rows : List (Option Nat × Row)) : Option Node :=
  (rows.zipIdx.foldr
    (fun ((parent?, row), i) (below, root?) =>
      hang (mk row (below[i]?.getD [])) parent? (below, root?))
    (Array.replicate rows.length [], none)).2

end Node

-- A node together with the node that holds it.
structure Cursor where
  node    : Node
  parent? : Option Node := none

namespace Cursor

variable (c : Cursor)

def rule : Rule :=
  c.node.rule

def children : List Cursor :=
  c.node.children.map ({ node := ·, parent? := some c.node })

-- The named children, without comments.
def namedChildren : List Cursor :=
  c.children.filter fun child => child.node.row.named && child.rule != .comment

def firstNamed? : Option Cursor :=
  c.namedChildren.head?

-- All children that play a part.
def fieldAll (name : String) : List Cursor :=
  c.children.filter (·.node.row.field? = some name)

-- The first child that plays a part.
def field? (name : String) : Option Cursor :=
  (c.fieldAll name).head?

variable {c}

theorem node_mem_of_mem_children {d : Cursor} (h : d ∈ c.children) : d.node ∈ c.node.children := by
  obtain ⟨n, hn, rfl⟩ := List.mem_map.1 h
  exact hn

theorem height_lt_of_field? {d : Cursor} (h : c.field? name = some d) :
    d.node.height < c.node.height :=
  Node.height_lt_of_mem <| node_mem_of_mem_children
    (List.mem_filter.1 (List.mem_of_head? h)).1

end Cursor
end RoutineFlow.Concrete
