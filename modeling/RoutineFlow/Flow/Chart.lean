import RoutineFlow.Flow.Summary
import RoutineFlow.Syntax.Tree

namespace RoutineFlow.Flow

open Syntax (Tree)

namespace Chart

-- Labels stand between double quotes, so a double quote inside is written by its entity name.
def escape (label : String) : String :=
  .join (label.toList.map fun c => if c = '\x22' then "#quot;" else c.toString)

-- How many positions of a block its label shows.
def shownPositions : Nat := 4

-- The first positions of a block; an ellipsis says that there are more.
def blockLabel (t : Tree) (positions : List Syntax.Id) : String :=
  "; ".intercalate <|
    (positions.take shownPositions).map t.describe
      ++ if positions.length > shownPositions then ["..."] else []

-- The label of a node between the brackets of its shape.
def shape (t : Tree) : Node → String
  | .start _                   => "([Start])"
  | .finish                    => "([End])"
  | .block positions _ _       => "[\"" ++ escape (blockLabel t positions) ++ "\"]"
  | .condition on? _ _ _       => "\x7b\x7b\"" ++ escape (on?.elim "" t.describe) ++ "\"\x7d\x7d"

def nodeLine (t : Tree) (id : NodeId) (node : Node) : String :=
  "    " ++ id.label ++ shape t node

def arrow : EdgeLabel → String
  | .next     => " --> "
  | .branch b => " -->|" ++ b.label ++ "| "

def edgeLine (e : Edge) : String :=
  "    " ++ e.source.label ++ arrow e.label ++ e.target.label

def lines (t : Tree) (g : Graph) : List String :=
  "flowchart TD"
    :: g.ids.filterMap (fun id => (g.node? id).map (nodeLine t id))
    ++ g.edges.map edgeLine

end Chart

-- The graph as a chart whose nodes are labelled from the tree.
def Summary.chart (s : Summary) (t : Tree) : String :=
  "\n".intercalate (Chart.lines t s.graph)

end RoutineFlow.Flow
