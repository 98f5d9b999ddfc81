import RoutineFlow.Syntax.Kind
import RoutineFlow.Syntax.Span

-- The syntax tree: an arena of nodes that grows at its end. Adding a node makes it the parent of
-- every part it names that is already there. So a parent always comes after its child, which is why
-- every walk towards the root ends, whatever ids the nodes were given.

namespace RoutineFlow.Syntax

structure Node where
  kind    : Kind
  parent? : Option Id := none
  span    : Span := {}
deriving DecidableEq

-- Makes `parent` the parent of each of `children` that exists.
def adopt (nodes : Array Node) (parent : Id) (children : List Id) : Array Node :=
  children.foldl
    (fun nodes child => nodes.modify child.index fun node => { node with parent? := some parent })
    nodes

@[simp]
theorem size_adopt (nodes : Array Node) (parent : Id) (children : List Id) :
    (adopt nodes parent children).size = nodes.size := by
  induction children generalizing nodes with
  | nil => rfl
  | cons c cs ih => simpa [adopt] using ih (nodes.modify c.index _)

theorem getElem?_adopt (nodes : Array Node) (parent : Id) (children : List Id) (i : Nat) :
    (adopt nodes parent children)[i]? = nodes[i]?.map fun node =>
      if ⟨i⟩ ∈ children then { node with parent? := some parent } else node := by
  induction children generalizing nodes with
  | nil => simp [adopt]
  | cons c cs ih =>
    have := ih (nodes.modify c.index fun node => { node with parent? := some parent })
    simp only [adopt, List.foldl_cons] at this ⊢
    rw [this, Array.getElem?_modify]
    by_cases hc : c = ⟨i⟩
    · subst hc
      by_cases hm : ⟨i⟩ ∈ cs <;> cases nodes[i]? <;> simp [hm]
    · have : c.index ≠ i := fun h => hc (Id.ext h)
      by_cases hm : ⟨i⟩ ∈ cs <;> cases nodes[i]? <;> simp [hm, this, Ne.symm hc]

-- Every parent lies after its child.
def ParentsAbove (nodes : Array Node) : Prop :=
  ∀ (i : Nat) (node : Node) (p : Id),
    nodes[i]? = some node → node.parent? = some p → i < p.index

theorem ParentsAbove.push_adopt {nodes : Array Node} (h : ParentsAbove nodes) (kind : Kind)
    (span : Span) :
    ParentsAbove ((adopt nodes ⟨nodes.size⟩ kind.children).push { kind, span }) := by
  intro i node p hi hp
  rw [Array.getElem?_push, size_adopt, getElem?_adopt] at hi
  split at hi
  · cases hi; simp at hp
  · obtain ⟨n, hn, rfl⟩ := Option.map_eq_some_iff.1 hi
    obtain ⟨hlt, -⟩ := Array.getElem?_eq_some_iff.1 hn
    split at hp
    · cases hp; exact hlt
    · exact h i n p hn hp

structure Tree where
  nodes        : Array Node
  parentsAbove : ParentsAbove nodes

namespace Tree

def empty : Tree where
  nodes        := #[]
  parentsAbove := by simp [ParentsAbove]

instance : Inhabited Tree := ⟨empty⟩

def size (t : Tree) : Nat :=
  t.nodes.size

def get? (t : Tree) (id : Id) : Option Node :=
  t.nodes[id.index]?

def kind? (t : Tree) (id : Id) : Option Kind :=
  (t.get? id).map (·.kind)

def span? (t : Tree) (id : Id) : Option Span :=
  (t.get? id).map (·.span)

def parent? (t : Tree) (id : Id) : Option Id :=
  (t.get? id).bind (·.parent?)

theorem lt_of_parent? {t : Tree} {id p : Id} (h : t.parent? id = some p) : id.index < p.index := by
  obtain ⟨node, hn, hp⟩ := Option.bind_eq_some_iff.1 h
  exact t.parentsAbove _ node p hn hp

theorem lt_size_of_parent? {t : Tree} {id p : Id} (h : t.parent? id = some p) :
    id.index < t.size := by
  obtain ⟨node, hn, -⟩ := Option.bind_eq_some_iff.1 h
  exact (Array.getElem?_eq_some_iff.1 hn).1

-- All ids of the tree, in the order in which the nodes were added.
def ids (t : Tree) : List Id :=
  (List.range t.size).map Id.mk

-- The id that the next node will get.
def nextId (t : Tree) : Id :=
  ⟨t.size⟩

-- Appends a node, linking the parts that exist back to it.
def add (t : Tree) (kind : Kind) (span : Span := {}) : Tree where
  nodes        := (adopt t.nodes t.nextId kind.children).push { kind, span }
  parentsAbove := t.parentsAbove.push_adopt kind span

@[simp]
theorem size_add (t : Tree) (kind : Kind) (span : Span) : (t.add kind span).size = t.size + 1 := by
  simp [add, size]

-- The parents of a node, nearest first.
def above (t : Tree) (id : Id) : List Id :=
  match h : t.parent? id with
  | none   => []
  | some p =>
    have := lt_of_parent? h
    have := lt_size_of_parent? h
    p :: t.above p
termination_by t.size - id.index

-- A node of the tree followed by its parents up to the root.
def ancestors (t : Tree) (id : Id) : List Id :=
  if (t.get? id).isSome then id :: t.above id else []

-- Whether the node exists and its range covers the position.
def covers (t : Tree) (line column : Nat) (id : Id) : Bool :=
  (t.span? id).any (·.contains line column)

-- Goes down to the first part that covers the position, as long as there is one. Parts that come
-- after their parent are passed over, so the walk ends.
def descend (t : Tree) (line column : Nat) (id : Id) : Id :=
  match h : ((t.kind? id).elim [] Kind.children).find? fun child =>
      child.index < id.index && t.covers line column child with
  | none       => id
  | some child =>
    have : child.index < id.index := by
      have := List.find?_some h
      simp_all
    t.descend line column child
termination_by id.index

-- The innermost node around a position, in the first root that covers it.
def nodeAt? (t : Tree) (line column : Nat) : Option Id :=
  (t.ids.find? fun id => (t.parent? id).isNone && t.covers line column id).map
    (t.descend line column)

-- Every routine with its name, in the order in which they were added.
def routines (t : Tree) : List (Id × String) :=
  t.ids.filterMap fun id =>
    match t.kind? id with
    | some (.routine name _) => some (id, name)
    | _                      => none

def findRoutine? (t : Tree) (name : String) : Option Id :=
  (t.routines.find? (·.2 = name)).map (·.1)

-- The label of a node; an id that names no node is shown behind a question mark.
def describe (t : Tree) (id : Id) : String :=
  match t.kind? id with
  | some kind => kind.label
  | none      => "?" ++ id.label

end Tree
end RoutineFlow.Syntax
