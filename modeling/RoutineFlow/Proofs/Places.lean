import Mathlib.Data.List.Flatten
import Mathlib.Data.List.Perm.Subperm
import RoutineFlow.Lowering.Statement
import RoutineFlow.Proofs.Rows

-- The places of a concrete syntax tree that lowering goes into, as a table: what a row is taken
-- for, and what its children are taken for in turn. All other rows are left out.

namespace RoutineFlow

namespace Concrete

-- The row of a tree, and all below it.
def Node.rows (top : Node) : List Node :=
  top.standings.map (·.node)

theorem Node.standingsFrom_map_node (top : Node) (base : List Node) :
    (top.standingsFrom base).map (·.node) = top.rows := by
  have ⟨row, children⟩ := top
  rw [rows, standings, standingsFrom, standingsFrom, standingsBelow_eq, standingsBelow_eq,
    List.map_cons, List.map_cons, List.map_flatMap, List.map_flatMap]
  refine congrArg _ (List.flatMap_congr fun n hn => ?_)
  have : n.height < (mk row children).height := height_lt_of_mem hn
  rw [n.standingsFrom_map_node, n.standingsFrom_map_node]
termination_by top.height

theorem Node.rows_eq (top : Node) : top.rows = top :: top.children.flatMap rows := by
  have ⟨row, children⟩ := top
  rw [rows, standings, standingsFrom, standingsBelow_eq, List.map_cons, List.map_flatMap]
  exact congrArg _ (List.flatMap_congr fun n _ => n.standingsFrom_map_node _)

namespace Cursor

variable {c : Cursor}

theorem namedChildren_sublist (c : Cursor) : c.namedChildren.Sublist c.children :=
  List.filter_sublist

theorem fieldAll_sublist (c : Cursor) (name : String) : (c.fieldAll name).Sublist c.children :=
  List.filter_sublist

end Cursor
end Concrete

namespace Lowering

open Concrete (Node Cursor Rule)

-- What a row is taken for.
inductive Mode
  | expression
  | statement
  -- In the header of a `for`.
  | clause
  -- Holds statements.
  | block
  -- Of a function: a block, or an expression.
  | body
  -- After `else`.
  | alternative
  -- Of a `try`: what handles the error, or comes last.
  | handler
  -- The body of a `switch`, and what it holds.
  | cases
  | case
  -- The body of a class, and what it holds.
  | members
  | member
  | declarator
  | callee
  | arguments
deriving DecidableEq

structure Place where
  mode   : Mode
  cursor : Cursor

-- All children that play the given parts.
def playingAll (c : Cursor) (parts : List (String × Mode)) : List Place :=
  parts.flatMap fun (name, mode) => (c.fieldAll name).map (Place.mk mode)

-- The first child for each of the given parts.
def playing (c : Cursor) (parts : List (String × Mode)) : List Place :=
  parts.flatMap fun (name, mode) => (c.field? name).toList.map (Place.mk mode)

def declarators (c : Cursor) : List Place :=
  (c.namedChildren.filter (·.rule = .variableDeclarator)).map (Place.mk .declarator)

def staticParts (c : Cursor) : List Place :=
  (c.field? "body" <|> c.namedChildren.find? (·.rule = .statementBlock)).toList.map
    (Place.mk .block)

def expressionParts (c : Cursor) : List Place :=
  match c.rule with
  | .parenthesized | .await | .spread | .yield | .nonNull =>
    c.firstNamed?.toList.map (Place.mk .expression)
  | .binary | .assignment | .augmentedAssignment =>
    playing c [("left", .expression), ("right", .expression)]
  | .unary           => playing c [("argument", .expression)]
  | .ternary         => playing c
    [("condition", .expression), ("consequence", .expression), ("alternative", .expression)]
  | .call            => playing c [("function", .callee), ("arguments", .arguments)]
  | .new             => playing c [("arguments", .arguments)]
  | .subscript       => playing c [("object", .expression), ("index", .expression)]
  | .typeCast        => c.namedChildren[0]?.toList.map (Place.mk .expression)
  | .typeAssertion   => c.namedChildren[1]?.toList.map (Place.mk .expression)
  | .sequence        =>
    (if c.node.row.named then c.namedChildren else []).map (Place.mk .clause)
  | .function        => playing c [("body", .body)]
  | .classExpression => playing c [("body", .members)]
  | _                => []

def statementParts (c : Cursor) : List Place :=
  match c.rule with
  | .statementBlock      => c.namedChildren.map (Place.mk .statement)
  | .staticBlock         => staticParts c
  | .expressionStatement | .returnStatement | .throwStatement =>
    c.firstNamed?.toList.map (Place.mk .expression)
  | .declaration         => declarators c
  | .ifStatement         => playing c
    [("condition", .expression), ("consequence", .statement), ("alternative", .alternative)]
  | .whileStatement      => playing c [("condition", .expression), ("body", .statement)]
  | .doStatement         => playing c [("body", .statement), ("condition", .expression)]
  | .forStatement        =>
    playingAll c [("initializer", .clause), ("condition", .clause), ("increment", .clause)]
      ++ playing c [("body", .statement)]
  | .forInStatement      => playing c [("right", .expression), ("body", .statement)]
  | .tryStatement        =>
    playing c [("body", .block), ("handler", .handler), ("finalizer", .handler)]
  | .switchStatement     => playing c [("value", .expression), ("body", .cases)]
  | .functionDeclaration => playing c [("body", .body)]
  | .classDeclaration    => playing c [("body", .members)]
  | .exportStatement     => playing c [("declaration", .statement)]
  | .labeledStatement    => playing c [("body", .statement)]
  | _                    => expressionParts c

def clauseParts (c : Cursor) : List Place :=
  if c.node.row.named then
    match c.rule with
    | .declaration                     => declarators c
    | .expressionStatement | .sequence => c.namedChildren.map (Place.mk .clause)
    | _                                => expressionParts c
  else
    []

def bodyParts (c : Cursor) : List Place :=
  if c.rule = .statementBlock then c.namedChildren.map (Place.mk .statement) else expressionParts c

def alternativeParts (c : Cursor) : List Place :=
  if c.rule = .elseClause then
    c.firstNamed?.toList.map (Place.mk .statement)
  else
    statementParts c

def memberParts (c : Cursor) : List Place :=
  match c.rule with
  | .method      => playing c [("body", .body)]
  | .staticBlock => staticParts c
  | .field       => playing c [("value", .expression)]
  | _            => []

def calleeParts (c : Cursor) : List Place :=
  match c.rule with
  | .identifier => []
  | .member     => playing c [("object", .expression)]
  | _           => expressionParts c

def argumentParts (c : Cursor) : List Place :=
  if c.rule = .arguments then c.namedChildren.map (Place.mk .expression) else expressionParts c

namespace Place

-- The places right below that lowering goes into.
def parts (p : Place) : List Place :=
  match p.mode with
  | .expression  => expressionParts p.cursor
  | .statement   => statementParts p.cursor
  | .clause      => clauseParts p.cursor
  | .block       => p.cursor.namedChildren.map (mk .statement)
  | .body        => bodyParts p.cursor
  | .alternative => alternativeParts p.cursor
  | .handler     => playing p.cursor [("body", .block)]
  | .cases       => p.cursor.namedChildren.map (mk .case)
  | .case        => (p.cursor.fieldAll "body").map (mk .statement)
  | .members     => p.cursor.namedChildren.map (mk .member)
  | .member      => memberParts p.cursor
  | .declarator  => playing p.cursor [("value", .expression)]
  | .callee      => calleeParts p.cursor
  | .arguments   => argumentParts p.cursor

-- Whether the row becomes a routine where it stands.
def isRoutine (p : Place) : Bool :=
  match p.mode with
  | .expression | .body | .callee | .arguments => p.cursor.rule = .function
  | .statement | .alternative                  =>
    p.cursor.rule = .function || p.cursor.rule = .functionDeclaration
  | .clause                                    =>
    p.cursor.rule = .function && p.cursor.node.row.named
  | .member                                    => p.cursor.rule = .method
  | .block | .handler | .cases | .case | .members | .declarator => false

end Place

variable {c : Cursor} {p q r : Place}

-- Children that play different parts are different ones.
theorem flatMap_field_subperm {parts : List String} (hn : parts.Nodup) (cs : List Cursor) :
    (parts.flatMap fun part => cs.filter (·.node.row.field? = some part)).Subperm cs := by
  induction parts generalizing cs
  case nil => exact List.nil_subperm
  case cons part parts ih =>
    have ⟨hp, hn⟩ := List.nodup_cons.mp hn
    have he : ∀ part' ∈ parts, cs.filter (·.node.row.field? = some part') =
        (cs.filter fun d => !decide (d.node.row.field? = some part)).filter
          (·.node.row.field? = some part') := by
      intro part' hm
      rw [List.filter_filter]
      refine List.filter_congr fun d _ => ?_
      have hne : part ≠ part' := fun h => hp (h ▸ hm)
      by_cases hd : d.node.row.field? = some part'
      all_goals simp [hd, hne.symm]
    rw [List.flatMap_cons, List.flatMap_congr he]
    exact ((List.Subperm.refl _).append (ih hn _)).trans (List.filter_append_perm _ cs).subperm

theorem playingAll_map (c : Cursor) (parts : List (String × Mode)) :
    (playingAll c parts).map (·.cursor) = (parts.map (·.1)).flatMap c.fieldAll := by
  simp [playingAll, List.map_flatMap, List.flatMap_map, Function.comp_def]

theorem playing_sublist (c : Cursor) (parts : List (String × Mode)) :
    ((playing c parts).map (·.cursor)).Sublist ((parts.map (·.1)).flatMap c.fieldAll) := by
  induction parts
  case nil => exact .slnil
  case cons part parts ih =>
    have hf : (c.field? part.1).toList.Sublist (c.fieldAll part.1) := by
      rw [Cursor.field?]
      cases c.fieldAll part.1
      case nil  => exact .slnil
      case cons => exact (List.nil_sublist _).cons_cons _
    simpa [playing, Function.comp_def] using hf.append ih

theorem playing_subperm {parts : List (String × Mode)} (hn : (parts.map (·.1)).Nodup) :
    ((playing c parts).map (·.cursor)).Subperm c.children :=
  (playing_sublist c parts).subperm.trans (flatMap_field_subperm hn _)

theorem mk_subperm {cs : List Cursor} {mode : Mode} (h : cs.Sublist c.children) :
    ((cs.map (Place.mk mode)).map (·.cursor)).Subperm c.children := by
  simpa [Function.comp_def] using h.subperm

theorem toList_sublist {cs : List Cursor} {d? : Option Cursor} (h : ∀ d ∈ d?, d ∈ cs) :
    d?.toList.Sublist cs := by
  cases d?
  case none   => exact List.nil_sublist _
  case some d => exact List.singleton_sublist.mpr (h d rfl)

theorem firstNamed_sublist (c : Cursor) : c.firstNamed?.toList.Sublist c.children :=
  toList_sublist fun _ => Cursor.mem_children_of_firstNamed?

theorem declarators_subperm (c : Cursor) :
    ((declarators c).map (·.cursor)).Subperm c.children :=
  mk_subperm (List.filter_sublist.trans c.namedChildren_sublist)

theorem staticParts_subperm (c : Cursor) : ((staticParts c).map (·.cursor)).Subperm c.children := by
  refine mk_subperm (toList_sublist fun d hd => ?_)
  cases hf : c.field? "body"
  case some e =>
    rw [hf] at hd
    cases hd
    exact Cursor.mem_children_of_field? hf
  case none =>
    rw [hf] at hd
    exact (c.namedChildren_sublist).subset (List.mem_of_find?_eq_some hd)

theorem expressionParts_subperm (c : Cursor) :
    ((expressionParts c).map (·.cursor)).Subperm c.children := by
  have hi (i : Nat) : c.namedChildren[i]?.toList.Sublist c.children :=
    toList_sublist fun d hd => (c.namedChildren_sublist).subset (List.mem_of_getElem? hd)
  unfold expressionParts
  cases hr : c.rule
  case parenthesized | await | spread | yield | nonNull => exact mk_subperm (firstNamed_sublist c)
  case typeCast | typeAssertion                         => exact mk_subperm (hi _)
  case sequence                                         =>
    dsimp only
    split
    case isTrue  => exact mk_subperm c.namedChildren_sublist
    case isFalse => exact List.nil_subperm
  case binary | assignment | augmentedAssignment | unary | ternary | call | new | subscript
      | function | classExpression                      => exact playing_subperm (by decide)
  all_goals exact List.nil_subperm

theorem statementParts_subperm (c : Cursor) :
    ((statementParts c).map (·.cursor)).Subperm c.children := by
  unfold statementParts
  cases hr : c.rule
  case statementBlock => exact mk_subperm c.namedChildren_sublist
  case staticBlock    => exact staticParts_subperm c
  case declaration    => exact declarators_subperm c
  case expressionStatement | returnStatement | throwStatement =>
    exact mk_subperm (firstNamed_sublist c)
  case forStatement   =>
    have hb := playing_sublist c [("body", .statement)]
    have hc : (["initializer", "condition", "increment"] ++ ["body"]).Nodup := by decide
    have hs := flatMap_field_subperm hc c.children
    rw [List.flatMap_append] at hs
    rw [List.map_append, playingAll_map]
    exact ((List.Sublist.refl _).append hb).subperm.trans hs
  case ifStatement | whileStatement | doStatement | forInStatement | tryStatement | switchStatement
      | functionDeclaration | classDeclaration | exportStatement | labeledStatement =>
    exact playing_subperm (by decide)
  all_goals exact expressionParts_subperm c

theorem clauseParts_subperm (c : Cursor) :
    ((clauseParts c).map (·.cursor)).Subperm c.children := by
  unfold clauseParts
  split
  case isFalse => exact List.nil_subperm
  case isTrue  =>
    cases hr : c.rule
    case declaration                    => exact declarators_subperm c
    case expressionStatement | sequence => exact mk_subperm c.namedChildren_sublist
    all_goals exact expressionParts_subperm c

theorem memberParts_subperm (c : Cursor) :
    ((memberParts c).map (·.cursor)).Subperm c.children := by
  unfold memberParts
  cases hr : c.rule
  case method | field => exact playing_subperm (by decide)
  case staticBlock    => exact staticParts_subperm c
  all_goals exact List.nil_subperm

theorem calleeParts_subperm (c : Cursor) :
    ((calleeParts c).map (·.cursor)).Subperm c.children := by
  unfold calleeParts
  cases hr : c.rule
  case identifier => exact List.nil_subperm
  case member     => exact playing_subperm (by decide)
  all_goals exact expressionParts_subperm c

-- Lowering never takes one row for two things.
theorem Place.parts_subperm (p : Place) :
    (p.parts.map (·.cursor)).Subperm p.cursor.children := by
  have named (mode : Mode) :
      ((p.cursor.namedChildren.map (mk mode)).map (·.cursor)).Subperm p.cursor.children :=
    mk_subperm p.cursor.namedChildren_sublist
  unfold parts
  cases p.mode
  case expression              => exact expressionParts_subperm _
  case statement               => exact statementParts_subperm _
  case clause                  => exact clauseParts_subperm _
  case member                  => exact memberParts_subperm _
  case callee                  => exact calleeParts_subperm _
  case block | cases | members => exact named _
  case case                    => exact mk_subperm (p.cursor.fieldAll_sublist "body")
  case handler | declarator    => exact playing_subperm (by decide)
  case body                    =>
    dsimp only [bodyParts]
    split
    case isTrue  => exact named _
    case isFalse => exact expressionParts_subperm _
  case alternative             =>
    dsimp only [alternativeParts]
    split
    case isTrue  => exact mk_subperm (firstNamed_sublist _)
    case isFalse => exact statementParts_subperm _
  case arguments               =>
    dsimp only [argumentParts]
    split
    case isTrue  => exact named _
    case isFalse => exact expressionParts_subperm _

theorem Place.height_lt_of_mem_parts (h : q ∈ p.parts) :
    q.cursor.node.height < p.cursor.node.height :=
  Node.height_lt_of_mem <| Cursor.node_mem_of_mem_children <|
    p.parts_subperm.subset (List.mem_map_of_mem h)

-- All places at and below one that lowering goes into, in the order in which it leaves them.
def Place.shown (p : Place) : List Place :=
  p.parts.attach.flatMap (fun q => q.val.shown) ++ [p]
termination_by p.cursor.node.height
decreasing_by exact height_lt_of_mem_parts q.property

theorem Place.shown_eq (p : Place) : p.shown = p.parts.flatMap Place.shown ++ [p] := by
  have ha : p.parts.attach.flatMap (fun q => q.val.shown) =
      (p.parts.attach.map Subtype.val).flatMap Place.shown := (List.flatMap_map ..).symm
  rw [Place.shown, ha, List.attach_map_subtype_val]

-- The places of a program that lowering goes into.
def shown (root : Node) : List Place :=
  Place.shown ⟨.block, { node := root }⟩

-- Lowering goes into the root, and from a place that it goes into to the parts of that place.
inductive Shown (root : Node) : Place → Prop
  | root                        : Shown root ⟨.block, { node := root }⟩
  | part {place part : Place}   : Shown root place → part ∈ place.parts → Shown root part

theorem Place.mem_shown_self (p : Place) : p ∈ p.shown := by
  rw [shown_eq]
  exact List.mem_append_right _ (.head _)

theorem Place.mem_shown_part {p q r : Place} (h : p ∈ r.shown) (hq : q ∈ p.parts) :
    q ∈ r.shown := by
  rw [shown_eq, List.mem_append, List.mem_flatMap, List.mem_singleton] at h ⊢
  refine .inl ?_
  cases h
  case inl h =>
    have ⟨s, hs, h⟩ := h
    have := height_lt_of_mem_parts hs
    exact ⟨s, hs, mem_shown_part h hq⟩
  case inr h =>
    subst h
    exact ⟨q, hq, q.mem_shown_self⟩
termination_by r.cursor.node.height

theorem Shown.of_mem {root : Node} {p q : Place} (h : Shown root p) (hq : q ∈ p.shown) :
    Shown root q := by
  rw [Place.shown_eq, List.mem_append, List.mem_flatMap, List.mem_singleton] at hq
  cases hq
  case inr hq => exact hq ▸ h
  case inl hq =>
    have ⟨r, hr, hq⟩ := hq
    have := Place.height_lt_of_mem_parts hr
    exact (h.part hr).of_mem hq
termination_by p.cursor.node.height

theorem mem_shown_iff {root : Node} : p ∈ shown root ↔ Shown root p := by
  constructor
  case mp  => exact Shown.root.of_mem
  case mpr =>
    intro h
    induction h
    case root       => exact Place.mem_shown_self _
    case part hq ih => exact Place.mem_shown_part ih hq

theorem flatMap_subperm {α β : Type} {as bs : List α} (h : as.Subperm bs) (f : α → List β) :
    (as.flatMap f).Subperm (bs.flatMap f) :=
  have ⟨_, hp, hs⟩ := h
  ⟨_, hp.flatMap_right f, hs.flatMap f⟩

theorem flatMap_subperm_of_forall {α β : Type} {as : List α} {f g : α → List β}
    (h : ∀ a ∈ as, (f a).Subperm (g a)) : (as.flatMap f).Subperm (as.flatMap g) := by
  induction as
  case nil         => exact List.nil_subperm
  case cons _ _ ih =>
    have ⟨ha, h⟩ := List.forall_mem_cons.mp h
    exact ha.append (ih h)

-- Lowering goes into no row twice.
theorem Place.shown_subperm (p : Place) :
    (p.shown.map (·.cursor.node)).Subperm p.cursor.node.rows := by
  have hq : ∀ q ∈ p.parts, (q.shown.map (·.cursor.node)).Subperm q.cursor.node.rows := fun q h =>
    have := height_lt_of_mem_parts h
    q.shown_subperm
  have hn : (p.parts.map (·.cursor.node)).Subperm p.cursor.node.children := by
    have ⟨_, hp, hs⟩ := p.parts_subperm
    have hn : List.Subperm _ _ := ⟨_, hp.map Cursor.node, hs.map Cursor.node⟩
    simpa [Cursor.children, Function.comp_def] using hn
  have hf := flatMap_subperm hn Node.rows
  rw [List.flatMap_map] at hf
  have hr := (List.subperm_cons p.cursor.node).mpr ((flatMap_subperm_of_forall hq).trans hf)
  rw [shown_eq, Node.rows_eq, List.map_append, List.map_flatMap]
  exact (List.perm_append_singleton ..).subperm.trans hr
termination_by p.cursor.node.height

theorem shown_subperm (root : Node) : ((shown root).map (·.cursor.node)).Subperm root.rows :=
  Place.shown_subperm _

end Lowering
end RoutineFlow
