import Mathlib.Data.List.Basic
import RoutineFlow.Flow.Chart
import RoutineFlow.Proofs.Analysis
import RoutineFlow.Syntax.Builder

-- Charts can be read back line by line, unless a label breaks a line. Double quotes in labels never
-- do any harm, for they are escaped; line breaks are not.

namespace RoutineFlow.Flow

open Syntax (Tree)

-- How a node is drawn.
inductive Figure
  | start
  | finish
  | block
  | condition
deriving DecidableEq

-- What the line of a node tells.
structure Declaration where
  id     : NodeId
  figure : Figure
  label  : String
deriving DecidableEq

namespace Figure

-- What stands on the two sides of the label.
def opening : Figure → String
  | start | finish => "(["
  | block          => "[\""
  | condition      => "\x7b\x7b\""

def closing : Figure → String
  | start | finish => "])"
  | block          => "\"]"
  | condition      => "\"\x7d\x7d"

end Figure

def Node.figure : Node → Figure
  | .start _      => .start
  | .finish       => .finish
  | .block ..     => .block
  | .condition .. => .condition

namespace Chart

variable {t : Tree} {id : NodeId} {node : Node} {g : Graph}

-- What the label of a node says, before its double quotes are escaped.
def said (t : Tree) : Node → String
  | .start _             => "Start"
  | .finish              => "End"
  | .block positions _ _ => blockLabel t positions
  | .condition on? _ _ _ => on?.elim "" t.describe

def linesOf (text : String) : List String :=
  (text.toList.splitOn '\n').map .ofList

-- What follows a mark at the front.
def after? (mark : String) (cs : List Char) : Option (List Char) :=
  if mark.toList <+: cs then some (cs.drop mark.toList.length) else none

def readId? (cs : List Char) : Option (NodeId × List Char) :=
  (after? "N" cs).map fun cs =>
    (⟨Nat.ofDigitChars 10 (cs.takeWhile Char.isDigit) 0⟩, cs.dropWhile Char.isDigit)

-- The label in front of `closing`, which begins at the first `stop` and ends the line.
def readLabel? (stop : Char) (closing : String) (cs : List Char) : Option String :=
  if cs.dropWhile (· ≠ stop) = closing.toList then
    some (.ofList (cs.takeWhile (· ≠ stop)))
  else
    none

def readFigure? : List Char → Option (Figure × String)
  | '(' :: '[' :: cs =>
    match readLabel? ']' "])" cs with
    | some "Start" => some (.start, "Start")
    | some "End"   => some (.finish, "End")
    | _            => none
  | '[' :: '\x22' :: cs => (readLabel? '\x22' "\"]" cs).map (.block, ·)
  | '\x7b' :: '\x7b' :: '\x22' :: cs => (readLabel? '\x22' "\"\x7d\x7d" cs).map (.condition, ·)
  | _ => none

-- The id that a line begins with, and what follows it.
def readFront? (line : String) : Option (NodeId × List Char) :=
  (after? "    " line.toList).bind readId?

def readDeclaration? (line : String) : Option Declaration := do
  let (id, cs) ← readFront? line
  let (figure, label) ← readFigure? cs
  return { id, figure, label }

def readArrow? (cs : List Char) : Option (EdgeLabel × List Char) :=
  [EdgeLabel.next, .branch .truthy, .branch .falsy].findSome? fun label =>
    (after? (arrow label) cs).map (label, ·)

def readEdge? (line : String) : Option Edge := do
  let (source, cs) ← readFront? line
  let (label, cs) ← readArrow? cs
  let (target, cs) ← readId? cs
  if cs = [] then some { source, label, target } else none

theorem after?_append (mark : String) (cs : List Char) :
    after? mark (mark.toList ++ cs) = some cs := by
  rw [after?, if_pos (List.prefix_append ..), List.drop_left]

theorem toList_label (id : NodeId) : id.label.toList = 'N' :: Nat.toDigits 10 id.index := by
  rw [NodeId.label]
  simp [toString]

-- An id ends where its digits end.
theorem readId?_label (id : NodeId) (cs : List Char) (h : ∀ c ∈ cs.head?, ¬c.isDigit) :
    readId? (id.label.toList ++ cs) = some (id, cs) := by
  have hd : ∀ c ∈ Nat.toDigits 10 id.index, c.isDigit := fun c =>
    Nat.isDigit_of_mem_toDigits (by decide) (by decide)
  have ht : cs.takeWhile Char.isDigit = [] := by cases cs <;> simp_all
  have hr : cs.dropWhile Char.isDigit = cs := by cases cs <;> simp_all
  have ha := after?_append "N" (Nat.toDigits 10 id.index ++ cs)
  rw [toList_label, List.cons_append, readId?]
  rw [show "N".toList = ['N'] from rfl, List.singleton_append] at ha
  rw [ha, Option.map_some, List.takeWhile_append_of_pos hd, List.dropWhile_append_of_pos hd, ht, hr,
    List.append_nil, Nat.ofDigitChars_ten_toDigits]

theorem readFront?_append (id : NodeId) (rest : String) (h : ∀ c ∈ rest.toList.head?, ¬c.isDigit) :
    readFront? ("    " ++ id.label ++ rest) = some (id, rest.toList) := by
  rw [readFront?, String.toList_append, String.toList_append, List.append_assoc, after?_append,
    Option.bind_some, readId?_label id _ h]

theorem toList_escape (label : String) : (escape label).toList =
    label.toList.flatMap fun c => if c = '\x22' then "#quot;".toList else [c] := by
  rw [escape, String.toList_join, List.flatMap_map]
  refine congrArg (label.toList.flatMap ·) (funext fun c => ?_)
  split
  case isTrue  => rfl
  case isFalse => exact String.toList_singleton c

theorem quote_not_mem_escape (label : String) : '\x22' ∉ (escape label).toList := by
  rw [toList_escape, List.mem_flatMap]
  rintro ⟨c, _, hc⟩
  split at hc
  case isTrue     => simp at hc
  case isFalse hn => exact hn (List.mem_singleton.mp hc).symm

theorem newline_mem_escape (label : String) :
    '\n' ∈ (escape label).toList ↔ '\n' ∈ label.toList := by
  rw [toList_escape, List.mem_flatMap]
  constructor
  case mp =>
    rintro ⟨c, hc, hn⟩
    split at hn
    case isTrue  => simp at hn
    case isFalse => exact List.mem_singleton.mp hn ▸ hc
  case mpr => exact fun hn => ⟨'\n', hn, by simp⟩

theorem escape_of_not_mem {label : String} (h : '\x22' ∉ label.toList) : escape label = label := by
  have hc : ∀ c ∈ label.toList, (if c = '\x22' then "#quot;".toList else [c]) = [c] := by
    intro c hc
    refine if_neg fun he => h ?_
    rwa [← he]
  rw [← String.toList_inj, toList_escape, List.flatMap_congr hc, List.flatMap_singleton']

theorem shape_eq (t : Tree) (node : Node) :
    shape t node = node.figure.opening ++ escape (said t node) ++ node.figure.closing := by
  cases node
  case start | finish =>
    rw [said, escape_of_not_mem (by decide)]
    rfl
  all_goals rfl

theorem readLabel?_append {stop : Char} {label closing : String} (hl : stop ∉ label.toList)
    (hc : closing.toList.head? = some stop) :
    readLabel? stop closing (label.toList ++ closing.toList) = some label := by
  have hp : ∀ c ∈ label.toList, (decide (c ≠ stop)) = true := fun c hc =>
    decide_eq_true fun he => hl (he ▸ hc)
  have ⟨cs, hcs⟩ := List.head?_eq_some_iff.mp hc
  rw [readLabel?, List.dropWhile_append_of_pos hp, List.takeWhile_append_of_pos hp]
  simp [hcs]

-- The label ends at the first double quote, for it holds none.
theorem readFigure?_shape (t : Tree) (node : Node) :
    readFigure? (shape t node).toList = some (node.figure, escape (said t node)) := by
  have hl := quote_not_mem_escape (said t node)
  rw [shape_eq, String.toList_append, String.toList_append]
  cases node
  case start | finish =>
    rw [said, escape_of_not_mem (by decide), Node.figure]
    decide
  case block =>
    have hr : readLabel? '\x22' "\"]" _ = _ := readLabel?_append hl rfl
    simpa [Node.figure, Figure.opening, Figure.closing, readFigure?] using hr
  case condition =>
    have hr : readLabel? '\x22' "\"\x7d\x7d" _ = _ := readLabel?_append hl rfl
    simpa [Node.figure, Figure.opening, Figure.closing, readFigure?] using hr

theorem readArrow?_arrow (label : EdgeLabel) (cs : List Char) :
    readArrow? ((arrow label).toList ++ cs) = some (label, cs) := by
  cases label
  case next => simp [readArrow?, after?, arrow]
  case branch b => cases b <;> simp [readArrow?, after?, arrow, Branch.label]

theorem readFront?_nodeLine (t : Tree) (id : NodeId) (node : Node) :
    readFront? (nodeLine t id node) = some (id, (shape t node).toList) := by
  refine readFront?_append id _ ?_
  rw [shape_eq]
  cases node <;> simp [Node.figure, Figure.opening]

theorem readFront?_edgeLine (e : Edge) :
    readFront? (edgeLine e) = some (e.source, (arrow e.label).toList ++ e.target.label.toList) := by
  rw [edgeLine, String.append_assoc, readFront?_append, String.toList_append]
  rw [String.toList_append]
  cases e.label <;> simp [arrow]

theorem readDeclaration?_nodeLine (t : Tree) (id : NodeId) (node : Node) :
    readDeclaration? (nodeLine t id node) = some ⟨id, node.figure, escape (said t node)⟩ := by
  simp [readDeclaration?, readFront?_nodeLine, readFigure?_shape]

theorem readEdge?_nodeLine (t : Tree) (id : NodeId) (node : Node) :
    readEdge? (nodeLine t id node) = none := by
  have ha : readArrow? (shape t node).toList = none := by
    rw [shape_eq]
    cases node <;> simp [Node.figure, Figure.opening, readArrow?, after?, arrow, Branch.label]
  simp [readEdge?, readFront?_nodeLine, ha]

theorem readEdge?_edgeLine (e : Edge) : readEdge? (edgeLine e) = some e := by
  have ht := readId?_label e.target [] nofun
  rw [List.append_nil] at ht
  simp [readEdge?, readFront?_edgeLine, readArrow?_arrow, ht]

theorem readDeclaration?_edgeLine (e : Edge) : readDeclaration? (edgeLine e) = none := by
  have hf : readFigure? ((arrow e.label).toList ++ e.target.label.toList) = none := by
    cases e.label <;> simp [arrow, readFigure?]
  simp [readDeclaration?, readFront?_edgeLine, hf]

theorem linesOf_of_not_mem {text : String} (h : '\n' ∉ text.toList) : linesOf text = [text] := by
  rw [linesOf, List.splitOn_eq_singleton h, List.map_singleton, String.ofList_toList]

theorem length_linesOf_pos (text : String) : 0 < (linesOf text).length := by
  rw [linesOf, List.length_map]
  exact List.length_pos_of_ne_nil (List.splitOn_ne_nil '\n' _)

theorem linesOf_append_newline (a b : String) :
    linesOf (a ++ "\n" ++ b) = linesOf a ++ linesOf b := by
  have ht : (a ++ "\n" ++ b).toList = a.toList ++ '\n' :: b.toList := by simp
  rw [linesOf, ht, List.splitOn_append_cons_self, List.map_append]
  rfl

theorem length_linesOf_eq_one_iff {text : String} :
    (linesOf text).length = 1 ↔ '\n' ∉ text.toList := by
  constructor
  case mpr => exact fun h => by rw [linesOf_of_not_mem h, List.length_singleton]
  case mp =>
    intro hl hm
    have ⟨as, bs, he⟩ := List.append_of_mem hm
    have ht : text = .ofList as ++ "\n" ++ .ofList bs := by simp [← String.toList_inj, he]
    rw [ht, linesOf_append_newline, List.length_append] at hl
    have ha := length_linesOf_pos (.ofList as)
    have hb := length_linesOf_pos (.ofList bs)
    omega

theorem linesOf_intercalate {lines : List String} (h : lines ≠ []) :
    linesOf ("\n".intercalate lines) = lines.flatMap linesOf := by
  induction lines
  case nil => exact absurd rfl h
  case cons line rest ih =>
    by_cases hr : rest = []
    case pos => simp [hr]
    case neg =>
      rw [String.intercalate_cons_of_ne_nil hr, linesOf_append_newline, ih hr, List.flatMap_cons]

theorem length_le_flatMap_linesOf (lines : List String) :
    lines.length ≤ (lines.flatMap linesOf).length := by
  induction lines
  case nil => exact Nat.le_refl 0
  case cons line rest ih =>
    rw [List.flatMap_cons, List.length_append, List.length_cons]
    have := length_linesOf_pos line
    omega

-- None of the texts is broken if they give just as many lines.
theorem not_mem_of_length_flatMap {lines : List String}
    (h : (lines.flatMap linesOf).length = lines.length) : ∀ line ∈ lines, '\n' ∉ line.toList := by
  induction lines
  case nil => exact fun _ hm => absurd hm List.not_mem_nil
  case cons line rest ih =>
    rw [List.flatMap_cons, List.length_append, List.length_cons] at h
    have := length_linesOf_pos line
    have := length_le_flatMap_linesOf rest
    exact List.forall_mem_cons.mpr ⟨length_linesOf_eq_one_iff.mp (by omega), ih (by omega)⟩

theorem flatMap_linesOf {lines : List String} (h : ∀ line ∈ lines, '\n' ∉ line.toList) :
    lines.flatMap linesOf = lines := by
  rw [List.flatMap_congr fun line hl => linesOf_of_not_mem (h line hl), List.flatMap_singleton']

theorem not_mem_label {c : Char} (hn : c ≠ 'N') (hd : ¬c.isDigit) : c ∉ id.label.toList := by
  rw [toList_label, List.mem_cons, not_or]
  exact ⟨hn, fun hc => hd (Nat.isDigit_of_mem_toDigits (by decide) (by decide) hc)⟩

theorem newline_not_mem_label (id : NodeId) : '\n' ∉ id.label.toList :=
  not_mem_label (by decide) (by decide)

theorem newline_mem_nodeLine :
    '\n' ∈ (nodeLine t id node).toList ↔ '\n' ∈ (said t node).toList := by
  have hl := newline_not_mem_label id
  rw [nodeLine, shape_eq, ← newline_mem_escape (said t node)]
  cases node <;> simp [hl, Node.figure, Figure.opening, Figure.closing]

theorem newline_not_mem_edgeLine (e : Edge) : '\n' ∉ (edgeLine e).toList := by
  have hs := newline_not_mem_label e.source
  have ht := newline_not_mem_label e.target
  cases hl : e.label
  case next     => simp [edgeLine, arrow, hl, hs, ht]
  case branch b => cases b <;> simp [edgeLine, arrow, Branch.label, hl, hs, ht]

theorem filterMap_ids {f : NodeId → Node → α} :
    g.ids.filterMap (fun id => (g.node? id).map (f id)) =
      g.ids.map fun id => f id ((g.node? id).getD .finish) := by
  rw [← List.filterMap_eq_map']
  refine List.filterMap_congr fun id hi => ?_
  have hs : (g.node? id).isSome := by simpa [Graph.node?, Graph.size] using Graph.mem_ids_iff.mp hi
  obtain ⟨node, hn⟩ := Option.isSome_iff_exists.mp hs
  rw [hn]
  rfl

theorem newline_not_mem_lines_iff : (∀ line ∈ lines t g, '\n' ∉ line.toList) ↔
    ∀ id node, g.node? id = some node → '\n' ∉ (said t node).toList := by
  rw [lines, List.forall_mem_append, List.forall_mem_cons]
  constructor
  case mp =>
    intro ⟨⟨_, hn⟩, _⟩ id node hg
    have hi : id ∈ g.ids := Graph.mem_ids_iff.mpr (Graph.lt_size_of_node? hg)
    have hm : (g.node? id).map (nodeLine t id) = some _ := congrArg (Option.map _) hg
    exact newline_mem_nodeLine.not.mp (hn _ (List.mem_filterMap.mpr ⟨id, hi, hm⟩))
  case mpr =>
    intro h
    refine ⟨⟨by decide, fun line hl => ?node⟩, fun line hl => ?edge⟩
    case node =>
      obtain ⟨id, _, hl⟩ := List.mem_filterMap.mp hl
      obtain ⟨node, hg, rfl⟩ := Option.map_eq_some_iff.mp hl
      exact newline_mem_nodeLine.not.mpr (h id node hg)
    case edge =>
      obtain ⟨e, _, rfl⟩ := List.mem_map.mp hl
      exact newline_not_mem_edgeLine e

theorem length_lines (t : Tree) (g : Graph) : (lines t g).length = 1 + g.size + g.edges.length := by
  rw [lines, filterMap_ids]
  simp [Graph.ids]
  omega

theorem getElem?_lines_node (h : g.node? id = some node) :
    (lines t g)[1 + id.index]? = some (nodeLine t id node) := by
  have hi := Graph.lt_size_of_node? h
  have hl : id.index < (g.ids.map fun id => nodeLine t id ((g.node? id).getD .finish)).length := by
    simpa [Graph.ids] using hi
  rw [lines, filterMap_ids, List.cons_append, Nat.add_comm, List.getElem?_cons_succ,
    List.getElem?_append_left hl]
  simp [Graph.ids, hi, h]

theorem getElem?_lines_edge (t : Tree) (g : Graph) (i : Nat) :
    (lines t g)[1 + g.size + i]? = g.edges[i]?.map edgeLine := by
  have hl : (g.ids.map fun id => nodeLine t id ((g.node? id).getD .finish)).length = g.size := by
    simp [Graph.ids]
  rw [lines, filterMap_ids, List.cons_append, Nat.add_assoc, Nat.add_comm, List.getElem?_cons_succ,
    List.getElem?_append_right (by omega), hl, Nat.add_sub_cancel_left, List.getElem?_map]

theorem filterMap_readDeclaration? : (lines t g).filterMap readDeclaration? =
    g.ids.filterMap fun id => (g.node? id).map fun node =>
      ⟨id, node.figure, escape (said t node)⟩ := by
  have hh : readDeclaration? "flowchart TD" = none := by decide
  have he : (g.edges.map edgeLine).filterMap readDeclaration? = [] := by
    rw [List.filterMap_map, List.filterMap_eq_nil_iff]
    exact fun e _ => readDeclaration?_edgeLine e
  rw [lines, List.filterMap_append, List.filterMap_cons, hh, he, List.append_nil,
    List.filterMap_filterMap]
  refine List.filterMap_congr fun id _ => ?_
  cases g.node? id
  case none => rfl
  case some node => exact readDeclaration?_nodeLine t id node

theorem filterMap_readEdge? : (lines t g).filterMap readEdge? = g.edges := by
  have hh : readEdge? "flowchart TD" = none := by decide
  have hn : (g.ids.filterMap fun id => (g.node? id).map (nodeLine t id)).filterMap readEdge? =
      [] := by
    rw [List.filterMap_filterMap, List.filterMap_eq_nil_iff]
    intro id _
    cases g.node? id
    case none => rfl
    case some node => exact readEdge?_nodeLine t id node
  have he : (g.edges.map edgeLine).filterMap readEdge? = g.edges := by
    rw [List.filterMap_map]
    exact (List.filterMap_congr fun e _ => readEdge?_edgeLine e).trans List.filterMap_some
  rw [lines, List.filterMap_append, List.filterMap_cons, hh, hn, List.nil_append, he]

end Chart

namespace Summary

open Chart

-- The chart has a line for the header (2), each node (3) and each edge (4), and no other (1). The
-- nodes with their figures and labels (5) and the edges (6) can be read back from the lines.
structure Legible (s : Summary) (t : Tree) : Prop where
  count        : (linesOf (s.chart t)).length = 1 + s.nodeCount + s.edgeCount              -- (1)
  header       : (linesOf (s.chart t))[0]? = some "flowchart TD"                           -- (2)
  node         : ∀ {id node}, s.graph.node? id = some node →                               -- (3)
    ∃ label, label = escape (said t node) ∧ '\x22' ∉ label.toList ∧
      (linesOf (s.chart t))[1 + id.index]? =
        some ("    " ++ id.label ++ (node.figure.opening ++ label ++ node.figure.closing))
  edge         : ∀ {i e}, s.graph.edges[i]? = some e →                                     -- (4)
    (linesOf (s.chart t))[1 + s.nodeCount + i]? = some (edgeLine e)
  declarations : (linesOf (s.chart t)).filterMap readDeclaration? =                        -- (5)
    s.graph.ids.filterMap fun id => (s.graph.node? id).map fun node =>
      ⟨id, node.figure, escape (said t node)⟩
  edges        : (linesOf (s.chart t)).filterMap readEdge? = s.graph.edges                 -- (6)

variable {s : Summary} {t : Tree}

theorem linesOf_chart (s : Summary) (t : Tree) :
    linesOf (s.chart t) = (lines t s.graph).flatMap linesOf :=
  linesOf_intercalate (List.cons_ne_nil _ _)

-- A chart can be read back just if no label breaks its line.
theorem legible_iff (s : Summary) (t : Tree) : s.Legible t ↔
    ∀ id node, s.graph.node? id = some node → '\n' ∉ (said t node).toList := by
  rw [← newline_not_mem_lines_iff]
  constructor
  case mp =>
    intro h
    have hc := h.count
    rw [linesOf_chart] at hc
    exact not_mem_of_length_flatMap (hc.trans (length_lines t s.graph).symm)
  case mpr =>
    intro h
    have hl : linesOf (s.chart t) = lines t s.graph := by rw [linesOf_chart, flatMap_linesOf h]
    exact {
      count        := by rw [hl, length_lines]; rfl
      header       := by rw [hl]; rfl
      node hn      := by
        rw [hl, getElem?_lines_node hn, nodeLine, shape_eq]
        exact ⟨_, rfl, quote_not_mem_escape _, by rw [String.append_assoc]⟩
      edge hi      := by rw [hl, nodeCount, getElem?_lines_edge, hi, Option.map_some]
      declarations := by rw [hl, filterMap_readDeclaration?]
      edges        := by rw [hl, filterMap_readEdge?] }

end Summary

-- The second line of the literal looks like an edge.
def forging : Syntax.Id × Tree :=
  forge.run .empty
where
  forge : Syntax.Build Syntax.Id := do
    Syntax.Build.block [← Syntax.Build.literal "`first\n    N1 --> N0\nlast`"]

-- Its chart shows an edge that the graph does not have.
theorem not_legible_forging :
    ∃ s, analyze forging.2 {} forging.1 = .ok s ∧ ¬s.Legible forging.2 := by
  have hr : (analyze forging.2 {} forging.1).toOption.map (fun s =>
      ((Chart.linesOf (s.chart forging.2)).filterMap Chart.readEdge?, s.graph.edges)) =
      some ([⟨⟨1⟩, .next, ⟨0⟩⟩, ⟨⟨0⟩, .next, ⟨1⟩⟩, ⟨⟨1⟩, .next, ⟨2⟩⟩],
        [⟨⟨0⟩, .next, ⟨1⟩⟩, ⟨⟨1⟩, .next, ⟨2⟩⟩]) := by decide +kernel
  have ⟨s, hs⟩ : ∃ s, analyze forging.2 {} forging.1 = .ok s := exists_of_isSome (by decide +kernel)
  rw [hs] at hr
  have ⟨hread, hedges⟩ := Prod.mk.inj (Option.some.inj hr)
  refine ⟨s, hs, fun h => ?_⟩
  have he := h.edges
  rw [hread, hedges] at he
  exact absurd he (by decide)

end RoutineFlow.Flow
