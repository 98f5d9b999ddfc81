import RoutineFlow.Proofs.Places
import RoutineFlow.Proofs.Statements

-- The routines that steps of lowering add to a syntax tree, and those that the rules for
-- expressions, routines and declarations add, if the rules for their parts do as they should.

namespace RoutineFlow

open Concrete (Node Cursor Rule Source)
open Syntax (Tree Kind Id Span)

namespace Syntax.Tree

variable {t : Tree}

-- The ranges of all routines, in the order in which they were added.
def routineSpans (t : Tree) : List Span :=
  t.ids.filterMap fun id => if (t.kind? id).any Kind.isRoutine then t.span? id else none

theorem routineSpans_add (t : Tree) (kind : Kind) (span : Span) :
    (t.add kind span).routineSpans =
      t.routineSpans ++ if kind.isRoutine then [span] else [] := by
  have hn : ∀ id ∈ t.ids, id ≠ t.nextId := fun id hi he => t.nextId_not_mem_ids (he ▸ hi)
  have ho : (t.ids.filterMap fun id => if ((t.add kind span).kind? id).any Kind.isRoutine then
      (t.add kind span).span? id else none) = t.routineSpans := by
    refine List.filterMap_congr fun id hi => ?_
    rw [kind?_add, span?_add, if_neg (hn id hi), if_neg (hn id hi)]
  rw [routineSpans, ids_add, List.filterMap_append, ho, List.filterMap_cons, kind?_add, span?_add,
    if_pos rfl, if_pos rfl, Option.any_some]
  cases kind.isRoutine <;> rfl

theorem routines_map_span? (t : Tree) :
    t.routines.map (fun r => t.span? r.1) = t.routineSpans.map some := by
  rw [routines, routineSpans, List.map_filterMap, List.map_filterMap]
  refine List.filterMap_congr fun id _ => ?_
  cases hn : t.get? id
  case none      => simp [kind?, hn]
  case some node => cases hk : node.kind <;> simp [kind?, span?, hn, hk, Kind.isRoutine]

end Syntax.Tree

namespace Lowering

variable {α β : Type} {source : Source} {step : Lower α} {rows rows' : List Node} {c d : Cursor}
  {parts : Parts} {height : Nat}

-- A step adds a routine for each of the rows, and no other.
def Adds (source : Source) (step : Lower α) (rows : List Node) : Prop :=
  ∀ t, (step source t).2.routineSpans = t.routineSpans ++ rows.map source.span

namespace Adds

theorem of_eq (h : Adds source step rows) (he : rows = rows') : Adds source step rows' :=
  he ▸ h

theorem pure (a : α) : Adds source (pure a) [] :=
  fun t => (List.append_nil t.routineSpans).symm

theorem bind {f : α → Lower β} (h : Adds source step rows) (hf : ∀ a, Adds source (f a) rows') :
    Adds source (step >>= f) (rows ++ rows') := by
  intro t
  refine (hf _ _).trans ?_
  rw [h t, List.append_assoc, List.map_append]

theorem map (h : Adds source step rows) (f : α → β) : Adds source (f <$> step) rows :=
  h

theorem read {f : α → Lower β} (h : Reads step) (hf : ∀ a, Adds source (f a) rows) :
    Adds source (step >>= f) rows := by
  intro t
  refine (hf _ _).trans ?_
  rw [h source t]

theorem emit {kind : Kind} (hk : kind.isRoutine = false) : Adds source (emit kind c) [] := by
  intro t
  refine (t.routineSpans_add kind _).trans ?_
  rw [hk]
  rfl

theorem emit_routine (name : String) (body? : Option Id) :
    Adds source (Lowering.emit (.routine name body?) c) [c.node] :=
  fun t => t.routineSpans_add _ _

theorem mapM {step : Cursor → Lower α} {rows : Cursor → List Node} {cs : List Cursor}
    (h : ∀ c ∈ cs, Adds source (step c) (rows c)) :
    Adds source (cs.mapM step) (cs.flatMap rows) := by
  induction cs
  case nil          => exact .pure []
  case cons c cs ih =>
    have ⟨hc, h⟩ := List.forall_mem_cons.mp h
    rw [List.mapM_cons, List.flatMap_cons]
    exact hc.bind fun a => (ih h).map (a :: ·)

theorem optional {step : Cursor → Lower α} {rows : Cursor → List Node} {d? : Option Cursor}
    (h : ∀ d ∈ d?, Adds source (step d) (rows d)) :
    Adds source (d?.mapM step) (d?.toList.flatMap rows) := by
  cases d?
  case none   => exact .pure none
  case some d => exact ((h d rfl).map some).of_eq (List.append_nil _).symm

theorem commaChain (c : Cursor) (xs : List Id) : Adds source (Lowering.commaChain c xs) [] := by
  cases xs
  case nil            => exact .pure none
  case cons first xs  =>
    refine map ?_ some
    induction xs generalizing first
    case nil            => exact .pure first
    case cons x xs ih   =>
      rw [List.foldlM_cons]
      exact (emit rfl).bind fun left => ih left

end Adds

-- The rows at and below a place that become routines.
def Place.routines (p : Place) : List Node :=
  (p.shown.filter Place.isRoutine).map (·.cursor.node)

theorem Place.routines_eq (p : Place) :
    p.routines = p.parts.flatMap routines ++ if p.isRoutine then [p.cursor.node] else [] := by
  have hp : (p.parts.flatMap Place.shown).filter isRoutine =
      p.parts.flatMap fun q => q.shown.filter isRoutine := List.filter_flatMap
  rw [routines, shown_eq, List.filter_append, List.map_append, hp, List.map_flatMap]
  congr 1
  cases hr : p.isRoutine <;> simp [hr]

-- Those at and below the first child that plays a part.
def madeIn (c : Cursor) (part : String) (mode : Mode) : List Node :=
  (c.field? part).toList.flatMap fun d => Place.routines ⟨mode, d⟩

theorem flatMap_playing (c : Cursor) (ps : List (String × Mode)) :
    (playing c ps).flatMap Place.routines = ps.flatMap fun (part, mode) => madeIn c part mode := by
  simp [playing, madeIn, List.flatMap_assoc, List.flatMap_map]

theorem routines_expression (c : Cursor) : Place.routines ⟨.expression, c⟩ =
    (expressionParts c).flatMap Place.routines ++ if c.rule = .function then [c.node] else [] := by
  rw [Place.routines_eq]
  simp [Place.parts, Place.isRoutine]

theorem routines_clause (c : Cursor) : Place.routines ⟨.clause, c⟩ =
    (clauseParts c).flatMap Place.routines ++
      if c.rule = .function ∧ c.node.row.named then [c.node] else [] := by
  rw [Place.routines_eq]
  simp [Place.parts, Place.isRoutine]

-- Parts down to some height add the routines of their rows.
structure Parts.Tells (source : Source) (parts : Parts) (height : Nat) : Prop where
  expression : ∀ {c}, c.node.height < height →
    Adds source (parts.expression c) (Place.routines ⟨.expression, c⟩)
  statement  : ∀ {c}, c.node.height < height →
    Adds source (parts.statement c) (Place.routines ⟨.statement, c⟩)
  clause     : ∀ {c}, c.node.height < height →
    Adds source (parts.clause c) (Place.routines ⟨.clause, c⟩)

namespace Parts.Tells

variable (h : parts.Tells source height) (hc : c.node.height ≤ height)

theorem lt_of_mem (hc : c.node.height ≤ height) (hd : d ∈ c.children) : d.node.height < height :=
  Nat.lt_of_lt_of_le (Node.height_lt_of_mem (Cursor.node_mem_of_mem_children hd)) hc

include h hc

theorem expressionOr {d? : Option Cursor} (hd : ∀ d ∈ d?, d ∈ c.children) :
    Adds source (parts.expressionOr c d?)
      (d?.toList.flatMap fun d => Place.routines ⟨.expression, d⟩) := by
  cases d?
  case none   => exact .emit rfl
  case some d =>
    exact (h.expression (lt_of_mem hc (hd d rfl))).of_eq (List.append_nil _).symm

theorem expression? {d? : Option Cursor} (hd : ∀ d ∈ d?, d ∈ c.children) :
    Adds source (parts.expression? d?)
      (d?.toList.flatMap fun d => Place.routines ⟨.expression, d⟩) := by
  rw [expression?_eq]
  exact .optional fun d hm => h.expression (lt_of_mem hc (hd d hm))

theorem field (part : String) : Adds source (parts.field c part) (madeIn c part .expression) :=
  h.expressionOr hc (Cursor.forall_mem_field? c part)

theorem expressions {cs : List Cursor} (hs : ∀ d ∈ cs, d ∈ c.children) :
    Adds source (parts.expressions cs) (cs.flatMap fun d => Place.routines ⟨.expression, d⟩) :=
  .mapM fun d hd => h.expression (lt_of_mem hc (hs d hd))

theorem statements {cs : List Cursor} (hs : ∀ d ∈ cs, d ∈ c.children) :
    Adds source (parts.statements cs) (cs.flatMap fun d => Place.routines ⟨.statement, d⟩) :=
  (Adds.mapM fun d hd => h.statement (lt_of_mem hc (hs d hd))).map List.reduceOption

theorem clauses {cs : List Cursor} (hs : ∀ d ∈ cs, d ∈ c.children) :
    Adds source (parts.clauses cs) (cs.flatMap fun d => Place.routines ⟨.clause, d⟩) :=
  (Adds.mapM fun d hd => h.clause (lt_of_mem hc (hs d hd))).map List.flatten

theorem block : Adds source (parts.block c) (Place.routines ⟨.block, c⟩) := by
  have hs := h.statements hc fun _ hd => c.namedChildren_sublist.subset hd
  refine (hs.bind fun _ => .emit rfl).of_eq ?_
  rw [Place.routines_eq]
  simp [Place.parts, Place.isRoutine, List.flatMap_map]

omit hc in
theorem routineBody (hc : c.node.height < height) :
    Adds source (parts.routineBody c) (Place.routines ⟨.body, c⟩) := by
  unfold Parts.routineBody
  split
  case isTrue hr  =>
    refine (h.block (Nat.le_of_lt hc)).of_eq ?_
    rw [Place.routines_eq, Place.routines_eq]
    simp [Place.parts, bodyParts, Place.isRoutine, hr]
  case isFalse hr =>
    refine ((h.expression hc).bind fun _ => .bind (.emit rfl) fun _ => .emit rfl).of_eq ?_
    rw [Place.routines_eq, Place.routines_eq]
    simp [Place.parts, bodyParts, Place.isRoutine, hr]

theorem routine : Adds source (parts.routine c) (madeIn c "body" .body ++ [c.node]) := by
  refine .read (.routineName c) fun name => ?_
  have hb : ∀ d ∈ c.field? "body", Adds source (parts.routineBody d) (Place.routines ⟨.body, d⟩) :=
    fun d hd => h.routineBody (lt_of_mem hc (Cursor.mem_children_of_field? hd))
  exact (Adds.optional hb).bind fun body? => .emit_routine name body?

theorem declarator : Adds source (parts.declarator c) (Place.routines ⟨.declarator, c⟩) := by
  refine .of_eq (.read (.textOf _) fun name =>
    (h.expression? hc (Cursor.forall_mem_field? c "value")).bind fun _ => .emit rfl) ?_
  rw [Place.routines_eq]
  simp [Place.parts, Place.isRoutine, flatMap_playing, madeIn]

theorem declaration :
    Adds source (parts.declaration c) ((declarators c).flatMap Place.routines) := by
  have hd : ∀ d ∈ c.namedChildren.filter (·.rule = .variableDeclarator),
      Adds source (parts.declarator d) (Place.routines ⟨.declarator, d⟩) := fun d hd =>
    have hm := c.namedChildren_sublist.subset (List.mem_filter.mp hd).1
    h.declarator (Nat.le_of_lt (lt_of_mem hc hm))
  refine ((Adds.mapM hd).bind fun _ => .emit rfl).of_eq ?_
  simp [declarators, List.flatMap_map]

theorem staticBlock :
    Adds source (parts.staticBlock c) ((staticParts c).flatMap Place.routines) := by
  have hm := (staticParts_subperm c).subset
  unfold Parts.staticBlock
  unfold staticParts at hm ⊢
  dsimp only
  cases hi : (c.field? "body" <|> c.namedChildren.find? (·.rule = .statementBlock))
  case none       => exact .bind (.pure []) fun _ => .emit rfl
  case some inner =>
    have hd : inner ∈ c.children := hm (by simp [hi])
    have hs := h.statements (Nat.le_of_lt (lt_of_mem hc hd)) fun _ hd =>
      inner.namedChildren_sublist.subset hd
    refine (hs.bind fun _ => .emit rfl).of_eq ?_
    simp only [Option.toList_some, List.map_cons, List.map_nil, List.flatMap_cons,
      List.flatMap_nil]
    rw [Place.routines_eq]
    simp [Place.parts, Place.isRoutine, List.flatMap_map]

theorem classField : Adds source (parts.classField c) (madeIn c "value" .expression) := by
  refine .of_eq (.read (.textOf _) fun name =>
    (h.expression? hc (Cursor.forall_mem_field? c "value")).bind fun _ =>
      .bind (.emit rfl) fun _ => .emit rfl) ?_
  simp [madeIn]

theorem member : Adds source (parts.member c) (Place.routines ⟨.member, c⟩) := by
  rw [Place.routines_eq]
  unfold Parts.member
  split
  case h_1 hr =>
    refine (h.routine hc).of_eq ?_
    simp [Place.parts, memberParts, Place.isRoutine, flatMap_playing, hr]
  case h_2 hr =>
    refine (h.staticBlock hc).of_eq ?_
    simp [Place.parts, memberParts, Place.isRoutine, hr]
  case h_3 hr =>
    refine (h.classField hc).of_eq ?_
    simp [Place.parts, memberParts, Place.isRoutine, flatMap_playing, hr]
  case h_4 hm hs hf =>
    refine (Adds.emit rfl).of_eq ?_
    cases hr : c.rule <;> simp_all [Place.parts, memberParts, Place.isRoutine]

theorem classDecl : Adds source (parts.classDecl c) (madeIn c "body" .members) := by
  have hm : Adds source (((c.field? "body").elim [] Cursor.namedChildren).mapM parts.member)
      (madeIn c "body" .members) := by
    unfold madeIn
    cases hf : c.field? "body"
    case none   => exact .pure []
    case some d =>
      have hd := Nat.le_of_lt (lt_of_mem hc (Cursor.mem_children_of_field? hf))
      have he : ∀ e ∈ d.namedChildren, Adds source (parts.member e) (Place.routines ⟨.member, e⟩) :=
        fun e he => h.member (Nat.le_of_lt (lt_of_mem hd (d.namedChildren_sublist.subset he)))
      refine (Adds.mapM he).of_eq ?_
      simp only [Option.toList_some, List.flatMap_cons, List.flatMap_nil]
      rw [Place.routines_eq]
      simp [Place.parts, Place.isRoutine, List.flatMap_map]
  have he (name : String) : Adds source (((c.field? "body").elim [] Cursor.namedChildren).mapM
      parts.member >>= fun members => emit (.classDecl name members) c)
      (madeIn c "body" .members) := (hm.bind fun _ => .emit rfl).of_eq (List.append_nil _)
  unfold Parts.classDecl
  split
  case h_1 => exact .read (.text _) he
  case h_2 => exact .read (.anonymous c) he

theorem leadingWord (token : String) : Adds source (parts.leadingWord token c)
    (c.firstNamed?.toList.flatMap fun d => Place.routines ⟨.expression, d⟩) := by
  unfold Parts.leadingWord
  split
  case h_1 d hd =>
    have he := h.expression (lt_of_mem hc (Cursor.mem_children_of_firstNamed? hd))
    refine (he.bind fun _ => .emit rfl).of_eq ?_
    simp [hd]
  case h_2 hd   =>
    refine (Adds.emit rfl).of_eq ?_
    simp [hd]

theorem arguments : Adds source (parts.arguments c) (madeIn c "arguments" .arguments) := by
  unfold Parts.arguments madeIn
  split
  case h_1 ha      => rw [ha]; exact .pure []
  case h_2 args ha =>
    have hm := Cursor.mem_children_of_field? ha
    rw [ha, Option.toList_some, List.flatMap_singleton, Place.routines_eq]
    split
    case isTrue hr  =>
      refine (h.expressions (Nat.le_of_lt (lt_of_mem hc hm)) fun _ hd =>
        args.namedChildren_sublist.subset hd).of_eq ?_
      simp [Place.parts, argumentParts, Place.isRoutine, List.flatMap_map, hr]
    case isFalse hr =>
      refine (h.expressions hc fun _ hd => List.mem_singleton.mp hd ▸ hm).of_eq ?_
      rw [List.flatMap_singleton, Place.routines_eq]
      simp [Place.parts, argumentParts, Place.isRoutine, hr]

theorem callee :
    Adds source (parts.callee (c.field? "function")) (madeIn c "function" .callee) := by
  unfold Parts.callee madeIn
  split
  case h_1 hf          => rw [hf]; exact .pure _
  case h_2 function hf =>
    have hm := Cursor.mem_children_of_field? hf
    rw [hf, Option.toList_some, List.flatMap_singleton, Place.routines_eq]
    split
    case h_1 hr    =>
      refine Adds.of_eq (.read (.text _) fun _ => .pure _) ?_
      simp [Place.parts, calleeParts, Place.isRoutine, hr]
    case h_2 hr    =>
      have ho := h.expression? (Nat.le_of_lt (lt_of_mem hc hm))
        (Cursor.forall_mem_field? function "object")
      refine (ho.bind fun _ => .read (.textOf _) fun _ => .pure _).of_eq ?_
      simp [Place.parts, calleeParts, Place.isRoutine, flatMap_playing, madeIn, hr]
    case h_3 hi hr =>
      refine ((h.expression (lt_of_mem hc hm)).map fun x => (some x, "")).of_eq ?_
      rw [Place.routines_eq]
      cases hr : function.rule <;> simp_all [Place.parts, calleeParts, Place.isRoutine]

theorem call : Adds source (parts.call c)
    (madeIn c "function" .callee ++ madeIn c "arguments" .arguments) :=
  ((h.callee hc).bind fun _ => (h.arguments hc).bind fun _ => .emit rfl).of_eq (by simp)

omit h hc in
-- Down the chain of left operands.
theorem binary {c : Cursor} (h : parts.Tells source height) (hc : c.node.height ≤ height) :
    Adds source (parts.binary c)
      (madeIn c "left" .expression ++ madeIn c "right" .expression) := by
  have hl : Adds source (parts.leftOperand c) (madeIn c "left" .expression) := by
    unfold leftOperand madeIn
    cases hf : c.field? "left"
    case none      => exact .emit rfl
    case some left =>
      have := Cursor.height_lt_of_field? hf
      have hd := lt_of_mem hc (Cursor.mem_children_of_field? hf)
      rw [Option.toList_some, List.flatMap_singleton]
      dsimp only
      split
      case isTrue hr  =>
        refine (h.binary (Nat.le_of_lt hd)).of_eq ?_
        rw [Place.routines_eq]
        simp [Place.parts, expressionParts, Place.isRoutine, flatMap_playing, hr]
      case isFalse hr => exact h.expression hd
  rw [binary_eq]
  refine (hl.bind fun left => .read (.textOf _) fun op => (h.field hc "right").bind fun right =>
    .emit rfl).of_eq ?_
  simp
termination_by c.node.height

theorem cast {expr? : Option Cursor} (he : ∀ d ∈ expr?, d ∈ c.children) (type? : Option Cursor) :
    Adds source (parts.cast c expr? type?)
      (expr?.toList.flatMap fun d => Place.routines ⟨.expression, d⟩) :=
  Adds.of_eq (.read (.textOf _) fun _ => (h.expressionOr hc he).bind fun _ => .emit rfl)
    (List.append_nil _)

theorem sequence : Adds source (do
      let chain? ← Lowering.commaChain c
        (← parts.clauses (if c.node.row.named then c.namedChildren else []))
      chain?.elim (absent c) pure)
    ((if c.node.row.named then c.namedChildren else []).flatMap fun d =>
      Place.routines ⟨.clause, d⟩) := by
  have hd : ∀ d ∈ (if c.node.row.named then c.namedChildren else []), d ∈ c.children := by
    split
    case isTrue  => exact fun _ hd => c.namedChildren_sublist.subset hd
    case isFalse => exact nofun
  have he (chain? : Option Id) : Adds source (chain?.elim (absent c) Pure.pure) [] := by
    cases chain?
    case none   => exact .emit rfl
    case some x => exact .pure x
  refine ((h.clauses hc hd).bind fun xs => (Adds.commaChain c xs).bind he).of_eq ?_
  rw [List.append_nil, List.append_nil]

-- Two operands in two fields.
theorem operands (left right : String) {make : Id → Id → Kind}
    (hk : ∀ x y, (make x y).isRoutine = false) : Adds source (do
      let x ← parts.field c left
      let y ← parts.field c right
      emit (make x y) c) (madeIn c left .expression ++ madeIn c right .expression) :=
  ((h.field hc left).bind fun x => (h.field hc right).bind fun y => .emit (hk x y)).of_eq (by simp)

theorem expressionRule :
    Adds source (parts.expressionRule c) (Place.routines ⟨.expression, c⟩) := by
  have hf : ∀ d ∈ c.firstNamed?, d ∈ c.children := fun d hd => Cursor.mem_children_of_firstNamed? hd
  have hi (i : Nat) : ∀ d ∈ c.namedChildren[i]?, d ∈ c.children := fun d hd =>
    c.namedChildren_sublist.subset (List.mem_of_getElem? hd)
  have first {make : Id → Kind} (hk : ∀ x, (make x).isRoutine = false) : Adds source
      (parts.expressionOr c c.firstNamed? >>= fun x => emit (make x) c)
      (c.firstNamed?.toList.flatMap fun d => Place.routines ⟨.expression, d⟩) :=
    ((h.expressionOr hc hf).bind fun x => .emit (hk x)).of_eq (List.append_nil _)
  rw [routines_expression]
  unfold Parts.expressionRule expressionParts
  cases hr : c.rule
  all_goals simp only [flatMap_playing, List.flatMap_map, List.flatMap_cons, List.flatMap_nil,
    List.append_nil, if_true, if_false, reduceCtorEq]
  case parenthesized       => exact first fun _ => rfl
  case binary              => exact h.binary hc
  case unary               =>
    exact .of_eq (.read (.textOf _) fun _ => (h.field hc "argument").bind fun _ => .emit rfl)
      (List.append_nil _)
  case await               => exact h.leadingWord hc "await"
  case spread              => exact h.leadingWord hc "..."
  case yield               => exact h.leadingWord hc "yield"
  case ternary             =>
    refine ((h.field hc "condition").bind fun _ => (h.field hc "consequence").bind fun _ =>
      (h.field hc "alternative").bind fun _ => .emit rfl).of_eq ?_
    rw [List.append_nil]
  case assignment          => exact h.operands hc "left" "right" fun _ _ => rfl
  case augmentedAssignment => exact h.operands hc "left" "right" fun _ _ => rfl
  case call                => exact h.call hc
  case new                 =>
    exact .of_eq (.read (.textOf _) fun _ => (h.arguments hc).bind fun _ => .emit rfl)
      (List.append_nil _)
  case subscript           => exact h.operands hc "object" "index" fun _ _ => rfl
  case typeCast            => exact h.cast hc (hi 0) _
  case typeAssertion       => exact h.cast hc (hi 1) _
  case nonNull             => exact h.expressionOr hc hf
  case sequence            => exact h.sequence hc
  case function            => exact h.routine hc
  case classExpression     => exact h.classDecl hc
  case identifier | name | member | literal => exact .read (.text c) fun _ => .emit rfl
  all_goals exact .emit rfl

theorem clauseRule : Adds source (parts.clauseRule c) (Place.routines ⟨.clause, c⟩) := by
  have hs := h.clauses hc fun _ hd => c.namedChildren_sublist.subset hd
  rw [routines_clause]
  unfold Parts.clauseRule clauseParts
  split
  case isFalse hn =>
    refine (Adds.pure []).of_eq ?_
    simp [hn]
  case isTrue hn  =>
    have he : Adds source (do return [← parts.expressionRule c]) _ :=
      (h.expressionRule hc).map ([·])
    rw [routines_expression] at he
    cases hr : c.rule
    case declaration                    =>
      exact ((h.declaration hc).map ([·])).of_eq (by simp)
    case expressionStatement | sequence => exact hs.of_eq (by simp [List.flatMap_map])
    case emptyStatement | comment       =>
      exact (Adds.pure []).of_eq (by simp [expressionParts, hr])
    all_goals exact he.of_eq (by simp [hr, hn])

end Parts.Tells
end Lowering
end RoutineFlow
