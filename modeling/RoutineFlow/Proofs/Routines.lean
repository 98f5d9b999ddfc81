import RoutineFlow.Proofs.Adds

-- The routines of a syntax tree are the functions and methods that lowering goes into: one routine
-- for each such row, and one such row for each routine. Rows that lowering leaves out, such as
-- those below an object literal, take their functions with them.

namespace RoutineFlow

open Concrete (Node Cursor Rule Source)
open Syntax (Tree Kind Id)

namespace Concrete

-- The kinds of rows that define a function.
def functionKinds : List String :=
  ["function_declaration", "generator_function_declaration", "function_expression",
    "generator_function", "arrow_function", "method_definition"]

-- function f() { return () => 1; }
def arrowInFunction : Node :=
  .spanning "program" 0 32 none [
    .spanning "function_declaration" 0 32 none [
      .spanning "identifier" 9 10 (some "name") [],
      .spanning "formal_parameters" 10 12 (some "parameters") [],
      .spanning "statement_block" 13 32 (some "body") [
        .spanning "return_statement" 15 30 none [
          .spanning "arrow_function" 22 29 none [
            .spanning "formal_parameters" 22 24 (some "parameters") [],
            .spanning "number" 28 29 (some "body") []]]]]]

-- const o = { k: () => 1 };
def arrowInObject : Node :=
  .spanning "program" 0 25 none [
    .spanning "lexical_declaration" 0 25 none [
      .spanning "variable_declarator" 6 24 none [
        .spanning "identifier" 6 7 (some "name") [],
        .spanning "object" 10 24 (some "value") [
          .spanning "pair" 12 22 none [
            .spanning "property_identifier" 12 13 (some "key") [],
            .spanning "arrow_function" 15 22 (some "value") [
              .spanning "formal_parameters" 15 17 (some "parameters") [],
              .spanning "number" 21 22 (some "body") []]]]]]]

end Concrete

namespace Lowering

variable {source : Source} {c : Cursor} {parts : Parts} {height : Nat}

theorem routines_statement (c : Cursor) : Place.routines ⟨.statement, c⟩ =
    (statementParts c).flatMap Place.routines ++
      if c.rule = .function ∨ c.rule = .functionDeclaration then [c.node] else [] := by
  rw [Place.routines_eq]
  simp [Place.parts, Place.isRoutine]

theorem routines_unwrapped (c : Cursor) :
    Place.routines ⟨.expression, unwrapped c⟩ = Place.routines ⟨.expression, c⟩ := by
  unfold unwrapped
  split
  case isFalse   => rfl
  case isTrue hr =>
    rw [routines_expression c]
    cases hf : c.firstNamed?
    case none   => rw [Option.getD_none, routines_expression]
    case some d => simp [expressionParts, hr, hf]

theorem height_unwrapped_le (c : Cursor) : (unwrapped c).node.height ≤ c.node.height := by
  unfold unwrapped
  split
  case isFalse => exact Nat.le_refl _
  case isTrue  =>
    cases hf : c.firstNamed?
    case none   => exact Nat.le_refl _
    case some d =>
      have hm := Cursor.node_mem_of_mem_children (Cursor.mem_children_of_firstNamed? hf)
      exact Nat.le_of_lt (Node.height_lt_of_mem hm)

theorem madeIn_unwrapped (c : Cursor) (part : String) :
    (((c.field? part).map unwrapped).toList.flatMap fun d => Place.routines ⟨.expression, d⟩) =
      madeIn c part .expression := by
  unfold madeIn
  cases c.field? part
  case none   => rfl
  case some d => simp [routines_unwrapped]

theorem madeIn_handler (c : Cursor) (part : String) : madeIn c part .handler =
    ((c.field? part).bind (·.field? "body")).toList.flatMap fun d =>
      Place.routines ⟨.block, d⟩ := by
  unfold madeIn
  cases c.field? part
  case none   => rfl
  case some d =>
    rw [Option.toList_some, List.flatMap_singleton, Option.bind_some, Place.routines_eq]
    simp [Place.parts, Place.isRoutine, flatMap_playing, madeIn]

namespace Parts.Tells

variable (h : parts.Tells source height) (hc : c.node.height ≤ height)
include h hc

-- Parentheses around a condition change nothing.
theorem unwrappedPart (part : String) :
    ∀ d ∈ (c.field? part).map unwrapped,
      Adds source (parts.expression d) (Place.routines ⟨.expression, d⟩) := by
  intro d hd
  have ⟨e, he, hu⟩ := Option.map_eq_some_iff.mp hd
  have hl := lt_of_mem hc (Cursor.mem_children_of_field? he)
  exact hu ▸ h.expression (Nat.lt_of_le_of_lt (height_unwrapped_le e) hl)

theorem condition : Adds source (parts.condition c) (madeIn c "condition" .expression) := by
  have hu := h.unwrappedPart hc "condition"
  rw [← madeIn_unwrapped]
  unfold Parts.condition
  cases hd : (c.field? "condition").map unwrapped
  case none   => exact .emit rfl
  case some d => exact (hu d hd).of_eq (List.append_nil _).symm

theorem discriminant : Adds source (parts.expression? ((c.field? "value").map unwrapped))
    (madeIn c "value" .expression) := by
  rw [expression?_eq, ← madeIn_unwrapped]
  exact .optional (h.unwrappedPart hc "value")

omit hc in
theorem statementOr (place : Cursor) {c? : Option Cursor} (hd : ∀ d ∈ c?, d.node.height < height) :
    Adds source (parts.statementOr place c?)
      (c?.toList.flatMap fun d => Place.routines ⟨.statement, d⟩) := by
  have hs : Adds source (c?.elim (pure none) parts.statement)
      (c?.toList.flatMap fun d => Place.routines ⟨.statement, d⟩) := by
    cases c?
    case none   => exact .pure none
    case some d => exact (h.statement (hd d rfl)).of_eq (List.append_nil _).symm
  refine (hs.bind fun x? => ?_).of_eq (List.append_nil _)
  cases x?
  case none   => exact .emit rfl
  case some x => exact .pure x

theorem body (part : String) : Adds source (parts.body c part) (madeIn c part .statement) := by
  unfold Parts.body madeIn
  split
  case h_1 d hf =>
    rw [hf]
    refine h.statementOr d fun e he => ?_
    cases he
    exact lt_of_mem hc (Cursor.mem_children_of_field? hf)
  case h_2 hf   =>
    rw [hf]
    exact .emit rfl

theorem alternative : Adds source ((c.field? "alternative").mapM parts.alternative)
    (madeIn c "alternative" .alternative) := by
  refine .optional fun d hd => ?_
  have hl := lt_of_mem hc (Cursor.mem_children_of_field? hd)
  rw [Place.routines_eq]
  unfold Parts.alternative
  split
  case isTrue hr  =>
    refine (h.statementOr d fun e he => ?_).of_eq ?_
    · exact lt_of_mem (Nat.le_of_lt hl) (Cursor.mem_children_of_firstNamed? he)
    · simp [Place.parts, alternativeParts, Place.isRoutine, List.flatMap_map, hr]
  case isFalse hr =>
    refine (h.statementOr d fun e he => ?_).of_eq ?_
    · cases he
      exact hl
    · rw [Option.toList_some, List.flatMap_singleton, Place.routines_eq]
      simp [Place.parts, alternativeParts, Place.isRoutine, hr]

theorem clausesOf (part : String) : Adds source (parts.clauses (c.fieldAll part))
    ((c.fieldAll part).flatMap fun d => Place.routines ⟨.clause, d⟩) :=
  h.clauses hc fun _ hd => (c.fieldAll_sublist part).subset hd

theorem handler (part : String) {d : Cursor}
    (hd : (c.field? part).bind (·.field? "body") = some d) :
    Adds source (parts.block d) (Place.routines ⟨.block, d⟩) := by
  have ⟨q, hq, hd⟩ := Option.bind_eq_some_iff.mp hd
  have hl := Nat.le_of_lt (lt_of_mem hc (Cursor.mem_children_of_field? hq))
  exact h.block (Nat.le_of_lt (lt_of_mem hl (Cursor.mem_children_of_field? hd)))

theorem ifStatement : Adds source (parts.ifStatement c) (madeIn c "condition" .expression ++
    (madeIn c "consequence" .statement ++ madeIn c "alternative" .alternative)) :=
  ((h.condition hc).bind fun _ => (h.body hc "consequence").bind fun _ =>
    (h.alternative hc).bind fun _ => .emit rfl).of_eq (by simp)

theorem forStatement : Adds source (parts.forStatement c)
    (((c.fieldAll "initializer").flatMap fun d => Place.routines ⟨.clause, d⟩) ++
      (((c.fieldAll "condition").flatMap fun d => Place.routines ⟨.clause, d⟩) ++
        (((c.fieldAll "increment").flatMap fun d => Place.routines ⟨.clause, d⟩) ++
          madeIn c "body" .statement))) :=
  ((h.clausesOf hc "initializer").bind fun _ => (h.clausesOf hc "condition").bind fun xs =>
    (Adds.commaChain c xs).bind fun _ => (h.clausesOf hc "increment").bind fun _ =>
      (h.body hc "body").bind fun _ => .emit rfl).of_eq (by simp)

theorem forInStatement : Adds source (parts.forInStatement c)
    (madeIn c "right" .expression ++ madeIn c "body" .statement) :=
  ((h.field hc "right").bind fun _ => (h.body hc "body").bind fun _ => .emit rfl).of_eq (by simp)

theorem tryStatement : Adds source (parts.tryStatement c) (madeIn c "body" .block ++
    (madeIn c "handler" .handler ++ madeIn c "finalizer" .handler)) := by
  let within (part : String) := (c.field? part).bind (·.field? "body")
  have hb : ∀ d ∈ [c.field? "body", within "handler", within "finalizer"].reduceOption,
      Adds source (parts.block d) (Place.routines ⟨.block, d⟩) := by
    intro d hd
    simp only [List.reduceOption_mem_iff, List.mem_cons, List.not_mem_nil, or_false] at hd
    obtain hd | hd | hd := hd
    · exact h.block (Nat.le_of_lt (lt_of_mem hc (Cursor.mem_children_of_field? hd.symm)))
    · exact h.handler hc _ hd.symm
    · exact h.handler hc _ hd.symm
  refine ((Adds.mapM hb).bind fun _ => .emit rfl).of_eq ?_
  rw [madeIn_handler, madeIn_handler, List.append_nil, List.reduceOption,
    List.filterMap_eq_flatMap_toList]
  simp [madeIn, within]

theorem switchStatement : Adds source (parts.switchStatement c)
    (madeIn c "value" .expression ++ madeIn c "body" .cases) := by
  have hs : Adds source (parts.statements
      (((c.field? "body").elim [] Cursor.namedChildren).flatMap (·.fieldAll "body")))
      (madeIn c "body" .cases) := by
    unfold madeIn
    cases hf : c.field? "body"
    case none   => exact .map (.pure []) List.reduceOption
    case some b =>
      have hb := Nat.le_of_lt (lt_of_mem hc (Cursor.mem_children_of_field? hf))
      have hd : ∀ d ∈ b.namedChildren.flatMap (·.fieldAll "body"),
          Adds source (parts.statement d) (Place.routines ⟨.statement, d⟩) := by
        intro d hd
        have ⟨k, hk, hd⟩ := List.mem_flatMap.mp hd
        have hl := Nat.le_of_lt (lt_of_mem hb (b.namedChildren_sublist.subset hk))
        exact h.statement (lt_of_mem hl ((k.fieldAll_sublist "body").subset hd))
      have hk (k : Cursor) : Place.routines ⟨.case, k⟩ =
          (k.fieldAll "body").flatMap fun d => Place.routines ⟨.statement, d⟩ := by
        rw [Place.routines_eq]
        simp [Place.parts, Place.isRoutine, List.flatMap_map]
      refine ((Adds.mapM hd).map List.reduceOption).of_eq ?_
      rw [Option.toList_some, List.flatMap_singleton, Place.routines_eq]
      simp [Place.parts, Place.isRoutine, List.flatMap_map, List.flatMap_assoc, hk]
  exact ((h.discriminant hc).bind fun _ => hs.bind fun _ => .emit rfl).of_eq (by simp)

-- The first child that plays a part, taken for a statement, or nothing of the row at all.
theorem inner (part : String) : Adds source (match c.field? part with
      | some d => parts.statement d
      | none   => some <$> leaf c) (madeIn c part .statement) := by
  unfold madeIn
  cases hf : c.field? part
  case none   => exact .map (.emit rfl) some
  case some d =>
    have hd := h.statement (lt_of_mem hc (Cursor.mem_children_of_field? hf))
    exact hd.of_eq (List.append_nil _).symm

theorem statementRule : Adds source (parts.statementRule c) (Place.routines ⟨.statement, c⟩) := by
  have hf : ∀ d ∈ c.firstNamed?, d ∈ c.children := fun d hd => Cursor.mem_children_of_firstNamed? hd
  have he := (h.expressionRule hc).map some
  rw [routines_expression] at he
  rw [routines_statement]
  unfold Parts.statementRule statementParts
  cases hr : c.rule
  all_goals simp only [flatMap_playing, List.flatMap_append, List.flatMap_map, List.flatMap_cons,
    List.flatMap_nil, List.append_nil, if_true, if_false, reduceCtorEq, or_true, or_false]
  case emptyStatement | comment => exact (Adds.pure none).of_eq (by simp [expressionParts, hr])
  case statementBlock      =>
    refine ((h.block hc).map some).of_eq ?_
    rw [Place.routines_eq]
    simp [Place.parts, Place.isRoutine, List.flatMap_map]
  case staticBlock         => exact (h.staticBlock hc).map some
  case expressionStatement => exact h.expression? hc hf
  case declaration         => exact (h.declaration hc).map some
  case ifStatement         => exact (h.ifStatement hc).map some
  case whileStatement      =>
    exact ((h.condition hc).bind fun _ => (h.body hc "body").bind fun _ => .map (.emit rfl) some)
      |>.of_eq (by simp)
  case doStatement         =>
    exact ((h.body hc "body").bind fun _ => (h.condition hc).bind fun _ => .map (.emit rfl) some)
      |>.of_eq (by simp)
  case forStatement        =>
    refine ((h.forStatement hc).map some).of_eq ?_
    simp [playingAll, List.flatMap_map]
  case forInStatement      => exact (h.forInStatement hc).map some
  case returnStatement     =>
    exact ((h.expression? hc hf).bind fun _ => .map (.emit rfl) some).of_eq (List.append_nil _)
  case throwStatement      =>
    exact ((h.expressionOr hc hf).bind fun _ => .map (.emit rfl) some).of_eq (List.append_nil _)
  case tryStatement        => exact (h.tryStatement hc).map some
  case switchStatement     => exact (h.switchStatement hc).map some
  case breakStatement | continueStatement =>
    exact .of_eq (.map (.emit rfl) some) (by simp [expressionParts, hr])
  case functionDeclaration => exact (h.routine hc).map some
  case classDeclaration    => exact (h.classDecl hc).map some
  case exportStatement     => exact h.inner hc "declaration"
  case labeledStatement    => exact h.inner hc "body"
  all_goals exact he.of_eq (by simp [hr])

end Parts.Tells

theorem tells_upTo (source : Source) (height : Nat) : (Parts.upTo height).Tells source height := by
  induction height
  case zero           => exact ⟨nofun, nofun, nofun⟩
  case succ height ih =>
    exact {
      expression hc := ih.expressionRule (Nat.le_of_lt_succ hc)
      statement hc  := ih.statementRule (Nat.le_of_lt_succ hc)
      clause hc     := ih.clauseRule (Nat.le_of_lt_succ hc)
    }

theorem program_adds (source : Source) (root : Node) :
    Adds source (program { node := root }) (Place.routines ⟨.block, { node := root }⟩) := by
  have hs := (tells_upTo source root.height).statements (c := { node := root }) (Nat.le_refl _)
    fun _ hd => (Cursor.namedChildren_sublist _).subset hd
  refine (hs.bind fun _ => .emit rfl).of_eq ?_
  rw [Place.routines_eq]
  simp [Place.parts, Place.isRoutine, List.flatMap_map]

-- The routines are the functions and methods that lowering goes into, one for each and in the order
-- in which it leaves them. It goes into the parts of a place and no further, and into no row twice.
theorem lower_routines (source : Source) (root : Node) (he : root.row.hasError = false) :
    ∃ t, lower source root = .ok t ∧
      t.routines.map (fun r => t.span? r.1) =
        ((shown root).filter Place.isRoutine).map (some <| source.span ·.cursor.node) ∧
      (∀ p, p ∈ shown root ↔ Shown root p) ∧
      ((shown root).map (·.cursor.node)).Subperm root.rows := by
  refine ⟨_, lower_eq_ok (o := ⟨root, source⟩) he, ?_, fun p => mem_shown_iff, shown_subperm root⟩
  have hn : Tree.empty.routineSpans = [] := rfl
  rw [Tree.routines_map_span?, program_adds source root .empty, hn, List.nil_append,
    Place.routines, List.map_map, List.map_map]
  rfl

theorem lower_routines_arrowInFunction :
    ∃ t, lower (.ofString "function f() \x7b return () => 1; \x7d") Concrete.arrowInFunction =
        .ok t ∧
      t.routines.map (fun r => t.span? r.1) = [some ⟨1, 23, 1, 30⟩, some ⟨1, 1, 1, 33⟩] := by
  have ⟨t, ht, hr, _⟩ := lower_routines (.ofString "function f() \x7b return () => 1; \x7d")
    Concrete.arrowInFunction rfl
  exact ⟨t, ht, hr.trans (by decide +kernel)⟩

-- What is below an object is left out, its functions included.
theorem not_routines_of_functionKinds :
    ¬∀ (source : Source) (root : Node) (t : Tree), root.row.hasError = false →
      lower source root = .ok t → ∀ n ∈ root.rows, n.kind ∈ Concrete.functionKinds →
        ∃ r ∈ t.routines, t.span? r.1 = some (source.span n) := by
  intro h
  let source := Source.ofString "const o = \x7b k: () => 1 \x7d;"
  have ⟨n, hn, hk⟩ : ∃ n ∈ Concrete.arrowInObject.rows, n.kind ∈ Concrete.functionKinds := by
    decide +kernel
  have he : (program { node := Concrete.arrowInObject } source .empty).2.routines = [] := by
    decide +kernel
  have ⟨r, hr, _⟩ := h source Concrete.arrowInObject _ rfl
    (lower_eq_ok (o := ⟨Concrete.arrowInObject, source⟩) rfl) n hn hk
  exact absurd (he ▸ hr) List.not_mem_nil

end Lowering
end RoutineFlow
