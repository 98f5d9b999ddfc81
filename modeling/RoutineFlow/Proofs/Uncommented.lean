import RoutineFlow.Proofs.Alike

-- Lowering leaves comments out: a program and the same program without its comments are lowered to
-- the same syntax tree.

namespace RoutineFlow

namespace Concrete

-- for (; /* a */ b;) switch (c) { default: /* d */ e(); }
def loopWithComments : Node :=
  .spanning "program" 0 55 none [
    .spanning "for_statement" 0 55 none [
      .spanning "comment" 7 14 (some "condition") [],
      .spanning "identifier" 15 16 (some "condition") [],
      .spanning "switch_statement" 19 55 (some "body") [
        .spanning "parenthesized_expression" 26 29 (some "value") [
          .spanning "identifier" 27 28 none []],
        .spanning "switch_body" 30 55 (some "body") [
          .spanning "switch_default" 32 53 none [
            .spanning "comment" 41 48 (some "body") [],
            .spanning "expression_statement" 49 53 (some "body") [
              .spanning "call_expression" 49 52 none [
                .spanning "identifier" 49 50 (some "function") [],
                .spanning "arguments" 50 52 (some "arguments") []]]]]]]]

end Concrete

namespace Lowering

open Concrete (Node Cursor Rule Source)

variable {root : Node} {c : Cursor} {parts parts' : Parts} {n m : Nat}

theorem unwrapped_uncommented (c : Cursor) :
    unwrapped c.uncommented = (unwrapped c).uncommented := by
  unfold unwrapped
  rw [Cursor.rule_uncommented, Cursor.firstNamed?_uncommented]
  split
  case isFalse => rfl
  case isTrue  => cases c.firstNamed? <;> rfl

theorem fits_unwrapped (hc : Fits root c n m) : Fits root (unwrapped c) n m := by
  unfold unwrapped
  split
  case isFalse => exact hc
  case isTrue  =>
    cases hd : c.firstNamed?
    case none   => exact hc
    case some d => exact hc.succ.first hd

namespace Parts.Alike

variable (h : parts.Alike root parts' n m) (hc : Fits root c (n + 1) (m + 1))
include h hc

omit h in
-- What is inside parentheses.
theorem unwrappedPart {part : String} (hf : c.node.Free part) :
    (c.uncommented.field? part).map unwrapped =
      ((c.field? part).map unwrapped).map Cursor.uncommented ∧
    ∀ d ∈ (c.field? part).map unwrapped, Fits root d n m := by
  refine ⟨?_, fun d hd => ?_⟩
  · rw [Cursor.field?_uncommented hf, Option.map_map, Option.map_map]
    exact congrArg (Option.map · _) (funext unwrapped_uncommented)
  · have ⟨e, he, hu⟩ := Option.map_eq_some_iff.mp hd
    exact hu ▸ fits_unwrapped (hc.field hf he)

theorem condition (hf : c.node.Free "condition") :
    parts'.condition c.uncommented = parts.condition c := by
  have ⟨he, hd⟩ := unwrappedPart hc hf
  rw [Parts.condition, he, h.expressionOr c hd]
  rfl

omit hc in
theorem statementOr (place : Cursor) {d? : Option Cursor} (hd : ∀ d ∈ d?, Fits root d n m) :
    parts'.statementOr place.uncommented (d?.map Cursor.uncommented) =
      parts.statementOr place d? := by
  unfold Parts.statementOr
  cases d?
  case none   => simp only [Option.map_none, Option.elim_none, emptyBlock_uncommented]
  case some d =>
    simp only [Option.map_some, Option.elim_some, h.statement (hd d rfl), emptyBlock_uncommented]

theorem body {part : String} (hf : c.node.Free part) :
    parts'.body c.uncommented part = parts.body c part := by
  unfold Parts.body
  rw [Cursor.field?_uncommented hf]
  cases hd : c.field? part
  case none   => exact absent_uncommented c
  case some d => exact h.statementOr d fun e he => Option.mem_some.mp he ▸ hc.field hf hd

theorem alternative (hf : c.node.Free "alternative") :
    (c.uncommented.field? "alternative").mapM parts'.alternative =
      (c.field? "alternative").mapM parts.alternative := by
  rw [Cursor.field?_uncommented hf]
  refine optional_uncommented fun d hd => ?_
  have hd := hc.field hf hd
  unfold Parts.alternative
  rw [Cursor.rule_uncommented, Cursor.firstNamed?_uncommented]
  split
  case isTrue  => exact h.statementOr d fun e he => hd.succ.first he
  case isFalse => exact h.statementOr d fun e he => Option.mem_some.mp he ▸ hd

theorem clausesOf (part : String) :
    parts'.clauses (c.uncommented.fieldAll part) = parts.clauses (c.fieldAll part) := by
  rw [Cursor.fieldAll_uncommented, ← h.clauses_filter (c.fieldAll part)]
  refine h.clauses fun d hd => ?_
  have ⟨hd, hb⟩ := List.mem_filter.mp hd
  exact hc.child (Cursor.mem_fieldAll.mp hd).1 (by simpa using hb)

theorem forStatement (hr : root.Annotated) (hk : c.rule = .forStatement) :
    parts'.forStatement c.uncommented = parts.forStatement c := by
  unfold Parts.forStatement
  rw [h.clausesOf hc, h.clausesOf hc, h.clausesOf hc,
    h.body hc (hc.within.free_body hr (by simp [hk]))]
  simp only [commaChain_uncommented, emit_uncommented]

-- The blocks of the clauses are asked for two rows down, where a case could stand.
theorem tryStatement (hr : root.Annotated) (hk : c.rule = .tryStatement) :
    parts'.tryStatement c.uncommented = parts.tryStatement c := by
  have hf := hc.within.free hr (by simp [hk]) (by simp [hk])
  have hw (part : String) : (c.uncommented.field? part).bind (·.field? "body") =
      ((c.field? part).bind (·.field? "body")).map Cursor.uncommented ∧
      ∀ d ∈ (c.field? part).bind (·.field? "body"), Fits root d n m := by
    rw [Cursor.field?_uncommented (hf _)]
    cases hd : c.field? part
    case none   => exact ⟨rfl, nofun⟩
    case some d =>
      have hb := hc.within.free_handler hr hk (Cursor.mem_children_of_field? hd)
      exact ⟨Cursor.field?_uncommented hb, fun e he => (hc.field (hf _) hd).succ.field hb he⟩
  let blocks := [c.field? "body", (c.field? "handler").bind (·.field? "body"),
    (c.field? "finalizer").bind (·.field? "body")]
  have hb : ∀ d ∈ blocks.reduceOption, parts'.block d.uncommented = parts.block d := by
    intro d hd
    simp only [blocks, List.reduceOption_mem_iff, List.mem_cons, List.not_mem_nil, or_false] at hd
    refine h.block (Fits.succ ?_)
    obtain hd | hd | hd := hd
    · exact hc.field (hf _) hd.symm
    · exact (hw _).2 d hd.symm
    · exact (hw _).2 d hd.symm
  have hm : [(c.field? "body").map Cursor.uncommented,
      ((c.field? "handler").bind (·.field? "body")).map Cursor.uncommented,
      ((c.field? "finalizer").bind (·.field? "body")).map Cursor.uncommented].reduceOption =
      blocks.reduceOption.map Cursor.uncommented := List.reduceOption_map (l := blocks) (f := _)
  unfold Parts.tryStatement
  dsimp only
  rw [Cursor.field?_uncommented (hf _), (hw _).1, (hw _).1, hm, mapM_uncommented hb]
  simp only [emit_uncommented, blocks]

theorem switchStatement (hf : ∀ part, c.node.Free part) :
    parts'.switchStatement c.uncommented = parts.switchStatement c := by
  have ⟨hu, hv⟩ := unwrappedPart hc (hf "value")
  have hs : parts'.statements
      (((c.uncommented.field? "body").elim [] Cursor.namedChildren).flatMap (·.fieldAll "body")) =
      parts.statements
        (((c.field? "body").elim [] Cursor.namedChildren).flatMap (·.fieldAll "body")) := by
    rw [Cursor.field?_uncommented (hf _)]
    cases hd : c.field? "body"
    case none   => rfl
    case some b =>
      have hb := (hc.field (hf _) hd).succ
      rw [Option.map_some, Option.elim_some, Option.elim_some, Cursor.namedChildren_uncommented,
        ← h.statements_filter, List.flatMap_map, List.filter_flatMap]
      simp only [Cursor.fieldAll_uncommented]
      rw [← List.map_flatMap]
      refine h.statements fun d hd => ?_
      have ⟨k, hk, hd⟩ := List.mem_flatMap.mp hd
      have ⟨hd, hb'⟩ := List.mem_filter.mp hd
      exact (hb.named hk).succ.child (Cursor.mem_fieldAll.mp hd).1 (by simpa using hb')
  unfold Parts.switchStatement
  rw [hu, h.expression? hv]
  dsimp only
  rw [hs]
  simp only [emit_uncommented]

theorem inner {part : String} (hf : c.node.Free part) :
    (match c.uncommented.field? part with
      | some d => parts'.statement d
      | none   => some <$> leaf c.uncommented) = match c.field? part with
      | some d => parts.statement d
      | none   => some <$> leaf c := by
  rw [Cursor.field?_uncommented hf]
  cases hd : c.field? part
  case none   => simp only [Option.map_none, leaf_uncommented]
  case some d => exact h.statement (hc.field hf hd)

theorem statementRule (hr : root.Annotated) :
    parts'.statementRule c.uncommented = parts.statementRule c := by
  have hf (hf : c.rule ≠ .forStatement) (ho : c.rule ≠ .other) := hc.within.free hr hf ho
  have he := h.expressionRule hc hr
  have hn := h.expression? fun d hd => hc.first hd
  have ho := h.expressionOr c fun d hd => hc.first hd
  unfold Parts.statementRule
  rw [Cursor.rule_uncommented]
  cases hk : c.rule
  all_goals simp only [hk, ne_eq, reduceCtorEq, not_false_eq_true, forall_const] at hf
  case emptyStatement | comment => rfl
  case statementBlock      => rw [h.block hc]
  case staticBlock         => rw [h.staticBlock hc hf]
  case expressionStatement => rw [Cursor.firstNamed?_uncommented, hn]
  case declaration         => rw [h.declaration hc hr]
  case ifStatement         =>
    simp only [Parts.ifStatement, h.condition hc (hf _), h.body hc (hf _),
      h.alternative hc (hf _), emit_uncommented]
  case whileStatement | doStatement =>
    simp only [h.condition hc (hf _), h.body hc (hf _), emit_uncommented]
  case forStatement        => rw [h.forStatement hc hr hk]
  case forInStatement      =>
    simp only [Parts.forInStatement, h.field hc (hf _), h.body hc (hf _), emit_uncommented]
  case returnStatement     => simp only [Cursor.firstNamed?_uncommented, hn, emit_uncommented]
  case throwStatement      => simp only [Cursor.firstNamed?_uncommented, ho, emit_uncommented]
  case tryStatement        => rw [h.tryStatement hc hr hk]
  case switchStatement     => rw [h.switchStatement hc hf]
  case breakStatement | continueStatement => simp only [emit_uncommented]
  case functionDeclaration => rw [h.routine hc hr hf]
  case classDeclaration    => rw [h.classDecl hc hr hf]
  case exportStatement     => exact h.inner hc (hf _)
  case labeledStatement    => exact h.inner hc (hf _)
  all_goals rw [he]

end Parts.Alike

theorem not_fits_zero (h : Fits root c n m) : n ≠ 0 ∧ m ≠ 0 := by
  have hp (n : Node) : 0 < n.height := by
    cases n
    exact Nat.succ_pos _
  exact ⟨Nat.ne_of_gt (Nat.lt_of_lt_of_le (hp _) h.height),
    Nat.ne_of_gt (Nat.lt_of_lt_of_le (hp _) h.uncommented)⟩

theorem upTo_statement_comment (n : Nat) (hb : c.node.isBareComment) :
    (Parts.upTo n).statement c = pure none := by
  have hk : c.rule = .comment := Node.rule_of_isBareComment hb
  cases n
  case zero => rfl
  case succ n =>
    change (Parts.upTo n).statementRule c = _
    rw [Parts.statementRule, hk]

theorem upTo_clause_comment (n : Nat) (hb : c.node.isBareComment) :
    (Parts.upTo n).clause c = pure [] := by
  have hk : c.rule = .comment := Node.rule_of_isBareComment hb
  cases n
  case zero => rfl
  case succ n =>
    change (Parts.upTo n).clauseRule c = _
    rw [Parts.clauseRule, hk, ite_self]

-- The two heights go down together. Where one of them is used up, there is no row left.
theorem alike_upTo (hr : root.Annotated) (n m : Nat) :
    (Parts.upTo n).Alike root (Parts.upTo m) n m := by
  have hs := @upTo_statement_comment
  have hl := @upTo_clause_comment
  induction n generalizing m
  case zero      =>
    have hn {c : Cursor} (h : Fits root c 0 m) : False := (not_fits_zero h).1 rfl
    exact ⟨fun h => (hn h).elim, fun h => (hn h).elim, fun h => (hn h).elim, hs 0, hl 0⟩
  case succ n ih =>
    cases m
    case zero   =>
      have hm {c : Cursor} (h : Fits root c (n + 1) 0) : False := (not_fits_zero h).2 rfl
      exact ⟨fun h => (hm h).elim, fun h => (hm h).elim, fun h => (hm h).elim, hs _, hl _⟩
    case succ m =>
      exact {
        expression h := (ih m).expressionRule h hr
        statement h  := (ih m).statementRule h hr
        clause h     := (ih m).clauseRule h hr
        noStatement  := hs _
        noClause     := hl _
      }

theorem program_uncommented (hr : root.Annotated) :
    program { node := root.uncommented } = program { node := root } := by
  let top : Cursor := { node := root }
  have hc : Fits root top (top.node.height + 1) (top.uncommented.node.height + 1) :=
    ⟨.root, Nat.le_succ _, Nat.le_succ _⟩
  have hs := (alike_upTo hr _ _).statements fun d hd => hc.named hd
  change program top.uncommented = program top
  unfold program
  rw [Cursor.namedChildren_uncommented, hs]
  simp only [emit_uncommented]

-- Comments never change the tree.
theorem lower_uncommented (source : Source) (root : Node) (he : root.row.hasError = false)
    (hr : root.Annotated) :
    ∃ t, lower source root = .ok t ∧ lower source root.uncommented = .ok t := by
  refine ⟨_, lower_eq_ok (o := ⟨root, source⟩) he, ?_⟩
  rw [← program_uncommented hr]
  refine lower_eq_ok (o := ⟨root.uncommented, source⟩) ?_
  rwa [Node.row_uncommented]

theorem lower_uncommented_loopWithComments :
    Concrete.loopWithComments.Annotated ∧
    Concrete.loopWithComments.standings.length = 14 ∧
    Concrete.loopWithComments.uncommented.standings.length = 12 ∧
    ∃ t, lower (.ofString "for (; /* a */ b;) switch (c) \x7b default: /* d */ e(); \x7d")
        Concrete.loopWithComments = .ok t ∧
      lower (.ofString "for (; /* a */ b;) switch (c) \x7b default: /* d */ e(); \x7d")
        Concrete.loopWithComments.uncommented = .ok t ∧
      t.kind? ⟨4⟩ = some (.forStmt [] (some ⟨0⟩) [] ⟨3⟩) := by
  have hr : Concrete.loopWithComments.Annotated := by decide +kernel
  have ⟨t, ht, hu⟩ := lower_uncommented
    (.ofString "for (; /* a */ b;) switch (c) \x7b default: /* d */ e(); \x7d")
    Concrete.loopWithComments rfl hr
  refine ⟨hr, by decide +kernel, by decide +kernel, t, ht, hu, ?_⟩
  rw [Except.ok.inj (ht.symm.trans (lower_eq_ok (o := ⟨_, _⟩) rfl))]
  decide +kernel

end Lowering
end RoutineFlow
