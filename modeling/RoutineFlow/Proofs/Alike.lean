import RoutineFlow.Proofs.Comments
import RoutineFlow.Proofs.Statements

-- Every rule for expressions, routines and declarations is compared with itself: it does the same
-- to a row and to that row without its comments, if the rules for the parts do.

namespace RoutineFlow.Lowering

open Concrete (Node Cursor Rule Source)
open Syntax (Tree Kind Id)

variable {α β : Type} {root : Node} {c d : Cursor} {parts parts' : Parts} {n m : Nat}

@[simp] theorem emit_uncommented (kind : Kind) (c : Cursor) :
    emit kind c.uncommented = emit kind c := by
  unfold emit Cursor.uncommented
  simp only [Source.span_uncommented]

@[simp] theorem absent_uncommented (c : Cursor) : absent c.uncommented = absent c :=
  emit_uncommented ..

@[simp] theorem emptyBlock_uncommented (c : Cursor) : emptyBlock c.uncommented = emptyBlock c :=
  emit_uncommented ..

@[simp] theorem leaf_uncommented (c : Cursor) : leaf c.uncommented = leaf c := by
  rw [leaf, emit_uncommented, Node.kind, Cursor.row_uncommented]
  rfl

@[simp] theorem text_uncommented (c : Cursor) : text c.uncommented = text c := by
  unfold text Cursor.uncommented
  simp only [Source.text_uncommented]

@[simp] theorem anonymous_uncommented (c : Cursor) : anonymous c.uncommented = anonymous c := by
  unfold anonymous Cursor.uncommented
  simp only [Source.startOf_uncommented]

@[simp] theorem textOf_uncommented (c? : Option Cursor) :
    textOf (c?.map Cursor.uncommented) = textOf c? := by
  cases c?
  case none   => rfl
  case some c => exact text_uncommented c

@[simp] theorem commaChain_uncommented (c : Cursor) (xs : List Id) :
    commaChain c.uncommented xs = commaChain c xs := by
  cases xs
  case nil  => rfl
  case cons => simp only [commaChain, emit_uncommented]

theorem mapM_uncommented {step step' : Cursor → Lower α} {cs : List Cursor}
    (h : ∀ d ∈ cs, step' d.uncommented = step d) :
    (cs.map Cursor.uncommented).mapM step' = cs.mapM step := by
  induction cs
  case nil          => rfl
  case cons c cs ih =>
    have ⟨hc, h⟩ := List.forall_mem_cons.mp h
    rw [List.map_cons, List.mapM_cons, List.mapM_cons, hc, ih h]

theorem optional_uncommented {step step' : Cursor → Lower α} {d? : Option Cursor}
    (h : ∀ d ∈ d?, step' d.uncommented = step d) :
    (d?.map Cursor.uncommented).mapM step' = d?.mapM step := by
  cases d?
  case none   => rfl
  case some d =>
    have hd := h d rfl
    simp [hd]

theorem binding?_uncommented (h : c.In root) (hr : root.Annotated) :
    binding? c.uncommented = (binding? c).map Cursor.uncommented := by
  cases h
  case root                  => rfl
  case child parent hp hc =>
    let holder : Cursor := { node := parent.node }
    have he : binding? c = (bindingFields holder.rule).findSome? holder.field? := by
      rw [binding?, Cursor.parent?_of_mem_children hc]
      rfl
    have hu : binding? c.uncommented =
        (bindingFields holder.rule).findSome? holder.uncommented.field? := by
      rw [binding?, Cursor.uncommented, Cursor.parent?_of_mem_children hc,
        ← Cursor.rule_uncommented holder]
      rfl
    rw [he, hu]
    -- Comments may play a part in a holder only if it binds nothing.
    by_cases hn : bindingFields holder.rule = []
    case pos => rw [hn]; rfl
    case neg =>
      have hf : ∀ part, holder.node.Free part :=
        hp.free hr (fun hk => hn (congrArg bindingFields hk)) fun hk =>
          hn (congrArg bindingFields hk)
      rw [List.map_findSome?]
      exact congrArg (List.findSome? · _) (funext fun part => Cursor.field?_uncommented (hf part))

theorem routineName_uncommented (h : c.In root) (hr : root.Annotated)
    (hf : ∀ part, c.node.Free part) : routineName c.uncommented = routineName c := by
  unfold routineName
  rw [binding?_uncommented h hr, Cursor.field?_uncommented (hf _)]
  cases c.field? "name"
  case some d => exact text_uncommented d
  case none   =>
    cases binding? c
    case some d => exact text_uncommented d
    case none   => exact anonymous_uncommented c

-- A row of a tree that is lowered by rules down to one height, and to another without its comments.
structure Fits (root : Node) (c : Cursor) (n m : Nat) : Prop where
  within      : c.In root
  height      : c.node.height ≤ n
  uncommented : c.uncommented.node.height ≤ m

namespace Fits

theorem succ (h : Fits root c n m) : Fits root c (n + 1) (m + 1) :=
  ⟨h.within, Nat.le_succ_of_le h.height, Nat.le_succ_of_le h.uncommented⟩

variable (h : Fits root c (n + 1) (m + 1))
include h

theorem child (hd : d ∈ c.children) (hb : d.node.isBareComment = false) : Fits root d n m := by
  have hm := Cursor.node_mem_of_mem_children hd
  refine ⟨h.within.child hd, ?_, ?_⟩
  · exact Nat.le_of_lt_succ (Nat.lt_of_lt_of_le (Node.height_lt_of_mem hm) h.height)
  · have hu : d.node.uncommented ∈ c.node.uncommented.children := by
      rw [Node.children_uncommented]
      exact List.mem_map_of_mem (List.mem_filter.mpr ⟨hm, by rw [hb]; rfl⟩)
    exact Nat.le_of_lt_succ (Nat.lt_of_lt_of_le (Node.height_lt_of_mem hu) h.uncommented)

theorem named (hd : d ∈ c.namedChildren) : Fits root d n m :=
  h.child (List.mem_filter.mp hd).1 (Cursor.isBareComment_of_mem_namedChildren hd)

theorem first (hd : d ∈ c.firstNamed?) : Fits root d n m :=
  h.named (List.mem_of_head? hd)

theorem field {part : String} (hf : c.node.Free part) (hd : d ∈ c.field? part) : Fits root d n m :=
  have hd := Cursor.mem_fieldAll_of_field? hd
  h.child (Cursor.mem_fieldAll.mp hd).1 (Cursor.isBareComment_of_mem_fieldAll hf hd)

end Fits

-- Parts of a row are lowered alike, with comments or without.
structure Parts.Alike (root : Node) (parts parts' : Parts) (n m : Nat) : Prop where
  expression : ∀ {c}, Fits root c n m → parts'.expression c.uncommented = parts.expression c
  statement  : ∀ {c}, Fits root c n m → parts'.statement c.uncommented = parts.statement c
  clause     : ∀ {c}, Fits root c n m → parts'.clause c.uncommented = parts.clause c
  -- Comments are left out.
  noStatement : ∀ {c}, c.node.isBareComment → parts.statement c = pure none
  noClause    : ∀ {c}, c.node.isBareComment → parts.clause c = pure []

namespace Parts

theorem statements_cons (parts : Parts) (c : Cursor) (cs : List Cursor) :
    parts.statements (c :: cs) =
      parts.statement c >>= fun x? => (x?.toList ++ ·) <$> parts.statements cs := by
  unfold Parts.statements
  simp only [List.mapM_cons, bind_assoc, pure_bind, map_bind, map_pure]
  refine bind_congr fun x? => bind_congr fun xs => ?_
  cases x? <;> rfl

theorem clauses_cons (parts : Parts) (c : Cursor) (cs : List Cursor) :
    parts.clauses (c :: cs) = parts.clause c >>= fun xs => (xs ++ ·) <$> parts.clauses cs := by
  unfold Parts.clauses
  simp only [List.mapM_cons, bind_assoc, pure_bind, map_bind, map_pure, List.flatten_cons]

end Parts

namespace Parts.Alike

variable (h : parts.Alike root parts' n m) (hc : Fits root c (n + 1) (m + 1))
include h

theorem expressionOr (c : Cursor) {d? : Option Cursor} (hd : ∀ d ∈ d?, Fits root d n m) :
    parts'.expressionOr c.uncommented (d?.map Cursor.uncommented) = parts.expressionOr c d? := by
  cases d?
  case none   => exact absent_uncommented c
  case some d => exact h.expression (hd d rfl)

theorem expression? {d? : Option Cursor} (hd : ∀ d ∈ d?, Fits root d n m) :
    parts'.expression? (d?.map Cursor.uncommented) = parts.expression? d? := by
  rw [expression?_eq, expression?_eq]
  exact optional_uncommented fun d hm => h.expression (hd d hm)

theorem expressions {cs : List Cursor} (hs : ∀ d ∈ cs, Fits root d n m) :
    parts'.expressions (cs.map Cursor.uncommented) = parts.expressions cs :=
  mapM_uncommented fun d hd => h.expression (hs d hd)

theorem statements {cs : List Cursor} (hs : ∀ d ∈ cs, Fits root d n m) :
    parts'.statements (cs.map Cursor.uncommented) = parts.statements cs := by
  unfold Parts.statements
  rw [mapM_uncommented fun d hd => h.statement (hs d hd)]

theorem clauses {cs : List Cursor} (hs : ∀ d ∈ cs, Fits root d n m) :
    parts'.clauses (cs.map Cursor.uncommented) = parts.clauses cs := by
  unfold Parts.clauses
  rw [mapM_uncommented fun d hd => h.clause (hs d hd)]

-- Where comments may stand among the rows, they leave nothing behind.
theorem statements_filter (cs : List Cursor) :
    parts.statements (cs.filter (!·.node.isBareComment)) = parts.statements cs := by
  induction cs
  case nil          => rfl
  case cons c cs ih =>
    rw [List.filter_cons, statements_cons]
    cases hb : c.node.isBareComment
    case false => simp [statements_cons, ih]
    case true  => simp [h.noStatement hb, ih]

theorem clauses_filter (cs : List Cursor) :
    parts.clauses (cs.filter (!·.node.isBareComment)) = parts.clauses cs := by
  induction cs
  case nil          => rfl
  case cons c cs ih =>
    rw [List.filter_cons, clauses_cons]
    cases hb : c.node.isBareComment
    case false => simp [clauses_cons, ih]
    case true  => simp [h.noClause hb, ih]

include hc

theorem field {part : String} (hf : c.node.Free part) :
    parts'.field c.uncommented part = parts.field c part := by
  rw [Parts.field, Cursor.field?_uncommented hf, Parts.field]
  exact h.expressionOr c fun d hd => hc.field hf hd

theorem block : parts'.block c.uncommented = parts.block c := by
  rw [Parts.block, Cursor.namedChildren_uncommented, h.statements fun d hd => hc.named hd]
  simp only [emit_uncommented]
  rfl

omit hc in
theorem routineBody (hc : Fits root c n m) :
    parts'.routineBody c.uncommented = parts.routineBody c := by
  unfold Parts.routineBody
  rw [Cursor.rule_uncommented, h.block hc.succ, h.expression hc]
  simp only [emit_uncommented]

theorem routine (hr : root.Annotated) (hf : ∀ part, c.node.Free part) :
    parts'.routine c.uncommented = parts.routine c := by
  unfold Parts.routine
  rw [routineName_uncommented hc.within hr hf, Cursor.field?_uncommented (hf "body"),
    optional_uncommented fun d hd => h.routineBody (hc.field (hf _) hd)]
  simp only [emit_uncommented]

theorem declarator (hf : ∀ part, c.node.Free part) :
    parts'.declarator c.uncommented = parts.declarator c := by
  unfold Parts.declarator
  rw [Cursor.field?_uncommented (hf _), Cursor.field?_uncommented (hf _), textOf_uncommented,
    h.expression? fun d hd => hc.field (hf _) hd]
  simp only [emit_uncommented]

theorem declaration (hr : root.Annotated) :
    parts'.declaration c.uncommented = parts.declaration c := by
  have hd : ∀ d ∈ c.namedChildren.filter (·.rule = .variableDeclarator),
      parts'.declarator d.uncommented = parts.declarator d := by
    intro d hd
    have ⟨hd, hv⟩ := List.mem_filter.mp hd
    have hv : d.rule = .variableDeclarator := of_decide_eq_true hv
    have hd := hc.named hd
    exact h.declarator hd.succ (hd.within.free hr (by simp [hv]) (by simp [hv]))
  unfold Parts.declaration
  rw [Cursor.namedChildren_uncommented, List.filter_map]
  simp only [Function.comp_def, Cursor.rule_uncommented, emit_uncommented, mapM_uncommented hd]

theorem staticBlock (hf : ∀ part, c.node.Free part) :
    parts'.staticBlock c.uncommented = parts.staticBlock c := by
  have hi : (c.uncommented.field? "body" <|>
      c.uncommented.namedChildren.find? (·.rule = .statementBlock)) =
      (c.field? "body" <|> c.namedChildren.find? (·.rule = .statementBlock)).map
        Cursor.uncommented := by
    rw [Cursor.field?_uncommented (hf _), Cursor.namedChildren_uncommented, List.find?_map]
    simp only [Function.comp_def, Cursor.rule_uncommented]
    cases c.field? "body" <;> rfl
  have hm : ∀ d ∈ (c.field? "body" <|> c.namedChildren.find? (·.rule = .statementBlock)),
      Fits root d n m := by
    intro d hd
    cases hb : c.field? "body"
    case some e =>
      rw [hb] at hd
      cases hd
      exact hc.field (hf _) hb
    case none   =>
      rw [hb] at hd
      exact hc.named (List.mem_of_find?_eq_some hd)
  unfold Parts.staticBlock
  rw [hi]
  simp only [emit_uncommented]
  cases hd : (c.field? "body" <|> c.namedChildren.find? (·.rule = .statementBlock))
  case none   => rfl
  case some d =>
    have hs := h.statements fun e he => (hm d hd).succ.named he
    rw [Option.map_some, Option.elim_some, Cursor.namedChildren_uncommented, hs]
    rfl

theorem classField (hf : ∀ part, c.node.Free part) :
    parts'.classField c.uncommented = parts.classField c := by
  have ht : textOf (c.uncommented.field? "property" <|> c.uncommented.field? "name") =
      textOf (c.field? "property" <|> c.field? "name") := by
    rw [Cursor.field?_uncommented (hf _), Cursor.field?_uncommented (hf _)]
    cases hp : c.field? "property"
    case none   => exact textOf_uncommented _
    case some d => exact text_uncommented d
  unfold Parts.classField
  rw [ht, Cursor.field?_uncommented (hf _), h.expression? fun d hd => hc.field (hf _) hd]
  simp only [emit_uncommented]

theorem member (hr : root.Annotated) : parts'.member c.uncommented = parts.member c := by
  unfold Parts.member
  rw [Cursor.rule_uncommented]
  have hf (hm : c.rule ≠ .forStatement) := hc.within.free hr hm
  cases hk : c.rule
  case method      => exact h.routine hc hr (hf (by simp [hk]) (by simp [hk]))
  case staticBlock => exact h.staticBlock hc (hf (by simp [hk]) (by simp [hk]))
  case field       => exact h.classField hc (hf (by simp [hk]) (by simp [hk]))
  all_goals exact leaf_uncommented c

theorem classDecl (hr : root.Annotated) (hf : ∀ part, c.node.Free part) :
    parts'.classDecl c.uncommented = parts.classDecl c := by
  have hm : ((c.uncommented.field? "body").elim [] Cursor.namedChildren).mapM parts'.member =
      ((c.field? "body").elim [] Cursor.namedChildren).mapM parts.member := by
    rw [Cursor.field?_uncommented (hf _)]
    cases hd : c.field? "body"
    case none   => simp only [Option.map_none, Option.elim_none, List.mapM_nil]
    case some d =>
      rw [Option.map_some, Option.elim_some, Cursor.namedChildren_uncommented]
      exact mapM_uncommented fun e he => h.member ((hc.field (hf _) hd).succ.named he).succ hr
  unfold Parts.classDecl
  rw [hm, Cursor.field?_uncommented (hf _)]
  cases c.field? "name"
  case none   => simp only [Option.map_none, anonymous_uncommented, emit_uncommented]
  case some d => simp only [Option.map_some, text_uncommented, emit_uncommented]

theorem leadingWord (token : String) :
    parts'.leadingWord token c.uncommented = parts.leadingWord token c := by
  unfold Parts.leadingWord
  rw [Cursor.firstNamed?_uncommented]
  cases hd : c.firstNamed?
  case none   => exact leaf_uncommented c
  case some d => simp only [Option.map_some, h.expression (hc.first hd), emit_uncommented]

theorem arguments (hf : ∀ part, c.node.Free part) :
    parts'.arguments c.uncommented = parts.arguments c := by
  unfold Parts.arguments
  rw [Cursor.field?_uncommented (hf _)]
  cases hd : c.field? "arguments"
  case none      => rfl
  case some args =>
    have ha := hc.field (hf _) hd
    simp only [Option.map_some, Cursor.rule_uncommented]
    split
    case isTrue  =>
      rw [Cursor.namedChildren_uncommented]
      exact h.expressions fun e he => ha.succ.named he
    case isFalse =>
      have he : ∀ e ∈ [args], Fits root e n m := List.forall_mem_singleton.mpr ha
      exact h.expressions he

theorem callee (hr : root.Annotated) (hf : ∀ part, c.node.Free part) :
    parts'.callee (c.uncommented.field? "function") = parts.callee (c.field? "function") := by
  rw [Cursor.field?_uncommented (hf _)]
  unfold Parts.callee
  cases hd : c.field? "function"
  case none          => rfl
  case some function =>
    have hd := hc.field (hf _) hd
    simp only [Option.map_some, Cursor.rule_uncommented]
    split
    case h_1    => simp only [text_uncommented]
    case h_2 hk =>
      have hf := hd.within.free hr (by simp [hk]) (by simp [hk])
      rw [Cursor.field?_uncommented (hf _), Cursor.field?_uncommented (hf _), textOf_uncommented,
        h.expression? fun e he => hd.succ.field (hf _) he]
    case h_3    => rw [h.expression hd]

theorem call (hr : root.Annotated) (hf : ∀ part, c.node.Free part) :
    parts'.call c.uncommented = parts.call c := by
  unfold Parts.call
  rw [h.callee hc hr hf, h.arguments hc hf]
  simp only [emit_uncommented]

omit h hc in
-- Down the chain of left operands.
theorem binary {c : Cursor} (h : parts.Alike root parts' n m) (hc : Fits root c (n + 1) (m + 1))
    (hr : root.Annotated) (hk : c.rule = .binary) :
    parts'.binary c.uncommented = parts.binary c := by
  have hf := hc.within.free hr (by simp [hk]) (by simp [hk])
  have hl : parts'.leftOperand c.uncommented = parts.leftOperand c := by
    unfold leftOperand
    rw [Cursor.field?_uncommented (hf _)]
    cases hd : c.field? "left"
    case none      => exact absent_uncommented c
    case some left =>
      have := Cursor.height_lt_of_field? hd
      have hd := hc.field (hf _) hd
      simp only [Option.map_some, Cursor.rule_uncommented]
      split
      case isTrue hk => exact h.binary hd.succ hr hk
      case isFalse   => exact h.expression hd
  rw [binary_eq, binary_eq, hl]
  unfold operator
  rw [Cursor.field?_uncommented (hf _), textOf_uncommented, h.field hc (hf _)]
  simp only [emit_uncommented]
termination_by c.node.height

omit hc in
theorem cast (c : Cursor) {expr? type? : Option Cursor} (he : ∀ d ∈ expr?, Fits root d n m) :
    parts'.cast c.uncommented (expr?.map Cursor.uncommented) (type?.map Cursor.uncommented) =
      parts.cast c expr? type? := by
  unfold Parts.cast
  rw [textOf_uncommented, h.expressionOr c he]
  simp only [emit_uncommented]

theorem expressionRule (hr : root.Annotated) :
    parts'.expressionRule c.uncommented = parts.expressionRule c := by
  have hf (hf : c.rule ≠ .forStatement) (ho : c.rule ≠ .other) := hc.within.free hr hf ho
  have hi (i : Nat) : ∀ d ∈ c.namedChildren[i]?, Fits root d n m :=
    fun d hd => hc.named (List.mem_of_getElem? hd)
  have hn := h.expressionOr c fun d hd => hc.first hd
  unfold Parts.expressionRule
  rw [Cursor.rule_uncommented]
  cases hk : c.rule
  all_goals simp only [hk, ne_eq, reduceCtorEq, not_false_eq_true, forall_const] at hf
  case parenthesized       =>
    simp only [Cursor.firstNamed?_uncommented, hn, emit_uncommented]
  case binary              => exact h.binary hc hr hk
  case unary               =>
    simp only [Parts.unary, Cursor.field?_uncommented (hf _), textOf_uncommented,
      h.field hc (hf _), emit_uncommented]
  case await               => exact h.leadingWord hc "await"
  case spread              => exact h.leadingWord hc "..."
  case yield               => exact h.leadingWord hc "yield"
  case ternary | assignment | augmentedAssignment | subscript =>
    simp only [h.field hc (hf _), emit_uncommented]
  case call                => exact h.call hc hr hf
  case new                 =>
    simp only [Cursor.field?_uncommented (hf _), textOf_uncommented, h.arguments hc hf,
      emit_uncommented]
  case typeCast | typeAssertion =>
    simp only [Cursor.namedChildren_uncommented, List.getElem?_map]
    exact h.cast c (hi _)
  case nonNull             => rw [Cursor.firstNamed?_uncommented, hn]
  case sequence            =>
    have hs : parts'.clauses
        (if c.uncommented.node.row.named then c.uncommented.namedChildren else []) =
        parts.clauses (if c.node.row.named then c.namedChildren else []) := by
      rw [Cursor.row_uncommented, Cursor.namedChildren_uncommented]
      split
      case isTrue  => exact h.clauses fun d hd => hc.named hd
      case isFalse => rfl
    simp only [hs, commaChain_uncommented, absent_uncommented]
  case function            => exact h.routine hc hr hf
  case classExpression     => exact h.classDecl hc hr hf
  case identifier | name | member | literal => simp only [text_uncommented, emit_uncommented]
  all_goals exact leaf_uncommented c

theorem clauseRule (hr : root.Annotated) :
    parts'.clauseRule c.uncommented = parts.clauseRule c := by
  have hs : parts'.clauses c.uncommented.namedChildren = parts.clauses c.namedChildren := by
    rw [Cursor.namedChildren_uncommented]
    exact h.clauses fun d hd => hc.named hd
  unfold Parts.clauseRule
  rw [Cursor.row_uncommented, Cursor.rule_uncommented, hs, h.declaration hc hr,
    h.expressionRule hc hr]

end Parts.Alike
end RoutineFlow.Lowering
