import Mathlib.Data.List.ReduceOption
import RoutineFlow.Proofs.Chains

namespace RoutineFlow.Lowering

open Concrete (Node Cursor Rule)
open Syntax (Tree Kind Role Id)

variable {o : Origin} {t : Tree} {c d : Cursor} {rest : List Id} {role : Role} {parts : Parts}

theorem Part.weaken {n : Node} {part : String} {role' : Role} {xs : List Id}
    (h : Part o n part role t xs) (hr : ∀ {kind}, o.Admits role kind → o.Admits role' kind) :
    Part o n part role' t xs where
  plays       := h.plays
  clear       := h.clear
  admits x hx := have ⟨kind, hk, ha⟩ := h.admits x hx; ⟨kind, hk, hr ha⟩

theorem holds_unwrapped (c : Cursor) : c.node.Holds (unwrapped c).node := by
  unfold unwrapped
  split
  case isFalse => exact .self
  case isTrue  =>
    cases hf : c.firstNamed?
    case none   => exact .self
    case some d => exact Cursor.holds_of_mem_children (Cursor.mem_children_of_firstNamed? hf)

-- What stands below a node of a known rule is no static block, if that node is no class body.
theorem not_static_of_rule (hS : o.root.Sheltered) (hn : o.root.Holds c.node)
    (hd : d ∈ c.children) (hr : c.rule ≠ .other) : d.rule ≠ .staticBlock := by
  refine hS.not_static hn (Cursor.node_mem_of_mem_children hd) fun hk => hr ?_
  rw [Cursor.rule, Node.rule, hk]
  rfl

-- A block of the `try` statement `c`, at or below the child that plays a part.
structure TryBlock (o : Origin) (c : Cursor) (part : String) (d : Cursor) : Prop where
  holds    : c.node.HoldsIn part d.node
  noStatic : o.root.Sheltered → ∀ e ∈ d.namedChildren, e.rule ≠ .staticBlock

-- The blocks stand below different children.
theorem tryBlocks {body? handler? finalizer? : Option Cursor} (hn : o.root.Holds c.node)
    (hb : ∀ d ∈ body?, TryBlock o c "body" d) (hh : ∀ d ∈ handler?, TryBlock o c "handler" d)
    (hf : ∀ d ∈ finalizer?, TryBlock o c "finalizer" d) :
    (∀ d ∈ [body?, handler?, finalizer?].reduceOption, ∃ part, TryBlock o c part d) ∧
    [body?, handler?, finalizer?].reduceOption.Pairwise fun d e => o.root.Beside d.node e.node := by
  refine ⟨fun d hd => ?_, List.pairwise_filterMap.mpr ?_⟩
  · simp only [List.reduceOption_mem_iff, List.mem_cons, List.not_mem_nil, or_false] at hd
    obtain hd | hd | hd := hd
    · exact ⟨_, hb d hd.symm⟩
    · exact ⟨_, hh d hd.symm⟩
    · exact ⟨_, hf d hd.symm⟩
  · have beside {part part' : String} {d e : Cursor} (hd : TryBlock o c part d)
        (he : TryBlock o c part' e) (hp : part ≠ part') : o.root.Beside d.node e.node :=
      hd.holds.beside he.holds hn hp
    refine .cons (List.forall_mem_cons.mpr ⟨?_, List.forall_mem_singleton.mpr ?_⟩)
      (.cons (List.forall_mem_singleton.mpr ?_) (List.pairwise_singleton ..))
    · exact fun d hd e he => beside (hb d hd) (hh e he) (by simp)
    · exact fun d hd e he => beside (hb d hd) (hf e he) (by simp)
    · exact fun d hd e he => beside (hh d hd) (hf e he) (by simp)

namespace Parts.Sound

variable (h : parts.Sound o) (hn : o.root.Holds c.node)
include h hn

-- An expression below a child that plays a part.
theorem unwrappedPart {part : String} (hm : d ∈ c.children) (hf : d.node.row.field? = some part) :
    Yields o (fun x => [x]) (parts.expression (unwrapped d)) (Part o c.node part .value) := by
  have hd := hn.trans (Cursor.holds_of_mem_children hm)
  have hu := holds_unwrapped d
  exact ((h.expression (hd.trans hu)).up hu).part hm hf

theorem condition :
    Yields o (fun x => [x]) (parts.condition c) (Part o c.node "condition" .value) := by
  unfold Parts.condition
  cases hf : c.field? "condition"
  case none   => exact absent_part hn _ rfl
  case some d =>
    exact h.unwrappedPart hn (Cursor.mem_children_of_field? hf) (Cursor.field?_of_field? hf)

theorem statementOr {d? : Option Cursor} (hd : ∀ d ∈ d?, c.node.Holds d.node)
    (hs : o.root.Sheltered → ∀ d ∈ d?, d.rule ≠ .staticBlock) :
    Yields o (fun x => [x]) (parts.statementOr c d?) (Stand o [c.node] .statement) := by
  have hy : Yields o Option.toList (d?.elim (pure none) parts.statement)
      (Stand o [c.node] .statement) := by
    cases d?
    case none   => exact .pure rfl fun _ => .nil
    case some d => exact (h.statement (hn.trans (hd d rfl)) fun hS => hs hS d rfl).up (hd d rfl)
  intro t rest hg
  refine (hy hg).bind fun x? t₁ _ hx => ?_
  obtain _ | x := x?
  case some => exact .pure hx
  case none => exact emit_yields hn rfl rfl hx.1

theorem body (part : String) (hr : c.rule ≠ .other) :
    Yields o (fun x => [x]) (parts.body c part) (Part o c.node part .statement) := by
  unfold Parts.body
  split
  case h_2      => exact absent_part hn _ rfl
  case h_1 d hf =>
    have hm := Cursor.mem_children_of_field? hf
    refine Yields.part ?_ hm (Cursor.field?_of_field? hf)
    have hd := hn.trans (Cursor.holds_of_mem_children hm)
    refine h.statementOr hd (fun e he => ?_) fun hS e he => ?_
    · cases he; exact .self
    · cases he; exact not_static_of_rule hS hn hm hr

theorem alternative (hr : c.rule ≠ .other) : Yields o Option.toList
    ((c.field? "alternative").mapM parts.alternative) (Part o c.node "alternative" .statement) := by
  refine optional (fun d hf => ?_) fun _ => .nil
  have hm := Cursor.mem_children_of_field? hf
  have hd := hn.trans (Cursor.holds_of_mem_children hm)
  refine Yields.part ?_ hm (Cursor.field?_of_field? hf)
  unfold Parts.alternative
  split
  case isTrue he  =>
    refine h.statementOr hd (fun e he => ?_) fun hS e he' => ?_
    · exact Cursor.holds_of_mem_children (Cursor.mem_children_of_firstNamed? he)
    · exact not_static_of_rule hS hd (Cursor.mem_children_of_firstNamed? he') (by rw [he]; nofun)
  case isFalse =>
    refine h.statementOr hd (fun e he => ?_) fun hS e he => ?_
    · cases he; exact .self
    · cases he; exact not_static_of_rule hS hn hm hr

theorem ifStatement (hr : c.rule ≠ .other) :
    Yields o (fun x => [x]) (parts.ifStatement c) (Stand o [c.node] .statement) := by
  intro t rest hg
  refine (Gathered.nil hg).next (h.condition hn) hn (by simp) fun x t₁ h₁ => ?_
  refine h₁.next (h.body hn "consequence" hr) hn (by simp) fun y t₂ h₂ => ?_
  refine h₂.next (h.alternative hn hr) hn (by simp) fun z? t₃ h₃ => ?_
  exact h₃.emit hn rfl rfl

theorem clausesOf (part : String) (hs : ∀ d ∈ c.fieldAll part, Suits o d role) :
    Yields o id (parts.clauses (c.fieldAll part)) (Part o c.node part role) := by
  have hd : ∀ d ∈ c.fieldAll part, Yields o id (parts.clause d) (Stand o [d.node] role) :=
    fun d hd => h.clause (hn.trans (Cursor.holds_of_mem_children (Cursor.mem_fieldAll.mp hd).1))
      (hs d hd)
  exact (Yields.playing hn hd).map List.flatten fun _ => List.flatMap_id.symm

omit h in
-- The clauses of the header of a loop but for the first.
theorem header_suits (hr : c.rule = .forStatement) {part : String}
    (hp : part = "condition" ∨ part = "increment") : ∀ d ∈ c.fieldAll part, Suits o d .value := by
  intro d hd
  have ⟨hm, hf⟩ := Cursor.mem_fieldAll.mp hd
  refine .inr ⟨rfl, fun hG => ?_⟩
  refine hG.not_declaration_header hn (Cursor.node_mem_of_mem_children hm) hr ?_
  rw [hf, Option.some.injEq, Option.some.injEq]
  exact hp

theorem joinedConditions (hr : c.rule = .forStatement) : Yields o Option.toList
    (parts.clauses (c.fieldAll "condition") >>= commaChain c)
    (Part o c.node "condition" .value) := by
  intro t rest hg
  have hs := header_suits hn hr (.inl rfl)
  refine (h.clausesOf hn "condition" hs hg).bind fun xs t₁ _ ⟨hg₁, hx⟩ => ?_
  refine (commaChain_meets (joins_plays o c "condition") hn hg₁ hx.plays hx.clear hx.admits).mono
    fun x? t₂ _ ⟨hg₂, hp⟩ => ⟨hg₂, fun x hm => (hp x hm).1, ?_, fun x hm => (hp x hm).2⟩
  cases x?
  case none => exact .nil
  case some => exact List.pairwise_singleton ..

theorem forStatement (hr : c.rule = .forStatement) :
    Yields o (fun x => [x]) (parts.forStatement c) (Stand o [c.node] .statement) := by
  have hi : Yields o id (parts.clauses (c.fieldAll "initializer"))
      (Part o c.node "initializer" .initial) := h.clausesOf hn _ fun _ _ => .inl rfl
  have hu := h.clausesOf hn "increment" (header_suits hn hr (.inr rfl))
  intro t rest hg
  refine (Gathered.nil hg).next hi hn (by simp) fun init t₁ h₁ => ?_
  have hc {β : Type} {f : Option Id → Lower β} : (do
      let conditions ← parts.clauses (c.fieldAll "condition")
      let condition? ← commaChain c conditions
      f condition?) = (parts.clauses (c.fieldAll "condition") >>= commaChain c) >>= f := by
    rw [bind_assoc]
  rw [hc]
  refine h₁.next (h.joinedConditions hn hr) hn (by simp) fun condition? t₂ h₂ => ?_
  refine h₂.next hu hn (by simp) fun update t₃ h₃ => ?_
  refine h₃.next (h.body hn "body" (by rw [hr]; nofun)) hn (by simp) fun body t₄ h₄ => ?_
  exact h₄.emit hn rfl rfl

theorem forInStatement (hr : c.rule ≠ .other) :
    Yields o (fun x => [x]) (parts.forInStatement c) (Stand o [c.node] .statement) := by
  intro t rest hg
  have hi : Yields o (fun x => [x]) (parts.field c "right") (Part o c.node "right" .initial) :=
    (h.field hn "right").mono fun _ _ hp => hp.weaken (·.initial_of_value)
  refine (Gathered.nil hg).next hi hn (by simp) fun iterable t₁ h₁ => ?_
  refine h₁.next (h.body hn "body" hr) hn (by simp) fun body t₂ h₂ => ?_
  exact h₂.emit hn rfl rfl

-- The statements of all cases below a row.
theorem cases
    (hs : o.root.Sheltered → ∀ k ∈ c.children, ∀ d ∈ k.children, d.rule ≠ .staticBlock) :
    Yields o id (parts.statements (c.namedChildren.flatMap (·.fieldAll "body")))
      (Stand o [c.node] .statement) := by
  have hd {d : Cursor} (hd : d ∈ c.namedChildren.flatMap (·.fieldAll "body")) :
      ∃ k ∈ c.children, d ∈ k.children := by
    have ⟨k, hk, hd⟩ := List.mem_flatMap.mp hd
    exact ⟨k, (List.mem_filter.mp hk).1, (Cursor.mem_fieldAll.mp hd).1⟩
  have hh {d : Cursor} (hm : d ∈ c.namedChildren.flatMap (·.fieldAll "body")) :
      c.node.Holds d.node := by
    have ⟨k, hk, hd⟩ := hd hm
    exact (Cursor.holds_of_mem_children hk).trans (Cursor.holds_of_mem_children hd)
  have hy : ∀ d ∈ c.namedChildren.flatMap (·.fieldAll "body"),
      Yields o Option.toList (parts.statement d) (Stand o [d.node] .statement) := fun d hm =>
    h.statement (hn.trans (hh hm)) fun hS => have ⟨k, hk, hd⟩ := hd hm; hs hS k hk d hd
  refine ((Yields.each hy (List.pairwise_flatMap.mpr ⟨fun k hk => ?_, ?_⟩)).map List.reduceOption
    (List.filterMap_eq_flatMap_toList id)).mono fun _ _ hs => hs.within fun n hm => ?_
  · have hk := hn.trans (Cursor.holds_of_mem_children (List.mem_filter.mp hk).1)
    exact (Cursor.children_beside hk).sublist List.filter_sublist
  · refine ((Cursor.children_beside hn).sublist List.filter_sublist).imp fun hb d hd e he => ?_
    exact hb.below (Cursor.holds_of_mem_children (Cursor.mem_fieldAll.mp hd).1)
      (Cursor.holds_of_mem_children (Cursor.mem_fieldAll.mp he).1)
  · have ⟨d, hd, he⟩ := List.mem_map.mp hm
    exact ⟨c.node, .head _, he ▸ hh hd⟩

omit h in
theorem tryBlock_body (hr : c.rule = .tryStatement) :
    ∀ d ∈ c.field? "body", TryBlock o c "body" d := by
  intro d hd
  have hm := Cursor.node_mem_of_mem_children (Cursor.mem_children_of_field? hd)
  refine ⟨Cursor.holdsIn_of_field? hd, fun hS e he => ?_⟩
  exact hS.not_static_below hn hm
    (Cursor.node_mem_of_mem_children (List.mem_filter.mp he).1) (congrArg Rule.isClass hr)

omit h in
theorem tryBlock_clause (hr : c.rule = .tryStatement) (part : String) :
    ∀ d ∈ (c.field? part).bind (·.field? "body"), TryBlock o c part d := by
  intro d hd
  have ⟨q, hq, hd⟩ := Option.bind_eq_some_iff.mp hd
  have hm := Cursor.node_mem_of_mem_children (Cursor.mem_children_of_field? hq)
  have hm' := Cursor.node_mem_of_mem_children (Cursor.mem_children_of_field? hd)
  refine ⟨⟨q.node, hm, Cursor.field?_of_field? hq, .child .self hm'⟩, fun hS e he => ?_⟩
  exact hS.not_static_clause hn hm hm'
    (Cursor.node_mem_of_mem_children (List.mem_filter.mp he).1) (congrArg Rule.hasClauses hr)

theorem tryBlock {part : String} (hd : TryBlock o c part d) :
    Yields o (fun x => [x]) (parts.block d) (Stand o [d.node] .body) :=
  h.block (hn.trans hd.holds.holds) hd.noStatic

theorem tryStatement (hr : c.rule = .tryStatement) :
    Yields o (fun x => [x]) (parts.tryStatement c) (Stand o [c.node] .statement) := by
  let blocks := [c.field? "body", (c.field? "handler").bind (·.field? "body"),
    (c.field? "finalizer").bind (·.field? "body")].reduceOption
  have ⟨hp, hb⟩ : (∀ d ∈ blocks, ∃ part, TryBlock o c part d) ∧
      blocks.Pairwise fun d e => o.root.Beside d.node e.node :=
    tryBlocks hn (tryBlock_body hn hr) (tryBlock_clause hn hr _) (tryBlock_clause hn hr _)
  have hy : Yields o id (blocks.mapM parts.block) (Stand o (blocks.map (·.node)) .body) :=
    (Yields.each (fun d hd => have ⟨_, hd⟩ := hp d hd; h.tryBlock hn hd) hb).congr
      List.flatMap_singleton'
  refine Yields.emit (hy.mono fun _ _ hs => hs.within fun n hm => ?_) hn (fun _ => rfl) fun _ => rfl
  have ⟨d, hd, he⟩ := List.mem_map.mp hm
  have ⟨_, hd⟩ := hp d hd
  exact ⟨c.node, .head _, he ▸ hd.holds.holds⟩

theorem switchStatement (hr : c.rule = .switchStatement) :
    Yields o (fun x => [x]) (parts.switchStatement c) (Stand o [c.node] .statement) := by
  have hv : Yields o Option.toList (parts.expression? ((c.field? "value").map unwrapped))
      (Part o c.node "value" .value) := by
    rw [expression?_eq]
    refine optional (fun d hd => ?_) fun _ => .nil
    have ⟨e, he, hu⟩ := Option.map_eq_some_iff.mp hd
    exact hu ▸ h.unwrappedPart hn (Cursor.mem_children_of_field? he) (Cursor.field?_of_field? he)
  have hs : Yields o id (parts.statements
      (((c.field? "body").elim [] Cursor.namedChildren).flatMap (·.fieldAll "body")))
      (Part o c.node "body" .statement) := by
    cases hb : c.field? "body"
    case none   => exact .pure rfl fun _ => .nil
    case some b =>
      have hm := Cursor.mem_children_of_field? hb
      have hh := Cursor.holds_of_mem_children hm
      exact (h.cases (hn.trans hh) fun hS k hk d hd => hS.not_static_clause hn
        (Cursor.node_mem_of_mem_children hm) (Cursor.node_mem_of_mem_children hk)
        (Cursor.node_mem_of_mem_children hd) (congrArg Rule.hasClauses hr)).part hm
          (Cursor.field?_of_field? hb)
  intro t rest hg
  refine (Gathered.nil hg).next hv hn (by simp) fun discriminant? t₁ h₁ => ?_
  refine h₁.next hs hn (by simp) fun statements t₂ h₂ => ?_
  exact h₂.emit hn rfl rfl

theorem statementRule (hs : o.root.Sheltered → c.rule ≠ .staticBlock) :
    Yields o Option.toList (parts.statementRule c) (Stand o [c.node] .statement) := by
  have hf : ∀ d ∈ c.firstNamed?, d ∈ c.children := fun d hd => Cursor.mem_children_of_firstNamed? hd
  have one {step : Lower Id} (hy : Yields o (fun x => [x]) step (Stand o [c.node] .statement)) :
      Yields o Option.toList (some <$> step) (Stand o [c.node] .statement) :=
    hy.map some fun _ => rfl
  have value {step : Lower Id} (hy : Yields o (fun x => [x]) step (Stand o [c.node] .value)) :
      Yields o Option.toList (some <$> step) (Stand o [c.node] .statement) :=
    one (hy.weaken (·.statement_of_value))
  have inner {part : String} {d : Cursor} (hd : c.field? part = some d) (hr : c.rule ≠ .other) :
      Yields o Option.toList (parts.statement d) (Stand o [c.node] .statement) := by
    have hm := Cursor.mem_children_of_field? hd
    have hd := Cursor.holds_of_mem_children hm
    exact (h.statement (hn.trans hd) fun hS => not_static_of_rule hS hn hm hr).up hd
  unfold Parts.statementRule
  cases hr : c.rule
  case emptyStatement      => exact .pure rfl fun _ => .nil
  case comment             => exact .pure rfl fun _ => .nil
  case statementBlock      =>
    refine one ((h.block hn fun hS d hd => ?_).weaken (·.statement_of_body))
    exact not_static_of_rule hS hn (List.mem_filter.mp hd).1 (by simp [hr])
  case staticBlock         =>
    refine one ((h.staticBlock hn hr).weaken fun ha => ⟨ha.tolerated, fun hS => ?_, fun hG => ?_⟩)
    · exact absurd hr (hs hS)
    · exact absurd hr (hs hG.sheltered)
  case expressionStatement =>
    exact (h.expression? hn hf).weaken (·.statement_of_value)
  case declaration         => exact one (h.declaration hn fun _ => rfl)
  case ifStatement         => exact one (h.ifStatement hn (by simp [hr]))
  case whileStatement      =>
    intro t rest hg
    refine (Gathered.nil hg).next (h.condition hn) hn (by simp) fun x t₁ h₁ => ?_
    refine h₁.next (h.body hn "body" (by simp [hr])) hn (by simp) fun y t₂ h₂ => ?_
    exact (h₂.emit hn rfl rfl).bind fun _ _ _ hp => .pure hp
  case doStatement         =>
    intro t rest hg
    refine (Gathered.nil hg).next (h.body hn "body" (by simp [hr])) hn (by simp)
      fun x t₁ h₁ => ?_
    refine h₁.next (h.condition hn) hn (by simp) fun y t₂ h₂ => ?_
    exact (h₂.emit hn rfl rfl).bind fun _ _ _ hp => .pure hp
  case forStatement        => exact one (h.forStatement hn hr)
  case forInStatement      => exact one (h.forInStatement hn (by simp [hr]))
  case returnStatement     =>
    have he := (h.expression? hn hf).emit (r := .statement) hn (f := .returnStmt)
      (fun _ => rfl) fun _ => rfl
    exact fun _ _ hg => one he hg
  case throwStatement      =>
    have he := (h.expressionOr hn hf).emit (r := .statement) hn (f := .throwStmt)
      (fun _ => rfl) fun _ => rfl
    exact fun _ _ hg => one he hg
  case tryStatement        => exact one (h.tryStatement hn hr)
  case switchStatement     => exact one (h.switchStatement hn hr)
  case breakStatement      => exact one (emit_yields hn rfl rfl)
  case continueStatement   => exact one (emit_yields hn rfl rfl)
  case functionDeclaration => exact value (h.routine hn)
  case classDeclaration    => exact value (h.classDecl hn)
  case exportStatement | labeledStatement =>
    dsimp only
    split
    case h_1 hd => exact inner hd (by simp [hr])
    case h_2    => exact value (leaf_yields hn)
  all_goals exact value (h.expressionRule hn)

end Parts.Sound

theorem sound_upTo (o : Origin) (height : Nat) : (Parts.upTo height).Sound o := by
  induction height
  case zero =>
    exact ⟨leaf_yields, fun _ _ => .pure rfl fun _ => .nil, fun _ _ => .pure rfl fun _ => .nil⟩
  case succ height ih =>
    exact ⟨ih.expressionRule, ih.statementRule, ih.clauseRule⟩

-- All of the program hangs together below one node, which no other one lists.
theorem program_meets (o : Origin) : Meets o (program { node := o.root }) .empty fun top t =>
    Growing o t [top] ∧ ∃ items, t.kind? top = some (.program items) := by
  have hs : o.root.Sheltered → ∀ d ∈ Cursor.namedChildren { node := o.root },
      d.rule ≠ .staticBlock := fun hS d hd =>
    hS.not_static_root (Cursor.node_mem_of_mem_children (List.mem_filter.mp hd).1)
  have hy := (sound_upTo o o.root.height).statements (c := { node := o.root }) .self
    List.filter_sublist hs
  refine (hy Growing.empty).bind fun items t _ ⟨hg, hx⟩ => ?_
  have hm : (Kind.program items).slots.map (·.1) = items := Kind.slots_map_fst _
  rw [← hm] at hg
  exact (emit_meets .self hg hx.ready).mono fun top t' _ ⟨hg, hk, _⟩ => ⟨hg, items, hk⟩

theorem lower_eq_ok (h : o.root.row.hasError = false) :
    lower o.source o.root = .ok (program { node := o.root } o.source .empty).2 := by
  unfold lower
  rw [h]
  rfl

end RoutineFlow.Lowering
