import RoutineFlow.Proofs.Expressions

-- Chains of operands: those that operators join from the left, and those that commas do. Then the
-- rule of each kind of expression.

namespace RoutineFlow.Lowering

open Concrete (Node Cursor Rule)
open Syntax (Tree Kind Role Id)

variable {o : Origin} {t : Tree} {c : Cursor} {xs rest : List Id} {role : Role} {parts : Parts}

-- What is evaluated may stand for what is declared.
theorem Suits.weaken {α : Type} {ids : α → List Id} {step : Lower α} (hs : Suits o c role)
    (hy : Yields o ids step (Stand o [c.node] .value)) :
    Yields o ids step (Stand o [c.node] role) := by
  cases hs
  case inl hs => exact hs ▸ hy.weaken (·.initial_of_value)
  case inr hs => exact hs.1 ▸ hy

-- What is true of the parts that commas join, and of the commas.
structure Joins (o : Origin) (c : Cursor) (p : Tree → Id → Prop) : Prop where
  mono  : ∀ {t t' x}, t.Grows t' → p t x → p t' x
  stems : ∀ {t x}, p t x → Stems o t c.node x
  comma : ∀ {t x l r}, t.kind? x = some (.binary (.other ",") l r) →
    t.span? x = some (o.source.span c.node) → p t l → p t r → p t x

-- The commas after the first part. Each has the range of the whole chain, so it hides the parts
-- after it.
theorem foldl_comma_meets {p : Tree → Id → Prop} (hj : Joins o c p) (hn : o.root.Holds c.node)
    {left : Id} (hg : Growing o t (left :: (xs ++ rest))) (hp : ∀ x ∈ left :: xs, p t x)
    (hc : ∀ x ∈ xs, Clear o t c.node left x)
    (ha : ∀ x ∈ left :: xs, Admitted o t .value x) :
    Meets o (xs.foldlM (fun left right => emit (.binary (.other ",") left right) c) left) t
      fun x t' => Growing o t' (x :: rest) ∧ p t' x ∧ Admitted o t' .value x := by
  induction xs generalizing t left
  case nil => exact .pure ⟨hg, hp _ (.head _), ha _ (.head _)⟩
  case cons right xs ih =>
    have ⟨hl, hp⟩ := List.forall_mem_cons.mp hp
    have ⟨hr, hp⟩ := List.forall_mem_cons.mp hp
    have ⟨hcr, hc⟩ := List.forall_mem_cons.mp hc
    rw [List.foldlM_cons]
    have hg : Growing o t
        ((Kind.binary (.other ",") left right).slots.map (·.1) ++ (xs ++ rest)) := hg
    have hready : Ready o c.node t [(left, .value), (right, .value)] := by
      refine ⟨?_, List.pairwise_pair.mpr hcr, ?_⟩
      · simpa using ⟨hj.stems hl, hj.stems hr⟩
      · simpa using ⟨ha left (.head _), ha right (.tail _ (.head _))⟩
    refine (emit_meets hn hg hready).bind fun x t₁ hg₁ ⟨ha₁, hk, hs⟩ => ?_
    refine ih ha₁ (List.forall_mem_cons.mpr ⟨?_, fun y hy => hj.mono hg₁ (hp y hy)⟩) (fun y _ => ?_)
      (List.forall_mem_cons.mpr ⟨⟨_, hk, .of_admits rfl⟩, fun y hy => ?_⟩)
    · exact hj.comma hk hs (hj.mono hg₁ hl) (hj.mono hg₁ hr)
    · exact .inl ⟨hs, by rw [hk]; rfl⟩
    · exact (ha y (.tail _ (.tail _ hy))).mono hg₁

theorem commaChain_meets {p : Tree → Id → Prop} (hj : Joins o c p) (hn : o.root.Holds c.node)
    (hg : Growing o t (xs ++ rest)) (hp : ∀ x ∈ xs, p t x) (hc : xs.Pairwise (Clear o t c.node))
    (ha : ∀ x ∈ xs, Admitted o t .value x) :
    Meets o (commaChain c xs) t fun x? t' => Growing o t' (x?.toList ++ rest) ∧
      ∀ x ∈ x?.toList, p t' x ∧ Admitted o t' .value x := by
  cases xs
  case nil => exact .pure ⟨hg, nofun⟩
  case cons x xs =>
    have hf := foldl_comma_meets hj hn hg hp (List.pairwise_cons.mp hc).1 ha
    exact hf.bind fun _ _ _ ⟨hg, h⟩ => .pure ⟨hg, List.forall_mem_singleton.mpr h⟩

theorem joins_stems (o : Origin) (c : Cursor) : Joins o c fun t x => Stems o t c.node x where
  mono hg hs      := hs.mono hg
  stems hs        := hs
  comma _ hs _ _  := ⟨c.node, .self, hs⟩

theorem joins_plays (o : Origin) (c : Cursor) (part : String) :
    Joins o c fun t x => Plays o t c.node part x where
  mono hg hp           := hp.mono hg
  stems hp             := hp.toStems
  comma hk hs hl hr    := .comma hk hs hl hr

theorem leftSpine_of_none (hl : c.field? "left" = none) (outer : List Cursor) :
    leftSpine c outer = (c :: outer, none) := by
  rw [leftSpine]
  split
  case h_1 => rfl
  case h_2 h => cases hl.symm.trans h

theorem leftSpine_of_some {left : Cursor} (hl : c.field? "left" = some left) (outer : List Cursor) :
    leftSpine c outer =
      if left.rule = .binary then leftSpine left (c :: outer) else (c :: outer, some left) := by
  rw [leftSpine]
  split
  case h_1 h => cases hl.symm.trans h
  case h_2 h => cases hl.symm.trans h; rfl

theorem leftSpine_append (c : Cursor) (outer : List Cursor) :
    leftSpine c outer = ((leftSpine c []).1 ++ outer, (leftSpine c []).2) := by
  cases hl : c.field? "left"
  case none      => rw [leftSpine_of_none hl, leftSpine_of_none hl]; rfl
  case some left =>
    have := Cursor.height_lt_of_field? hl
    rw [leftSpine_of_some hl, leftSpine_of_some hl]
    split
    case isTrue  => rw [leftSpine_append left (c :: outer), leftSpine_append left [c]]; simp
    case isFalse => rfl
termination_by c.node.height

theorem leftSpine_ne_nil (c : Cursor) (outer : List Cursor) : (leftSpine c outer).1 ≠ [] := by
  fun_induction leftSpine c outer
  case case1      => exact List.cons_ne_nil _ _
  case case2 ih   => exact ih
  case case3      => exact List.cons_ne_nil _ _

namespace Parts

-- The left operand of a chain is lowered like any other.
def leftOperand (parts : Parts) (c : Cursor) : Lower Id :=
  match c.field? "left" with
  | none      => absent c
  | some left => if left.rule = .binary then parts.binary left else parts.expression left

theorem binary_eq (parts : Parts) (c : Cursor) :
    parts.binary c = parts.leftOperand c >>= fun left => parts.operator left c := by
  unfold leftOperand
  conv_lhs => unfold Parts.binary
  cases hl : c.field? "left"
  case none =>
    rw [leftSpine_of_none hl]
    simp [expressionOr]
  case some left =>
    rw [leftSpine_of_some hl]
    dsimp only
    split
    case isFalse => simp [expressionOr]
    case isTrue  =>
      have ⟨inner, spine, hs⟩ := List.exists_cons_of_ne_nil (leftSpine_ne_nil left [])
      rw [leftSpine_append]
      unfold Parts.binary
      simp [hs]

namespace Sound

theorem binary {c : Cursor} (h : parts.Sound o) (hn : o.root.Holds c.node) :
    Yields o (fun x => [x]) (parts.binary c) (Stand o [c.node] .value) := by
  have hl : Yields o (fun x => [x]) (parts.leftOperand c) (Part o c.node "left" .value) := by
    unfold leftOperand
    cases hl : c.field? "left"
    case none => exact absent_part hn "left" rfl
    case some left =>
      have := Cursor.height_lt_of_field? hl
      have hm := Cursor.mem_children_of_field? hl
      refine Yields.part ?_ hm (Cursor.field?_of_field? hl)
      dsimp only
      split
      case isTrue  => exact h.binary (hn.trans (Cursor.holds_of_mem_children hm))
      case isFalse => exact h.child hn hm
  rw [binary_eq]
  intro t rest hg
  refine (Gathered.nil hg).next hl hn (by simp) fun left t₁ h₁ => ?_
  refine .read (.textOf _) fun op => ?_
  refine h₁.next (h.field hn "right") hn (by simp) fun right t₂ h₂ => ?_
  exact h₂.emit hn rfl rfl
termination_by c.node.height

variable (h : parts.Sound o) (hn : o.root.Holds c.node)
include h hn

theorem cast {expr? : Option Cursor} (he : ∀ d ∈ expr?, d ∈ c.children) (type? : Option Cursor) :
    Yields o (fun x => [x]) (parts.cast c expr? type?) (Stand o [c.node] .value) :=
  .read (.textOf _) fun type =>
    (h.expressionOr hn he).emit hn (f := .cast type) (fun _ => rfl) fun _ => rfl

theorem sequence (hr : c.rule = .sequence) :
    Yields o (fun x => [x]) (do
      let chain? ← commaChain c
        (← parts.clauses (if c.node.row.named then c.namedChildren else []))
      chain?.elim (absent c) pure) (Stand o [c.node] .value) := by
  have hs : (if c.node.row.named then c.namedChildren else []).Sublist c.children := by
    split
    case isTrue  => exact List.filter_sublist
    case isFalse => exact List.nil_sublist _
  have hd : ∀ d ∈ if c.node.row.named then c.namedChildren else [], Suits o d .value :=
    fun d hd => .inr ⟨rfl, fun hG =>
      hG.not_declaration hn (Cursor.node_mem_of_mem_children (hs.subset hd)) (.inl hr)⟩
  intro t rest hg
  refine (h.clauses hn hs hd hg).bind fun xs t₁ _ ⟨hg₁, hx⟩ => ?_
  have hj := joins_stems o c
  refine (commaChain_meets hj hn hg₁ (fun x hm => ?_) (hx.apart.imp Apart.clear) hx.admits).bind
    fun chain? t₂ _ ⟨hg₂, hc⟩ => ?_
  · have ⟨n, hm, hs⟩ := hx.stems x hm
    exact List.mem_singleton.mp hm ▸ hs
  · obtain _ | x := chain?
    case none => exact absent_yields hn hg₂
    case some =>
      have ⟨hs, ha⟩ := hc x (.head _)
      exact .pure ⟨hg₂, List.forall_mem_singleton.mpr ⟨c.node, .head _, hs⟩,
        List.pairwise_singleton .., List.forall_mem_singleton.mpr ha⟩

-- Two operands in two fields.
theorem operands {left right : String} (hne : left ≠ right) {make : Id → Id → Kind}
    (hk : ∀ x y, (make x y).slots = [(x, .value), (y, .value)])
    (hr : ∀ x y, Role.value.admits (make x y)) :
    Yields o (fun x => [x]) (do
      let x ← parts.field c left
      let y ← parts.field c right
      emit (make x y) c) (Stand o [c.node] .value) := by
  intro t rest hg
  refine (Gathered.nil hg).next (h.field hn left) hn List.not_mem_nil fun x t₁ h₁ => ?_
  refine h₁.next (h.field hn right) hn (by simpa using hne.symm) fun y t₂ h₂ => ?_
  exact h₂.emit hn (hk x y) (hr x y)

theorem expressionRule :
    Yields o (fun x => [x]) (parts.expressionRule c) (Stand o [c.node] .value) := by
  have hf : ∀ d ∈ c.firstNamed?, d ∈ c.children := fun d hd => Cursor.mem_children_of_firstNamed? hd
  have hi (i : Nat) : ∀ d ∈ c.namedChildren[i]?, d ∈ c.children := fun d hd =>
    (List.mem_filter.mp (List.mem_of_getElem? hd)).1
  unfold Parts.expressionRule
  cases hr : c.rule
  case parenthesized   => exact (h.expressionOr hn hf).emit hn (fun _ => rfl) fun _ => rfl
  case binary          => exact h.binary hn
  case unary           =>
    have hd := h.expressionOr hn (Cursor.forall_mem_field? c "argument")
    exact .read (.textOf _) fun op => hd.emit hn
      (f := .unary (.ofToken op)) (fun _ => rfl) fun _ => rfl
  case await           => exact h.leadingWord hn "await"
  case spread          => exact h.leadingWord hn "..."
  case yield           => exact h.leadingWord hn "yield"
  case ternary         =>
    intro t rest hg
    refine (Gathered.nil hg).next (h.field hn "condition") hn (by simp) fun x t₁ h₁ => ?_
    refine h₁.next (h.field hn "consequence") hn (by simp) fun y t₂ h₂ => ?_
    refine h₂.next (h.field hn "alternative") hn (by simp) fun z t₃ h₃ => ?_
    exact h₃.emit hn rfl rfl
  case assignment          => exact h.operands hn (by simp) (fun _ _ => rfl) fun _ _ => rfl
  case augmentedAssignment => exact h.operands hn (by simp) (fun _ _ => rfl) fun _ _ => rfl
  case call            => exact h.call hn
  case new             =>
    intro t rest hg
    refine .read (.textOf _) fun name => ?_
    refine (Gathered.nil hg).next (h.arguments hn) hn (by simp) fun args t₁ h₁ => ?_
    exact h₁.emit hn rfl rfl
  case subscript       => exact h.operands hn (by simp) (fun _ _ => rfl) fun _ _ => rfl
  case typeCast        => exact h.cast hn (hi 0) _
  case typeAssertion   => exact h.cast hn (hi 1) _
  case nonNull         => exact h.expressionOr hn hf
  case sequence        => exact h.sequence hn hr
  case function        => exact h.routine hn
  case classExpression => exact h.classDecl hn
  case identifier      => exact .read (.text c) fun _ => emit_yields hn rfl rfl
  case name            => exact .read (.text c) fun _ => emit_yields hn rfl rfl
  case member          => exact .read (.text c) fun _ => emit_yields hn rfl rfl
  case literal         => exact .read (.text c) fun _ => emit_yields hn rfl rfl
  all_goals exact leaf_yields hn

theorem clauseRule (hs : Suits o c role) :
    Yields o id (parts.clauseRule c) (Stand o [c.node] role) := by
  have he : Yields o id (do return [← parts.expressionRule c]) (Stand o [c.node] role) :=
    hs.weaken ((h.expressionRule hn).map (fun x => [x]) fun _ => rfl)
  have hd (hr : c.rule = .sequence ∨ c.rule = .expressionStatement) :
      Yields o id (parts.clauses c.namedChildren) (Stand o [c.node] role) := by
    refine hs.weaken (h.clauses hn List.filter_sublist fun d hd => ?_)
    exact .inr ⟨rfl, fun hG => hG.not_declaration hn
      (Cursor.node_mem_of_mem_children (List.mem_filter.mp hd).1) hr⟩
  have hn' : Yields o id (pure [] : Lower (List Id)) (Stand o [c.node] role) :=
    .pure rfl fun _ => .nil
  unfold Parts.clauseRule
  split
  case isFalse => exact hn'
  case isTrue  =>
    cases hr : c.rule
    case emptyStatement      => exact hn'
    case comment             => exact hn'
    case declaration         =>
      have hy : Yields o id (do return [← parts.declaration c]) (Stand o [c.node] .initial) :=
        (h.declaration hn fun _ => rfl).map (fun x => [x]) fun _ => rfl
      cases hs
      case inl hs => exact hs ▸ hy
      case inr hs =>
        exact hs.1 ▸ hy.weaken fun ha =>
          ⟨ha.tolerated, fun hS hk => (nomatch ha.sheltered hS hk), fun hG => absurd hr (hs.2 hG)⟩
    case expressionStatement => exact hd (.inr hr)
    case sequence            => exact hd (.inl hr)
    all_goals exact he

end Sound
end Parts
end RoutineFlow.Lowering
