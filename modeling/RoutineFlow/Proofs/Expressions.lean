import RoutineFlow.Proofs.Yields

-- What the rules for expressions, routines and declarations yield, if the rules for their parts do
-- as they should.

namespace RoutineFlow.Lowering

open Concrete (Node Cursor Rule)
open Syntax (Tree Kind Role Id)

variable {o : Origin} {t t' : Tree} {c d : Cursor} {n : Node} {xs rest : List Id} {kind : Kind}
  {role : Role} {parts : Parts} {α : Type}

-- A clause may declare something only where a loop begins.
def Suits (o : Origin) (c : Cursor) (role : Role) : Prop :=
  role = .initial ∨ role = .value ∧ (o.root.Grammatical → c.rule ≠ .declaration)

-- The parts of a node are lowered to what may stand in their place.
structure Parts.Sound (o : Origin) (parts : Parts) : Prop where
  expression : ∀ {c}, o.root.Holds c.node →
    Yields o (fun x => [x]) (parts.expression c) (Stand o [c.node] .value)
  statement  : ∀ {c}, o.root.Holds c.node → (o.root.Sheltered → c.rule ≠ .staticBlock) →
    Yields o Option.toList (parts.statement c) (Stand o [c.node] .statement)
  clause     : ∀ {c role}, o.root.Holds c.node → Suits o c role →
    Yields o id (parts.clause c) (Stand o [c.node] role)

theorem emit_yields (hn : o.root.Holds c.node) (hk : kind.slots = []) (hr : role.admits kind) :
    Yields o (fun x => [x]) (emit kind c) (Stand o [c.node] role) :=
  fun _ _ hg => (Gathered.nil hg).emit hn hk hr

theorem leaf_yields (hn : o.root.Holds c.node) :
    Yields o (fun x => [x]) (leaf c) (Stand o [c.node] .value) :=
  emit_yields hn rfl rfl

theorem absent_yields (hn : o.root.Holds c.node) :
    Yields o (fun x => [x]) (absent c) (Stand o [c.node] .value) :=
  emit_yields hn rfl rfl

-- What is absent can stand for any part.
theorem absent_part (hn : o.root.Holds c.node) (part : String)
    (hr : role.admits (.other "missing")) :
    Yields o (fun x => [x]) (absent c) (Part o c.node part role) := by
  intro t rest hg
  refine (emit_meets hn hg (Gathered.nil hg).ready).mono fun x t' _ ⟨hg', hk, hs⟩ => ⟨hg', ?_⟩
  refine ⟨List.forall_mem_singleton.mpr (.missing hk hs), List.pairwise_singleton .., ?_⟩
  exact List.forall_mem_singleton.mpr ⟨_, hk, .of_admits hr⟩

theorem optional {step : Cursor → Lower Id} {post : Tree → List Id → Prop} {d? : Option Cursor}
    (hs : ∀ d ∈ d?, Yields o (fun x => [x]) (step d) post) (hn : ∀ t, post t []) :
    Yields o Option.toList (d?.mapM step) post := by
  cases d?
  case none   => exact .pure rfl hn
  case some d => exact (hs d rfl).map some fun _ => rfl

theorem Part.nil {part : String} : Part o n part role t [] :=
  ⟨nofun, .nil, nofun⟩

namespace Parts

theorem expression?_eq (parts : Parts) (d? : Option Cursor) :
    parts.expression? d? = d?.mapM parts.expression := by
  cases d? <;> rfl

namespace Sound

variable (h : parts.Sound o) (hn : o.root.Holds c.node)
include h hn

theorem child (hd : d ∈ c.children) :
    Yields o (fun x => [x]) (parts.expression d) (Stand o [d.node] .value) :=
  h.expression (hn.trans (Cursor.holds_of_mem_children hd))

theorem expressionOr {d? : Option Cursor} (hd : ∀ d ∈ d?, d ∈ c.children) :
    Yields o (fun x => [x]) (parts.expressionOr c d?) (Stand o [c.node] .value) := by
  cases d?
  case none   => exact absent_yields hn
  case some d => exact (h.child hn (hd d rfl)).up (Cursor.holds_of_mem_children (hd d rfl))

theorem expression? {d? : Option Cursor} (hd : ∀ d ∈ d?, d ∈ c.children) :
    Yields o Option.toList (parts.expression? d?) (Stand o [c.node] .value) := by
  rw [expression?_eq]
  refine optional (fun d hm => ?_) fun _ => .nil
  exact (h.child hn (hd d hm)).up (Cursor.holds_of_mem_children (hd d hm))

theorem field (part : String) :
    Yields o (fun x => [x]) (parts.field c part) (Part o c.node part .value) := by
  unfold Parts.field
  cases hf : c.field? part
  case none   => exact absent_part hn part rfl
  case some d =>
    have hd := Cursor.mem_children_of_field? hf
    exact (h.child hn hd).part hd (Cursor.field?_of_field? hf)

theorem expressions {cs : List Cursor} (hc : cs.Sublist c.children) :
    Yields o id (parts.expressions cs) (Stand o [c.node] .value) :=
  (Yields.children hn hc fun _ hd => h.child hn (hc.subset hd)).congr List.flatMap_singleton'

theorem statements {cs : List Cursor} (hc : cs.Sublist c.children)
    (hs : o.root.Sheltered → ∀ d ∈ cs, d.rule ≠ .staticBlock) :
    Yields o id (parts.statements cs) (Stand o [c.node] .statement) := by
  have hd : ∀ d ∈ cs, Yields o Option.toList (parts.statement d) (Stand o [d.node] .statement) :=
    fun d hd => h.statement (hn.trans (Cursor.holds_of_mem_children (hc.subset hd))) (hs · d hd)
  exact (Yields.children hn hc hd).map List.reduceOption (List.filterMap_eq_flatMap_toList id)

theorem clauses {cs : List Cursor} (hc : cs.Sublist c.children) (hs : ∀ d ∈ cs, Suits o d role) :
    Yields o id (parts.clauses cs) (Stand o [c.node] role) := by
  have hd : ∀ d ∈ cs, Yields o id (parts.clause d) (Stand o [d.node] role) :=
    fun d hd => h.clause (hn.trans (Cursor.holds_of_mem_children (hc.subset hd))) (hs d hd)
  exact (Yields.children hn hc hd).map List.flatten fun _ => List.flatMap_id.symm

theorem block (hs : o.root.Sheltered → ∀ d ∈ c.namedChildren, d.rule ≠ .staticBlock) :
    Yields o (fun x => [x]) (parts.block c) (Stand o [c.node] .body) :=
  (h.statements hn List.filter_sublist hs).emit hn (fun _ => rfl) fun _ => rfl

theorem routineBody : Yields o (fun x => [x]) (parts.routineBody c) (Stand o [c.node] .body) := by
  unfold Parts.routineBody
  split
  case isTrue hr =>
    refine h.block hn fun hS d hd => hS.not_static hn ?_ fun hk => ?_
    · exact Cursor.node_mem_of_mem_children (List.mem_filter.mp hd).1
    · rw [Cursor.rule, Node.rule, hk] at hr
      cases hr
  case isFalse =>
    rw [← bind_assoc]
    have he := (h.expression hn).emit (r := .statement) hn
      (f := fun value => .returnStmt (some value)) (fun _ => rfl) fun _ => rfl
    exact he.emit hn (f := fun exit => .block [exit] false) (fun _ => rfl) fun _ => rfl

theorem routine : Yields o (fun x => [x]) (parts.routine c) (Stand o [c.node] .value) := by
  refine .read (.routineName c) fun name => ?_
  have hb : Yields o Option.toList ((c.field? "body").mapM parts.routineBody)
      (Stand o [c.node] .body) := by
    refine optional (fun d hd => ?_) fun _ => .nil
    have hd := Cursor.holds_of_mem_children (Cursor.mem_children_of_field? hd)
    exact (h.routineBody (hn.trans hd)).up hd
  exact hb.emit hn (fun _ => rfl) fun _ => rfl

theorem declarator :
    Yields o (fun x => [x]) (parts.declarator c) (Stand o [c.node] .declarator) := by
  refine .read (.textOf _) fun name => ?_
  have hi := h.expression? hn (Cursor.forall_mem_field? c "value")
  exact hi.emit hn (fun _ => rfl) fun _ => rfl

theorem declaration (hr : ∀ ds, role.admits (.varDecl ds)) :
    Yields o (fun x => [x]) (parts.declaration c) (Stand o [c.node] role) := by
  have hs : (c.namedChildren.filter (·.rule = .variableDeclarator)).Sublist c.children :=
    List.filter_sublist.trans List.filter_sublist
  have hd := Yields.children hn hs fun d hd =>
    h.declarator (hn.trans (Cursor.holds_of_mem_children (hs.subset hd)))
  exact (hd.congr List.flatMap_singleton').emit hn (fun _ => rfl) hr

theorem staticBlock (hr : c.rule = .staticBlock) :
    Yields o (fun x => [x]) (parts.staticBlock c) (Stand o [c.node] .member) := by
  unfold Parts.staticBlock
  dsimp only
  generalize hi : (c.field? "body" <|> c.namedChildren.find? (·.rule = .statementBlock)) = inner?
  have hs : Yields o id (parts.statements (inner?.elim [] Cursor.namedChildren))
      (Stand o [c.node] .statement) := by
    cases inner?
    case none => exact (h.statements hn (List.nil_sublist _) fun _ => nofun)
    case some inner =>
      have hm : inner ∈ c.children := by
        cases hf : c.field? "body"
        case none   =>
          rw [hf] at hi
          exact (List.mem_filter.mp (List.mem_of_find?_eq_some hi)).1
        case some d =>
          rw [hf] at hi
          cases hi
          exact Cursor.mem_children_of_field? hf
      have hd := Cursor.holds_of_mem_children hm
      refine (h.statements (hn.trans hd) List.filter_sublist fun hS d hd => ?_).up hd
      refine hS.not_static_below hn (Cursor.node_mem_of_mem_children hm)
        (Cursor.node_mem_of_mem_children (List.mem_filter.mp hd).1) ?_
      exact (congrArg Rule.isClass hr)
  exact hs.emit hn (fun _ => rfl) fun _ => rfl

theorem classField : Yields o (fun x => [x]) (parts.classField c) (Stand o [c.node] .member) := by
  refine .read (.textOf _) fun name => ?_
  rw [← bind_assoc]
  have hi := h.expression? hn (Cursor.forall_mem_field? c "value")
  have hd := hi.emit (r := .declarator) hn (f := fun value? => .declarator name value?)
    (fun _ => rfl) fun _ => rfl
  exact hd.emit hn (f := fun d => .varDecl [d]) (fun _ => rfl) fun _ => rfl

theorem member : Yields o (fun x => [x]) (parts.member c) (Stand o [c.node] .member) := by
  unfold Parts.member
  split
  case h_1    => exact (h.routine hn).weaken (·.member_of_value)
  case h_2 hr => exact h.staticBlock hn hr
  case h_3    => exact h.classField hn
  case h_4    => exact (leaf_yields hn).weaken (·.member_of_value)

theorem classDecl : Yields o (fun x => [x]) (parts.classDecl c) (Stand o [c.node] .value) := by
  have hm : Yields o id (((c.field? "body").elim [] Cursor.namedChildren).mapM parts.member)
      (Stand o [c.node] .member) := by
    cases hf : c.field? "body"
    case none   => exact .pure rfl fun _ => .nil
    case some d =>
      have hd := Cursor.holds_of_mem_children (Cursor.mem_children_of_field? hf)
      have hs : d.namedChildren.Sublist d.children := List.filter_sublist
      have hm := Yields.children (hn.trans hd) hs fun e he =>
        h.member ((hn.trans hd).trans (Cursor.holds_of_mem_children (hs.subset he)))
      exact (hm.congr List.flatMap_singleton').up hd
  have he (name : String) := hm.emit (r := .value) hn (f := .classDecl name)
    (fun _ => rfl) fun _ => rfl
  unfold Parts.classDecl
  split
  case h_1 => exact .read (.text _) he
  case h_2 => exact .read (.anonymous c) he

theorem leadingWord (token : String) :
    Yields o (fun x => [x]) (parts.leadingWord token c) (Stand o [c.node] .value) := by
  unfold Parts.leadingWord
  split
  case h_1 d hd =>
    have hd := Cursor.mem_children_of_firstNamed? hd
    have he := (h.child hn hd).up (Cursor.holds_of_mem_children hd)
    exact he.emit hn (fun _ => rfl) fun _ => rfl
  case h_2 => exact leaf_yields hn

theorem arguments : Yields o id (parts.arguments c) (Part o c.node "arguments" .value) := by
  unfold Parts.arguments
  split
  case h_1 => exact .pure rfl fun _ => .nil
  case h_2 args ha =>
    have hm := Cursor.mem_children_of_field? ha
    have hd := Cursor.holds_of_mem_children hm
    refine Yields.part ?_ hm (Cursor.field?_of_field? ha)
    split
    case isTrue  => exact h.expressions (hn.trans hd) List.filter_sublist
    case isFalse =>
      have he : Yields o id (parts.expressions [args]) (Stand o ([args].map (·.node)) .value) :=
        (Yields.each (fun d hd => List.mem_singleton.mp hd ▸ h.child hn hm)
          (List.pairwise_singleton ..)).congr List.flatMap_singleton'
      exact he

theorem callee : Yields o (·.1.toList) (parts.callee (c.field? "function"))
    (Part o c.node "function" .value) := by
  unfold Parts.callee
  split
  case h_1 => exact .pure rfl fun _ => .nil
  case h_2 function hf =>
    have hm := Cursor.mem_children_of_field? hf
    have hd := Cursor.holds_of_mem_children hm
    refine Yields.part ?_ hm (Cursor.field?_of_field? hf)
    split
    case h_1 => exact .read (.text _) fun _ => .pure rfl fun _ => .nil
    case h_2 =>
      have ho := h.expression? (hn.trans hd) (Cursor.forall_mem_field? function "object")
      intro t rest hg
      refine (ho hg).bind fun receiver? t₁ _ hs => ?_
      exact .read (.textOf _) fun _ => .pure hs
    case h_3 => exact (h.child hn hm).map (fun x => (some x, "")) fun _ => rfl

theorem call : Yields o (fun x => [x]) (parts.call c) (Stand o [c.node] .value) := by
  intro t rest hg
  refine (Gathered.nil hg).next (h.callee hn) hn (by simp) fun (receiver?, name) t₁ h₁ => ?_
  refine h₁.next (h.arguments hn) hn (by simp) fun args t₂ h₂ => ?_
  exact h₂.emit hn rfl rfl

end Sound
end Parts
end RoutineFlow.Lowering
