import RoutineFlow.Proofs.Form

-- Constructs that are evaluated for a value. In a well-shaped tree these are built from one
-- another, so that what decides a branch is always found at the end of one of them.

namespace RoutineFlow.Syntax

namespace Form

-- The parts whose truth decides where the flow goes on.
def tested : Form → List Id
  | parens inner                       => [inner]
  | negation operand                   => [operand]
  | shortCircuit _ left right          => [left, right]
  | branching condition _ _            => [condition]
  | whileLoop condition _              => [condition]
  | doWhileLoop _ condition            => [condition]
  | forLoop _ condition? _ _           => condition?.toList
  | strict _ | block _ | jump _ | passing _ => []

-- The parts that are evaluated for a value that decides nothing.
def evaluated : Form → List Id
  | strict operands         => operands
  | forLoop init _ update _ => init ++ update
  | jump operands           => operands
  | passing parts           => parts
  | _                       => []

end Form

namespace Kind

theorem mem_operands_of_tested {kind : Kind} (h : part ∈ kind.form.tested) :
    part ∈ kind.operands := by
  cases kind
  case binary op _ _ => cases op <;> simp_all [form, Form.tested, operands]
  case unary op _    => cases op <;> simp_all [form, Form.tested, operands]
  all_goals simp_all [form, Form.tested, operands]

theorem mem_operands_of_evaluated {kind : Kind} (h : part ∈ kind.form.evaluated) :
    part ∈ kind.operands ∨ kind.isVarDecl ∧ part ∈ kind.children := by
  cases kind
  case binary op _ _ => cases op <;> simp_all [form, Form.evaluated, operands]
  case unary op _    => cases op <;> simp_all [form, Form.evaluated, operands]
  case forStmt       => simp_all [form, Form.evaluated, operands]; grind
  all_goals simp_all [form, Form.evaluated, operands, isVarDecl, children]

theorem mem_children_of_mem_operands {kind : Kind} (h : part ∈ kind.operands) :
    part ∈ kind.children := by
  cases kind <;> simp_all [operands, children]
  case forStmt => grind

end Kind

namespace Tree

-- The flag says that the truth of the construct may be asked for. That of a declarator may not.
inductive Valued (t : Tree) : Bool → Id → Prop
  | passing : t.form? i = some (.passing parts) → (∀ p ∈ parts, Valued t false p) →
    Valued t false i
  | strict : t.form? i = some (.strict operands) → (∀ p ∈ operands, Valued t false p) →
    Valued t asked i
  | parens {inner : Id} : t.form? i = some (.parens inner) → Valued t true inner → Valued t asked i
  | negation : t.form? i = some (.negation operand) → Valued t true operand → Valued t asked i
  | shortCircuit : t.form? i = some (.shortCircuit on l r) → Valued t true l → Valued t true r →
    Valued t asked i
  | branching : t.form? i = some (.branching condition yes (some no)) → Valued t true condition →
    Valued t true yes → Valued t true no → Valued t asked i

variable {t : Tree} {i : Id} {kind : Kind} {form : Form} {asked : Bool}

theorem form?_eq (hk : t.kind? i = some kind) : t.form? i = some kind.form := by
  simp [form?, hk]

-- What is known of the parts of such a construct.
theorem Valued.parts (h : t.Valued asked i) (hf : t.form? i = some form) :
    match form with
    | .strict operands                => ∀ p ∈ operands, t.Valued false p
    | .passing parts                  => asked = false ∧ ∀ p ∈ parts, t.Valued false p
    | .parens inner                   => t.Valued true inner
    | .negation operand               => t.Valued true operand
    | .shortCircuit _ l r             => t.Valued true l ∧ t.Valued true r
    | .branching condition yes (some no) =>
      t.Valued true condition ∧ t.Valued true yes ∧ t.Valued true no
    | _                               => False := by
  cases h
  case passing hp hf'            => cases hf.symm.trans hf'; exact ⟨rfl, hp⟩
  case strict hp hf'             => cases hf.symm.trans hf'; exact hp
  case parens hi hf'             => cases hf.symm.trans hf'; exact hi
  case negation ho hf'           => cases hf.symm.trans hf'; exact ho
  case shortCircuit hl hr hf'    => cases hf.symm.trans hf'; exact ⟨hl, hr⟩
  case branching hc hy hn hf'    => cases hf.symm.trans hf'; exact ⟨hc, hy, hn⟩

theorem Valued.weaken (h : t.Valued true i) : t.Valued asked i := by
  cases h
  case strict hp hf          => exact .strict hf hp
  case parens hi hf          => exact .parens hf hi
  case negation ho hf        => exact .negation hf ho
  case shortCircuit hl hr hf => exact .shortCircuit hf hl hr
  case branching hc hy hn hf => exact .branching hf hc hy hn

theorem Valued.exists_kind (h : t.Valued asked i) : ∃ kind, t.kind? i = some kind := by
  have he {form} (hf : t.form? i = some form) : ∃ kind, t.kind? i = some kind :=
    have ⟨kind, hk, _⟩ := Option.map_eq_some_iff.mp hf
    ⟨kind, hk⟩
  cases h <;> exact he ‹_›

namespace WellShaped

theorem valued_of_operand (hw : t.WellShaped) (hk : t.kind? i = some kind)
    (ih : ∀ part, part.index < i.index → t.IsExpression part → t.Valued true part)
    (hp : part ∈ kind.operands) : t.Valued asked part :=
  have hb := hw.below hk (Kind.mem_children_of_mem_operands hp)
  (ih part hb (hw.operands hk hp)).weaken

theorem valued_declarator (hw : t.WellShaped) (hd : (t.kind? i).any Kind.isDeclarator)
    (ih : ∀ part, part.index < i.index → t.IsExpression part → t.Valued true part) :
    t.Valued false i := by
  have ⟨kind, hk, hd⟩ := (Option.any_eq_true _ _).mp hd
  cases kind
  case declarator name initializer? =>
    exact .passing (form?_eq hk) fun part hp => hw.valued_of_operand hk ih hp
  all_goals cases hd

theorem valued {i : Id} (hw : t.WellShaped) (h : t.IsExpression i) : t.Valued true i := by
  have ⟨kind, hk, hs⟩ := h
  have hf := form?_eq hk
  have ih : ∀ part, part.index < i.index → t.IsExpression part → t.Valued true part :=
    fun _ _ he => valued hw he
  have ho {asked part} (hp : part ∈ kind.operands) : t.Valued asked part :=
    hw.valued_of_operand hk ih hp
  cases kind
  case parens         => exact .parens hf (ho (.head _))
  case ternary        =>
    exact .branching hf (ho (.head _)) (ho (.tail _ (.head _))) (ho (.tail _ (.tail _ (.head _))))
  case binary op _ _  =>
    cases op
    case and   => exact .shortCircuit hf (ho (.head _)) (ho (.tail _ (.head _)))
    case or    => exact .shortCircuit hf (ho (.head _)) (ho (.tail _ (.head _)))
    case other => exact .strict hf fun _ => ho
  case unary op _     =>
    cases op
    case not   => exact .negation hf (ho (.head _))
    case other => exact .strict hf fun _ => ho
  case assignment     => exact .strict hf fun _ => ho
  case call           => exact .strict hf fun _ => ho
  case new            => exact .strict hf fun _ => ho
  case cast           => exact .strict hf fun _ => ho
  case varDecl        =>
    refine .strict hf fun part hp => hw.valued_declarator ?_ fun j hj => ?_
    · exact (hw.declarators hk hp).mpr rfl
    · exact ih j (Nat.lt_trans hj (hw.below hk hp))
  all_goals first
    | exact .strict hf nofun
    | cases hs
termination_by i.index

theorem valued_of_tested (hw : t.WellShaped) (hf : t.form? i = some form)
    (hp : part ∈ form.tested) : t.Valued true part := by
  have ⟨kind, hk, he⟩ := Option.map_eq_some_iff.mp hf
  subst he
  exact hw.valued (hw.operands hk (Kind.mem_operands_of_tested hp))

theorem valued_of_evaluated (hw : t.WellShaped) (hf : t.form? i = some form)
    (hp : part ∈ form.evaluated) : t.Valued false part := by
  have ⟨kind, hk, he⟩ := Option.map_eq_some_iff.mp hf
  subst he
  cases Kind.mem_operands_of_evaluated hp
  case inl ho => exact (hw.valued (hw.operands hk ho)).weaken
  case inr hv =>
    exact hw.valued_declarator ((hw.declarators hk hv.2).mpr hv.1) fun _ _ he => hw.valued he

theorem index_lt (hw : t.WellShaped) (hf : t.form? i = some form) (hp : part ∈ form.parts) :
    part.index < i.index := by
  have ⟨kind, hk, he⟩ := Option.map_eq_some_iff.mp hf
  subst he
  exact hw.below hk (Kind.mem_parts_form.mp hp).2

end WellShaped
end Tree
end RoutineFlow.Syntax
