import RoutineFlow.Proofs.Survey

-- Which code is dead can be read off the syntax: the flow does not get past a jump, nor past what
-- cannot be passed without one.

namespace RoutineFlow.Syntax

-- What becomes of the flow that comes to a construct.
structure Fate where
  -- Whether it can go on after the construct.
  completes : Bool
  -- What it does not come to in the construct, in the order of evaluation. What lies inside of that
  -- is not listed again.
  dead      : List Id

namespace Kind

def completes (v : Id → Bool) : Kind → Bool
  | returnStmt _ | throwStmt _ => false
  | block statements _         => statements.all v
  | ifStmt _ yes (some no)     => v yes || v no
  | doWhileStmt body _         => v body
  | _                          => true

end Kind

namespace Form

variable (v : Id → Fate)

-- The same, for constructs whose arms are evaluated for a value only if they can be passed.
def completes : Form → Bool
  | jump _                    => false
  | block statements          => statements.all fun s => (v s).completes
  | branching _ yes (some no) => (v yes).completes || (v no).completes
  | doWhileLoop body _        => (v body).completes
  | _                         => true

def deadIn (parts : List Id) : List Id :=
  parts.flatMap fun part => (v part).dead

-- In a run of statements, all of them after the first that the flow does not get past.
def deadAlong : List Id → List Id
  | []      => []
  | s :: ss => (v s).dead ++ if (v s).completes then deadAlong ss else ss

def dead : Form → List Id
  | block statements                    => deadAlong v statements
  | doWhileLoop body condition          =>
    (v body).dead ++ if (v body).completes then (v condition).dead else [condition]
  | forLoop init condition? update body =>
    deadIn v (init ++ condition?.toList) ++
      ((v body).dead ++ if (v body).completes then deadIn v update else update)
  | form                                => deadIn v form.parts

variable {v} {v' : Id → Fate}

theorem deadIn_congr {ids : List Id} (h : ∀ id ∈ ids, v id = v' id) :
    deadIn v ids = deadIn v' ids :=
  List.flatMap_congr fun id hm => congrArg Fate.dead (h id hm)

theorem deadIn_eq_nil {ids : List Id} (h : ∀ id ∈ ids, (v id).dead = []) : deadIn v ids = [] :=
  List.flatMap_eq_nil_iff.mpr h

theorem deadAlong_congr (h : ∀ s ∈ statements, v s = v' s) :
    deadAlong v statements = deadAlong v' statements := by
  induction statements
  case nil => rfl
  case cons s ss ih =>
    have ⟨hs, h⟩ := List.forall_mem_cons.mp h
    rw [deadAlong, deadAlong, hs, ih h]

theorem dead_congr {form : Form} (h : ∀ part ∈ form.parts, v part = v' part) :
    form.dead v = form.dead v' := by
  cases form
  case block => exact deadAlong_congr h
  case doWhileLoop body condition =>
    have ⟨hb, hc⟩ := List.forall_mem_cons.mp h
    rw [dead, dead, hb, hc condition (.head _)]
  case forLoop init condition? update body =>
    have ⟨h, hb⟩ := List.forall_mem_append.mp h
    have ⟨hi, hu⟩ := List.forall_mem_append.mp h
    rw [dead, dead, deadIn_congr hi, deadIn_congr hu, List.forall_mem_singleton.mp hb]
  all_goals exact deadIn_congr h

theorem deadAlong_eq_nil (h : ∀ s ∈ statements, v s = ⟨true, []⟩) :
    deadAlong v statements = [] := by
  induction statements
  case nil => rfl
  case cons s ss ih =>
    have ⟨hs, h⟩ := List.forall_mem_cons.mp h
    simp [deadAlong, hs, ih h]

theorem dead_eq_nil {form : Form} (h : ∀ part ∈ form.parts, v part = ⟨true, []⟩) :
    form.dead v = [] := by
  have hd : deadIn v form.parts = [] := deadIn_eq_nil fun part hp => by rw [h part hp]
  cases form
  case block       => exact deadAlong_eq_nil h
  case doWhileLoop => simp_all [dead, parts]
  case forLoop     => simp_all [dead, deadIn, parts]
  all_goals exact hd

theorem completes_of_parts {form : Form} (hj : ∀ operands, form ≠ .jump operands)
    (h : ∀ part ∈ form.parts, (v part).completes) : form.completes v := by
  cases form
  case jump operands     => exact absurd rfl (hj operands)
  case block             => exact List.all_eq_true.mpr h
  case doWhileLoop       => exact h _ (.head _)
  case branching yes no? =>
    cases no?
    case none => rfl
    case some => simp [completes, h yes (.tail _ (.head _))]
  all_goals rfl

end Form

namespace Kind

theorem completes_congr {kind : Kind} {v v' : Id → Bool}
    (h : ∀ part ∈ kind.form.parts, v part = v' part) : kind.completes v = kind.completes v' := by
  cases kind
  case block ss _         =>
    rw [Bool.eq_iff_iff, completes, completes, List.all_eq_true, List.all_eq_true]
    exact forall₂_congr fun s hs => by rw [h s hs]
  case ifStmt c yes no?   => cases no? <;> simp_all [completes, form, Form.parts]
  case doWhileStmt body _ => exact h body (.head _)
  all_goals rfl

theorem completes_eq {kind : Kind} {v : Id → Fate}
    (h : ∀ {c yes no}, kind = .ternary c yes no → (v yes).completes) :
    kind.completes (fun id => (v id).completes) = kind.form.completes v := by
  cases kind
  case binary op _ _ => cases op <;> rfl
  case unary op _    => cases op <;> rfl
  case ifStmt no?    => cases no? <;> rfl
  case ternary       => simp [completes, form, Form.completes, h rfl]
  all_goals rfl

end Kind

namespace Tree

variable {t : Tree} {id : Id} {form : Form} {asked : Bool}

def fating : Scheme Fate where
  missing _     := ⟨true, []⟩
  make _ kind v := ⟨kind.completes fun id => (v id).completes, kind.form.dead v⟩
  congr h       := by
    rw [Form.dead_congr h, Kind.completes_congr fun part hp => congrArg Fate.completes (h part hp)]

def fate (t : Tree) : Id → Fate :=
  t.fold fating

namespace WellShaped

variable (hw : t.WellShaped)
include hw

theorem fate_eq_of_arms (hf : t.form? id = some form)
    (h : ∀ {c yes no}, t.kind? id = some (.ternary c yes no) → (t.fate yes).completes) :
    t.fate id = ⟨form.completes t.fate, form.dead t.fate⟩ := by
  have ⟨kind, hk, he⟩ := Option.map_eq_some_iff.mp hf
  subst he
  rw [← Kind.completes_eq fun he => h (he ▸ hk)]
  exact hw.fold_eq fating hk

-- What is no jump can be passed if its parts can.
theorem fate_of_parts (hf : t.form? id = some form) (hj : ∀ operands, form ≠ .jump operands)
    (hp : ∀ part ∈ form.parts, t.fate part = ⟨true, []⟩) : t.fate id = ⟨true, []⟩ := by
  rw [hw.fate_eq_of_arms hf, Form.completes_of_parts hj, Form.dead_eq_nil hp]
  · exact fun part hm => by rw [hp part hm]
  · intro _ yes _ hk
    cases hf.symm.trans (form?_eq hk)
    rw [hp yes (.tail _ (.head _))]

-- The flow gets past a value and comes to all of it.
theorem fate_of_valued (h : t.Valued asked id) : t.fate id = ⟨true, []⟩ := by
  induction h
  case passing hf _ ih  => exact hw.fate_of_parts hf (by simp) ih
  case strict hf _ ih   => exact hw.fate_of_parts hf (by simp) ih
  case parens hf _ ih   => exact hw.fate_of_parts hf (by simp) (List.forall_mem_singleton.mpr ih)
  case negation hf _ ih => exact hw.fate_of_parts hf (by simp) (List.forall_mem_singleton.mpr ih)
  case shortCircuit hf _ _ hl hr =>
    exact hw.fate_of_parts hf (by simp) (by simp [Form.parts, hl, hr])
  case branching hf _ _ _ hc hy hn =>
    exact hw.fate_of_parts hf (by simp) (by simp [Form.parts, hc, hy, hn])

theorem deadIn_of_valued {parts : List Id} (h : ∀ part ∈ parts, t.Valued asked part) :
    Form.deadIn t.fate parts = [] :=
  Form.deadIn_eq_nil fun part hp => by rw [hw.fate_of_valued (h part hp)]

theorem fate_eq (hf : t.form? id = some form) :
    t.fate id = ⟨form.completes t.fate, form.dead t.fate⟩ := by
  refine hw.fate_eq_of_arms hf fun hk => ?_
  rw [hw.fate_of_valued (hw.valued (hw.operands hk (.tail _ (.head _))))]

end WellShaped
end Tree
end RoutineFlow.Syntax
