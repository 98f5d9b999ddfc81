import RoutineFlow.Syntax.Builder

-- How a construct takes part in the flow, whatever its kind: the order of its parts and of itself,
-- and the parts among which it decides. Trees whose parts stand where the flow expects them are
-- well shaped.

namespace RoutineFlow.Syntax

inductive Form
  -- The operands, then the construct itself.
  | strict       (operands : List Id)
  | block        (statements : List Id)
  | parens       (inner : Id)
  | negation     (operand : Id)
  | shortCircuit (continueOn : Bool) (left right : Id)
  | branching    (condition truePart : Id) (falsePart? : Option Id)
  | whileLoop    (condition body : Id)
  | doWhileLoop  (body condition : Id)
  | forLoop      (init : List Id) (condition? : Option Id) (update : List Id) (body : Id)
  -- The operand, then the construct itself, then nothing of the routine.
  | jump         (operands : List Id)
  -- The parts only.
  | passing      (parts : List Id)
deriving DecidableEq

namespace Form

-- The parts that the flow visits.
def parts : Form → List Id
  | strict operands                              => operands
  | block statements                             => statements
  | parens inner                                 => [inner]
  | negation operand                             => [operand]
  | shortCircuit _ left right                    => [left, right]
  | branching condition truePart falsePart?      => condition :: truePart :: falsePart?.toList
  | whileLoop condition body                     => [condition, body]
  | doWhileLoop body condition                   => [body, condition]
  | forLoop init condition? update body          => init ++ condition?.toList ++ update ++ [body]
  | jump operands                                => operands
  | passing parts                                => parts

def isLoop : Form → Bool
  | whileLoop .. | doWhileLoop .. | forLoop .. => true
  | _                                          => false

end Form

namespace Kind

def form : Kind → Form
  | block statements _                   => .block statements
  | ifStmt condition yes no?             => .branching condition yes no?
  | ternary condition yes no             => .branching condition yes (some no)
  | whileStmt condition body             => .whileLoop condition body
  | doWhileStmt body condition           => .doWhileLoop body condition
  | forStmt init condition? update body  => .forLoop init condition? update body
  | binary .and left right               => .shortCircuit true left right
  | binary .or left right                => .shortCircuit false left right
  | binary (.other _) left right         => .strict [left, right]
  | unary .not operand                   => .negation operand
  | unary (.other _) operand             => .strict [operand]
  | parens inner                         => .parens inner
  | assignment target value              => .strict [target, value]
  | call receiver? _ arguments           => .strict (receiver?.toList ++ arguments)
  | new _ arguments                      => .strict arguments
  | cast _ expr                          => .strict [expr]
  | varDecl declarators                  => .strict declarators
  | declarator _ initializer?            => .passing initializer?.toList
  | returnStmt value?                    => .jump value?.toList
  | throwStmt exception                  => .jump [exception]
  | arrayAccess .. | identifier _ | literal _ | tryStmt _ | switchStmt .. | breakStmt
  | continueStmt | routine .. | classDecl .. | program _ | other _ => .strict []

-- Kinds into whose parts the flow does not descend.
def isOpaque : Kind → Bool
  | tryStmt _ | switchStmt .. | routine .. | classDecl .. | program _ | arrayAccess ..
  | other _ => true
  | _       => false

-- Kinds that stand for no value.
def isStatement : Kind → Bool
  | ifStmt .. | whileStmt .. | doWhileStmt .. | forStmt .. | block .. | returnStmt _ | throwStmt _
  | tryStmt _ | switchStmt .. | breakStmt | continueStmt | declarator .. | program _ => true
  | _ => false

def isVarDecl : Kind → Bool
  | varDecl _ => true
  | _         => false

def isDeclarator : Kind → Bool
  | declarator .. => true
  | _             => false

-- The parts that are evaluated for a value or, in the header of a loop, for an effect: conditions,
-- operands, receivers, arguments, initializers, arms, values of jumps.
def operands : Kind → List Id
  | ifStmt condition _ _                   => [condition]
  | ternary condition truePart falsePart   => [condition, truePart, falsePart]
  | whileStmt condition _                  => [condition]
  | doWhileStmt _ condition                => [condition]
  | forStmt init condition? update _       => init ++ condition?.toList ++ update
  | binary _ left right                    => [left, right]
  | unary _ operand                        => [operand]
  | parens inner                           => [inner]
  | assignment target value                => [target, value]
  | call receiver? _ arguments             => receiver?.toList ++ arguments
  | new _ arguments                        => arguments
  | cast _ expr                            => [expr]
  | declarator _ initializer?              => initializer?.toList
  | returnStmt value?                      => value?.toList
  | throwStmt exception                    => [exception]
  | _                                      => []

def isLoop : Kind → Bool
  | whileStmt .. | doWhileStmt .. | forStmt .. => true
  | _                                          => false

-- A loop that is left by a jump only.
def isUntested : Kind → Bool
  | forStmt _ none _ _ => true
  | _                  => false

theorem isLoop_form {kind : Kind} (h : kind.form.isLoop) : kind.isLoop := by
  cases kind
  case binary op _ _ => cases op <;> cases h
  case unary op _    => cases op <;> cases h
  all_goals first
    | rfl
    | cases h

theorem isLoop_of_isUntested {kind : Kind} (h : kind.isUntested) : kind.isLoop := by
  cases kind
  case forStmt => rfl
  all_goals cases h

theorem isUntested_of_form {kind : Kind} (h : kind.form = .forLoop init none update body) :
    kind.isUntested := by
  cases kind
  case binary op _ _ => cases op <;> cases h
  case unary op _    => cases op <;> cases h
  case forStmt       => cases h; rfl
  all_goals cases h

theorem mem_parts_form {kind : Kind} {part : Id} :
    part ∈ kind.form.parts ↔ kind.isOpaque = false ∧ part ∈ kind.children := by
  rcases kind with _ | _ | _ | _ | _ | _ | _ | _ | _ | ⟨_ | _ | _, _, _⟩ | ⟨_ | _, _⟩ | _ | _ | _ | _
    | _ | _ | _ | _ | _ | _ | _ | _ | _ | _ | _ | _ | _ <;>
    simp [form, Form.parts, isOpaque, children]

end Kind

namespace Tree

def form? (t : Tree) (id : Id) : Option Form :=
  (t.kind? id).map Kind.form

def IsExpression (t : Tree) (id : Id) : Prop :=
  ∃ kind, t.kind? id = some kind ∧ kind.isStatement = false

-- Parts come before the construct that holds them (1), the parts of a declaration are declarators,
-- which stand nowhere else (2), and where a value is evaluated there is an expression (3). A
-- declaration counts as one: it is a run of strict operands.
structure WellShaped (t : Tree) : Prop where
  below       {id part : Id} {kind : Kind} :                                      -- (1)
    t.kind? id = some kind → part ∈ kind.children → part.index < id.index
  declarators {id part : Id} {kind : Kind} :                                      -- (2)
    t.kind? id = some kind → part ∈ kind.children →
      ((t.kind? part).any Kind.isDeclarator ↔ kind.isVarDecl)
  operands    {id part : Id} {kind : Kind} :                                      -- (3)
    t.kind? id = some kind → part ∈ kind.operands → t.IsExpression part

-- The nodes that the flow comes by from `scope`, dead or not.
inductive Visited (t : Tree) (scope : Id) : Id → Prop
  | scope : Visited t scope scope
  | part {id part : Id} {kind : Kind} : Visited t scope id → t.kind? id = some kind →
    kind.isOpaque = false → part ∈ kind.children → Visited t scope part

variable {t : Tree} {scope id : Id}

theorem Visited.parts {form : Form} (h : t.Visited scope id)
    (hf : t.form? id = some form) : ∀ part ∈ form.parts, t.Visited scope part := by
  intro part hp
  have ⟨kind, hk, he⟩ := Option.map_eq_some_iff.mp hf
  subst he
  have ⟨ho, hc⟩ := Kind.mem_parts_form.mp hp
  exact .part h hk ho hc

-- What holds wherever the flow comes by.
def Throughout (t : Tree) (scope : Id) (p : Kind → Bool) : Prop :=
  ∀ ⦃id kind⦄, t.Visited scope id → t.kind? id = some kind → p kind

theorem lt_size_of_kind? (hk : t.kind? id = some kind) : id.index < t.size := by
  have ⟨_, hn, _⟩ := Option.map_eq_some_iff.mp hk
  exact (Array.getElem?_eq_some_iff.mp hn).1

theorem throughout_of_all {p : Kind → Bool} (h : t.nodes.all fun node => p node.kind) :
    t.Throughout scope p := by
  intro id kind _ hk
  have ⟨node, hn, he⟩ := Option.map_eq_some_iff.mp hk
  subst he
  exact Array.all_eq_true_iff_forall_mem.mp h node (Array.mem_of_getElem? hn)

theorem Throughout.mono {p q : Kind → Bool} (h : t.Throughout scope p)
    (hp : ∀ kind, p kind → q kind) : t.Throughout scope q :=
  fun _ kind hv hk => hp kind (h hv hk)

theorem Visited.isLoop_eq_false {form : Form} (h : t.Visited scope id)
    (hn : t.Throughout scope (!·.isLoop)) (hf : t.form? id = some form) : form.isLoop = false := by
  have ⟨kind, hk, he⟩ := Option.map_eq_some_iff.mp hf
  subst he
  have hl := hn h hk
  cases hf : kind.form.isLoop
  case false => rfl
  case true  => simp [Kind.isLoop_form hf] at hl

theorem Visited.isSome_condition {condition? : Option Id} (h : t.Visited scope id)
    (hn : t.Throughout scope (!·.isUntested))
    (hf : t.form? id = some (.forLoop init condition? update body)) : condition?.isSome := by
  have ⟨kind, hk, he⟩ := Option.map_eq_some_iff.mp hf
  have hu := hn h hk
  cases condition?
  case some => rfl
  case none => simp [Kind.isUntested_of_form he] at hu

instance : Decidable (t.IsExpression id) :=
  decidable_of_iff ((t.kind? id).any (!·.isStatement)) (by simp [IsExpression, Option.any_eq_true])

theorem wellShaped_iff : t.WellShaped ↔ ∀ i < t.size, ∀ kind ∈ t.kind? ⟨i⟩,
    (∀ part ∈ kind.children,
      part.index < i ∧ ((t.kind? part).any Kind.isDeclarator ↔ kind.isVarDecl)) ∧
    ∀ part ∈ kind.operands, t.IsExpression part := by
  constructor
  case mp =>
    intro h i _ kind hk
    exact ⟨fun part hp => ⟨h.below hk hp, h.declarators hk hp⟩, fun part hp => h.operands hk hp⟩
  case mpr =>
    intro h
    have hn {id kind} (hk : t.kind? id = some kind) := h id.index (lt_size_of_kind? hk) kind hk
    exact ⟨fun hk hp => ((hn hk).1 _ hp).1, fun hk hp => ((hn hk).1 _ hp).2, fun hk => (hn hk).2 _⟩

instance : Decidable t.WellShaped :=
  decidable_of_iff' _ wellShaped_iff

end Tree

open Build

-- { while (more && !found) { if (bad) return; step(); } }
def searching : Id × Tree :=
  search.run .empty
where
  search : Build Id := do
    let more  ← identifier "more"
    let found ← identifier "found"
    let going ← Build.and more (← Build.not found)
    let bad   ← identifier "bad"
    let leave ← ifStmt bad (← returnStmt)
    let step  ← call none "step" []
    block [← whileStmt going (← block [leave, step])]

-- { if (ready || !(local ? cached : known)) return; fetch(); }
def fetching : Id × Tree :=
  fetch.run .empty
where
  fetch : Build Id := do
    let ready  ← identifier "ready"
    let here   ← identifier "local"
    let cached ← identifier "cached"
    let known  ← identifier "known"
    let found  ← ternary here cached known
    let done   ← Build.or ready (← Build.not (← parens found))
    let leave  ← ifStmt done (← returnStmt)
    let fetch  ← call none "fetch" []
    block [leave, fetch]

-- { for (;; step()) { if (bad) throw fault; else return; }
--   do { return; log(); } while (more);
--   done(); }
def deserted : Id × Tree :=
  desert.run .empty
where
  desert : Build Id := do
    let step   ← call none "step" []
    let bad    ← identifier "bad"
    let fault  ← identifier "fault"
    let raise  ← throwStmt fault
    let either ← ifStmt bad raise (some (← returnStmt))
    let always ← forStmt [] none [step] (← block [either])
    let leave  ← returnStmt
    let body   ← block [leave, ← call none "log" []]
    let once   ← doWhileStmt body (← identifier "more")
    block [always, once, ← call none "done" []]

end RoutineFlow.Syntax
