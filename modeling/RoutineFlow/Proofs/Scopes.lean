import RoutineFlow.Proofs.Arena
import RoutineFlow.Proofs.Coverage
import RoutineFlow.Proofs.Proper

-- The scope of a position is that of the first routine or static block on the way up. All positions
-- of a finished graph share their scope, so an analysis may be started at any of them.

namespace RoutineFlow

namespace Syntax

namespace Kind

-- Kinds that bring a scope of their own.
def hasScope (kind : Kind) : Bool :=
  kind.isRoutine || kind.isStaticBlock

end Kind

namespace Tree

variable {t : Tree} {id p x scope : Id} {kind : Kind}

def hasScope (t : Tree) (id : Id) : Bool :=
  (t.kind? id).any Kind.hasScope

-- The bodies of routines, and static blocks.
inductive IsScope (t : Tree) : Id → Prop
  | body {id scope : Id} : t.kind? id = some (.routine name (some scope)) → IsScope t scope
  | static {scope : Id}  : t.kind? scope = some (.block statements true) → IsScope t scope

theorem hasScope_eq (hk : t.kind? id = some kind) : t.hasScope id = kind.hasScope := by
  rw [hasScope, hk, Option.any_some]

namespace Housed

variable (h : t.Housed)
include h

theorem exists_block (hs : t.IsScope scope) :
    ∃ statements isStatic, t.kind? scope = some (.block statements isStatic) := by
  cases hs
  case static hk => exact ⟨_, _, hk⟩
  case body hk   =>
    have ⟨statements, hb⟩ := h.bodies hk
    exact ⟨statements, _, hb⟩

-- What is above a node where the flow comes by, up to the scope, brings no scope of its own.
theorem find?_ancestors (hv : t.Visited scope x) (hx : ¬(t.kind? x).any Kind.isRoutine) :
    (t.ancestors x).find? t.hasScope = (t.ancestors scope).find? t.hasScope := by
  induction hv
  case scope => rfl
  case part id x kind hv hk ho hc ih =>
    have hr : kind.isRoutine = false := by
      cases kind
      case routine => cases ho
      all_goals rfl
    have hcls : kind.isClass = false := by
      cases kind
      case classDecl => cases ho
      all_goals rfl
    have hst : ¬(t.kind? x).any Kind.isStaticBlock := fun hst => by
      cases hcls.symm.trans (h.statics hk hc hst)
    have hp : t.parent? x = some id := h.parent.mpr (children_eq hk ▸ hc)
    have hs : t.hasScope x = false := by
      rw [hasScope]
      cases hkx : t.kind? x <;> simp_all [Kind.hasScope]
    have ⟨node, hn, _⟩ := Option.bind_eq_some_iff.mp hp
    have hkx : t.kind? x = some node.kind := by rw [kind?, hn, Option.map_some]
    rw [ancestors_eq hkx, List.find?_cons, hs, above_of_some hp, ← ancestors_eq hk]
    exact ih (by rw [hk, Option.any_some, hr]; exact Bool.false_ne_true)

end Housed
end Tree
end Syntax

namespace Flow

open Syntax (Tree Kind)

variable {t : Tree} {position id x scope : Syntax.Id} {kind : Kind} {s : Summary}
  {settings : Settings}

-- The scope that a node brings: a static block is its own, that of a routine is its body.
def broughtBy? (t : Tree) (id : Syntax.Id) : Option Syntax.Id :=
  match t.kind? id with
  | some (.block _ _)       => some id
  | some (.routine _ body?) => body?
  | _                       => none

-- What the first node on the way up that brings a scope brings.
def nearestScope (t : Tree) (position : Syntax.Id) : Except Error Syntax.Id :=
  match ((t.ancestors position).find? t.hasScope).bind (broughtBy? t) with
  | some scope => .ok scope
  | none       => .error (.invalidStart position)

-- On the way up from `x`. A routine is the position itself, or its body was passed last.
theorem scopeAlong_eq (h : t.Housed) {x : Syntax.Id} {kind : Kind} {last? : Option Syntax.Id}
    (hk : t.kind? x = some kind) (hi : position.index ≤ x.index)
    (hl : ∀ name body?, kind = .routine name body? → x = position ∨ last? = body?) :
    scopeAlong t position last? (x :: t.above x) =
      ((x :: t.above x).find? t.hasScope).bind (broughtBy? t) := by
  have up {last? : Option Syntax.Id}
      (hb : ∀ statements, kind = .block statements false → last? = some x) :
      scopeAlong t position last? (t.above x) =
        ((t.above x).find? t.hasScope).bind (broughtBy? t) := by
    cases hp : t.parent? x
    case none => rw [Tree.above_of_none hp]; rfl
    case some p =>
      have hlt := Tree.lt_of_parent? hp
      obtain ⟨kind', hk', hx⟩ := Tree.exists_kind?_of_mem_children (h.parent.mp hp)
      have hs := Tree.lt_size_of_kind? hk'
      rw [Tree.above_of_some hp]
      refine scopeAlong_eq h hk' (Nat.le_trans hi (Nat.le_of_lt hlt)) fun name body? he => .inr ?_
      -- `x` is listed by a routine, so it is its body.
      subst he
      obtain rfl : body? = some x := by simpa [Kind.children, eq_comm] using hx
      obtain ⟨statements, hkx⟩ := h.bodies hk'
      exact hb statements (Option.some.inj (hk.symm.trans hkx))
  rw [List.find?_cons, Tree.hasScope_eq hk, scopeAlong, hk]
  cases kind
  case block statements isStatic =>
    cases isStatic
    case true  => simp [Kind.hasScope, Kind.isStaticBlock, broughtBy?, hk]
    case false => exact up fun _ _ => rfl
  case routine name body? =>
    simp [Kind.hasScope, Kind.isRoutine, broughtBy?, hk]
    exact fun hn => (hl name body? rfl).resolve_left hn
  all_goals exact up fun _ he => by cases he
termination_by t.size - x.index

theorem scopeOf_eq (h : t.Housed) (hp : position ∈ t.ids) :
    scopeOf t position = nearestScope t position := by
  obtain ⟨kind, hk⟩ := Tree.exists_kind?_of_mem_ids hp
  have hg := Tree.isSome_get?_of_mem_ids hp
  have he : scopeAlong t position none (t.ancestors position) =
      ((t.ancestors position).find? t.hasScope).bind (broughtBy? t) := by
    rw [Tree.ancestors_eq hk]
    exact scopeAlong_eq h hk (Nat.le_refl _) fun _ _ _ => .inl rfl
  rw [scopeOf, if_pos hg, nearestScope]
  cases hn : ((t.ancestors position).find? t.hasScope).bind (broughtBy? t)
  all_goals simp [he, hn]

theorem broughtBy?_above (h : t.Housed) (hs : t.IsScope scope) :
    ((t.ancestors scope).find? t.hasScope).bind (broughtBy? t) = some scope := by
  cases hs
  case static hk =>
    rw [Tree.ancestors_eq hk, List.find?_cons, Tree.hasScope_eq hk]
    simp [Kind.hasScope, Kind.isStaticBlock, broughtBy?, hk]
  case body name id hk =>
    obtain ⟨statements, hb⟩ := h.bodies hk
    have hc : scope ∈ t.children id := by simp [Tree.children_eq hk, Kind.children]
    rw [Tree.ancestors_eq hb, Tree.above_of_some (h.parent.mpr hc), List.find?_cons,
      Tree.hasScope_eq hb, List.find?_cons, Tree.hasScope_eq hk]
    simp [Kind.hasScope, Kind.isStaticBlock, Kind.isRoutine, broughtBy?, hk]

-- All that the flow comes by shares the scope.
theorem nearestScope_of_visited (h : t.Housed) (hs : t.IsScope scope) (hv : t.Visited scope x)
    (hx : ¬(t.kind? x).any Kind.isRoutine) : nearestScope t x = .ok scope := by
  rw [nearestScope, h.find?_ancestors hv hx, broughtBy?_above h hs]

theorem not_isRoutine_of_isScope (h : t.Housed) (hs : t.IsScope scope) :
    ¬(t.kind? scope).any Kind.isRoutine := by
  have ⟨_, _, hk⟩ := h.exists_block hs
  simp [hk, Kind.isRoutine]

-- The analysis may be started anywhere in the graph.
theorem flowAround_eq (h : t.Housed) (hs : t.IsScope scope) (hv : t.Visited scope x)
    (hx : ¬(t.kind? x).any Kind.isRoutine) (hi : x ∈ t.ids) :
    flowAround t settings x = analyze t settings scope := by
  rw [flowAround, scopeOf_eq h hi, nearestScope_of_visited h hs hv hx]
  rfl

end Flow

namespace Lowering

open Concrete (Node Source)
open Syntax (Tree Kind)
open Flow (Summary analyze broughtBy? draws_of_analyze flowAround nearestScope scopeOf)

variable {o : Origin} {t : Tree} {roots : List Syntax.Id}

-- The scope of each node is the nearest one, and analyses from all positions of a graph agree.
theorem lower_scopes (source : Source) (root : Node) (he : root.row.hasError = false)
    (hS : root.Sheltered) :
    ∃ t, lower source root = .ok t ∧
      (∀ position ∈ t.ids, scopeOf t position = nearestScope t position) ∧
      ∀ scope settings s, t.IsScope scope → analyze t settings scope = .ok s →
        flowAround t settings scope = .ok s ∧
        ∀ position ∈ s.positions, ¬(t.kind? position).any Kind.isRoutine →
          flowAround t settings position = .ok s := by
  have ⟨_, hg, _⟩ := program_meets ⟨root, source⟩
  refine ⟨_, lower_eq_ok (o := ⟨root, source⟩) he, ?_⟩
  generalize (program { node := root } source .empty).2 = t at hg
  have hh : t.Housed := hg.housed hS
  refine ⟨fun position hp => Flow.scopeOf_eq hh hp, fun scope settings s hs ha => ?_⟩
  have around {x : Syntax.Id} (hv : t.Visited scope x) (hx : ¬(t.kind? x).any Kind.isRoutine)
      (hi : x ∈ t.ids) : flowAround t settings x = .ok s :=
    (Flow.flowAround_eq hh hs hv hx hi).trans ha
  have ⟨_, _, hb⟩ := hh.exists_block hs
  refine ⟨around .scope (Flow.not_isRoutine_of_isScope hh hs) (Tree.mem_ids_of_kind? hb), ?_⟩
  intro position hp hx
  have ⟨hv, hpl, _⟩ :=
    ((draws_of_analyze ha).mem_positions_iff hg.wellShaped hg.forest.listsOnce).mp hp
  have ⟨_, hk, _⟩ := Option.any_eq_true _ _ |>.mp hpl
  exact around hv hx (Tree.mem_ids_of_kind? hk)

theorem lower_scopes_classWithBlock :
    Concrete.classWithBlock.Sheltered ∧
    ∃ t s, lower (.ofString "class A \x7b static \x7b go(); \x7d \x7d") Concrete.classWithBlock =
        .ok t ∧
      t.IsScope ⟨1⟩ ∧ analyze t {} ⟨1⟩ = .ok s ∧ s.positions = [⟨1⟩, ⟨0⟩] ∧
      scopeOf t ⟨0⟩ = .ok ⟨1⟩ ∧ flowAround t {} ⟨0⟩ = .ok s := by
  have hS : Concrete.classWithBlock.Sheltered := by decide +kernel
  have ⟨t, ht, hn, hf⟩ := lower_scopes
    (.ofString "class A \x7b static \x7b go(); \x7d \x7d") Concrete.classWithBlock rfl hS
  have he := Except.ok.inj (ht.symm.trans (lower_eq_ok (o := ⟨_, _⟩) rfl))
  have hb : t.kind? ⟨1⟩ = some (.block [⟨0⟩] true) := by rw [he]; decide +kernel
  have hc : t.kind? ⟨0⟩ = some (.call none "go" []) := by rw [he]; decide +kernel
  have ho : ((t.ancestors ⟨0⟩).find? t.hasScope).bind (broughtBy? t) = some ⟨1⟩ := by
    rw [he]
    decide +kernel
  have hp : (analyze t {} ⟨1⟩).toOption.map (·.positions) = some [⟨1⟩, ⟨0⟩] := by
    rw [he]
    decide +kernel
  have ⟨s, hs⟩ : ∃ s, analyze t {} ⟨1⟩ = .ok s :=
    Flow.exists_of_isSome (by rw [he]; decide +kernel)
  rw [hs] at hp
  have hp : s.positions = _ := Option.some.inj hp
  have ⟨_, ha⟩ := hf ⟨1⟩ {} s (.static hb) hs
  refine ⟨hS, t, s, ht, .static hb, hs, hp, ?_, ha ⟨0⟩ ?_ ?_⟩
  · rw [hn ⟨0⟩ (Tree.mem_ids_of_kind? hc), nearestScope, ho]
  · rw [hp]
    decide
  · simp [hc, Kind.isRoutine]

end Lowering
end RoutineFlow
