import RoutineFlow.Proofs.Survey
import RoutineFlow.Proofs.Visits

-- How deep the visits of a node nest. A chain of left operands counts once, however long it is, and
-- where parts come before what holds them it is always followed to its end.

namespace RoutineFlow

namespace Syntax

namespace Kind

def isBinary : Kind → Bool
  | binary .. => true
  | _         => false

end Kind

-- The levels of visits that a node needs, and those that the operands along its chain need.
structure Nesting where
  levels : Nat
  chain  : Nat

namespace Tree

variable {t : Tree} {id part l r : Id} {kind : Kind} {form : Form}

def nesting : Scheme Nesting where
  missing _     := ⟨1, 1⟩
  make _ kind v :=
    match kind with
    | .binary _ l r =>
      let operands := max (v l).chain (v r).levels
      ⟨operands + 1, operands⟩
    | kind =>
      let parts := (kind.form.parts.map fun part => (v part).levels).max?.getD 0
      ⟨parts + 1, parts + 1⟩
  congr {_ kind v v'} h := by
    have hp : kind.form.parts.map (fun part => (v part).levels) =
        kind.form.parts.map fun part => (v' part).levels :=
      List.map_congr_left fun part hp => congrArg Nesting.levels (h part hp)
    cases kind
    case binary op l r =>
      have hl : v l = v' l := h l (by cases op <;> exact .head _)
      have hr : v r = v' r := h r (by cases op <;> exact .tail _ (.head _))
      simp only [hl, hr]
    all_goals simp only [hp]

def levels (t : Tree) (id : Id) : Nat :=
  (t.fold nesting id).levels

def chainLevels (t : Tree) (id : Id) : Nat :=
  (t.fold nesting id).chain

def IsBinary (t : Tree) (id : Id) : Prop :=
  (t.kind? id).any Kind.isBinary

theorem fold_of_kind?_eq_none (s : Scheme α) (hk : t.kind? id = none) :
    t.fold s id = s.missing id := by
  rw [fold, hk]

namespace WellShaped

variable (hw : t.WellShaped)
include hw

theorem chainLevels_eq (hb : ¬t.IsBinary id) : t.chainLevels id = t.levels id := by
  rw [chainLevels, levels]
  cases hk : t.kind? id
  case none => rw [fold_of_kind?_eq_none nesting hk]; rfl
  case some kind =>
    rw [hw.fold_eq nesting hk]
    cases kind
    case binary => simp [IsBinary, hk, Kind.isBinary] at hb
    all_goals rfl

theorem levels_eq (hf : t.form? id = some form) (hb : ¬t.IsBinary id) :
    t.levels id = (form.parts.map t.levels).max?.getD 0 + 1 := by
  have ⟨kind, hk, he⟩ := Option.map_eq_some_iff.mp hf
  subst he
  rw [levels, hw.fold_eq nesting hk]
  cases kind
  case binary => simp [IsBinary, hk, Kind.isBinary] at hb
  all_goals rfl

theorem levels_lt (hf : t.form? id = some form) (hb : ¬t.IsBinary id) (hp : part ∈ form.parts) :
    t.levels part < t.levels id := by
  have hm : t.levels part ∈ form.parts.map t.levels := List.mem_map_of_mem hp
  rw [hw.levels_eq hf hb]
  exact Nat.lt_succ_of_le (List.le_max?_getD_of_mem hm)

theorem levels_binary (hk : t.kind? id = some (.binary op l r)) :
    t.levels id = t.chainLevels id + 1 := by
  rw [levels, chainLevels, hw.fold_eq nesting hk]
  rfl

theorem chainLevels_binary (hk : t.kind? id = some (.binary op l r)) :
    t.chainLevels id = max (t.chainLevels l) (t.levels r) := by
  rw [chainLevels, hw.fold_eq nesting hk]
  rfl

theorem levels_pos (id : Id) : 0 < t.levels id := by
  by_cases hb : t.IsBinary id
  case pos =>
    have ⟨kind, hk, hb⟩ := (Option.any_eq_true _ _).mp hb
    cases kind
    case binary => rw [hw.levels_binary hk]; exact Nat.succ_pos _
    all_goals cases hb
  case neg =>
    cases hk : t.kind? id
    case none => rw [levels, fold_of_kind?_eq_none nesting hk]; exact Nat.one_pos
    case some => rw [hw.levels_eq (form?_eq hk) hb]; exact Nat.succ_pos _

-- No more levels are needed than there are nodes up to this one.
theorem levels_le (id : Id) : t.levels id ≤ id.index + 1 ∧ t.chainLevels id ≤ id.index + 1 := by
  cases hk : t.kind? id
  case none =>
    rw [levels, chainLevels, fold_of_kind?_eq_none nesting hk]
    exact ⟨Nat.le_add_left 1 _, Nat.le_add_left 1 _⟩
  case some kind =>
    by_cases hb : t.IsBinary id
    case neg =>
      rw [hw.chainLevels_eq hb, and_self, hw.levels_eq (form?_eq hk) hb]
      refine Nat.succ_le_succ ?_
      cases hm : (kind.form.parts.map t.levels).max?
      case none   => exact Nat.zero_le _
      case some n =>
        have ⟨part, hp, he⟩ := List.mem_map.mp (List.max?_mem hm)
        have hlt := hw.index_lt (form?_eq hk) hp
        have ih := (levels_le part).1
        rw [Option.getD_some, ← he]
        omega
    case pos =>
      cases kind
      case binary op l r =>
        have hl := hw.below hk (List.Mem.head _)
        have hr := hw.below hk (List.Mem.tail _ (List.Mem.head _))
        have ihl := (levels_le l).2
        have ihr := (levels_le r).1
        rw [hw.levels_binary hk, hw.chainLevels_binary hk]
        omega
      all_goals simp [IsBinary, hk, Kind.isBinary] at hb
termination_by id.index

end WellShaped
end Tree
end Syntax

namespace Flow

open Syntax (Tree)

variable {t : Tree} {id leftmost : Syntax.Id} {links : List Link}

namespace Visitor

theorem Chain.levels_le_iff (hw : t.WellShaped) (hc : Chain t leftmost id links)
    (hb : ¬t.IsBinary leftmost) :
    t.chainLevels id ≤ n ↔
      t.levels leftmost ≤ n ∧ ∀ link ∈ links, t.levels link.right ≤ n := by
  induction hc
  case leftmost => simp [hw.chainLevels_eq hb]
  case operator hk ih =>
    rw [hw.chainLevels_binary hk, Nat.max_le, ih, List.forall_mem_append, List.forall_mem_singleton,
      and_assoc]

end Visitor

theorem not_isBinary_of_followLeft {outer : List Link}
    (h : followLeft t fuel id outer = some (leftmost, links)) : ¬t.IsBinary leftmost := by
  fun_induction followLeft t fuel id outer
  case case1    => cases h
  case case2 ih => exact ih h
  case case3 fuel _ _ h₁ h₂ =>
    cases h
    intro hb
    obtain ⟨kind, hk, hb⟩ := (Option.any_eq_true _ _).mp hb
    cases kind
    case binary op l r =>
      cases fuel
      case zero => exact h₁ op l r hk rfl
      case succ => exact h₂ op l r _ hk rfl
    all_goals cases hb

-- As long as the left operand comes first, no more operators follow than there are nodes before it.
theorem followLeft_isSome (hw : t.WellShaped) (h : id.index < fuel) (outer : List Link) :
    (followLeft t fuel id outer).isSome := by
  fun_induction followLeft t fuel id outer
  case case1 => exact absurd h (Nat.not_lt_zero _)
  case case2 hk ih =>
    have hl := hw.below hk (List.Mem.head _)
    exact ih (by omega)
  case case3 => rfl

theorem exists_chain (hw : t.WellShaped) (hk : t.kind? id = some kind) :
    ∃ leftmost links, leftChain? t id = some (leftmost, links) ∧
      Visitor.Chain t leftmost id links ∧ ¬t.IsBinary leftmost := by
  have hs := followLeft_isSome hw (Syntax.Tree.lt_size_of_kind? hk) []
  have ⟨⟨leftmost, links⟩, hl⟩ := Option.isSome_iff_exists.mp hs
  have ⟨inner, he, hc⟩ := Visitor.chain_of_followLeft hl
  rw [List.append_nil] at he
  exact ⟨leftmost, links, hl, he ▸ hc, not_isBinary_of_followLeft hl⟩

end Flow
end RoutineFlow
