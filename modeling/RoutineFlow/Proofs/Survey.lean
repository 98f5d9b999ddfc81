import Mathlib.Data.List.Nodup
import Mathlib.Data.List.Pairwise
import RoutineFlow.Proofs.Valued

-- What can be read off a syntax tree from the leaves upwards: the value of a node is made of the
-- values of the parts that the flow visits. The first such value is the list of all nodes that it
-- comes by.

namespace RoutineFlow.Syntax

-- What a list is made of without repetition comes from one place.
theorem eq_of_nodup_flatMap {l : List α} {f : α → List β} (h : (l.flatMap f).Nodup) (ha : a ∈ l)
    (hb : b ∈ l) (hx : x ∈ f a) (hx' : x ∈ f b) : a = b := by
  by_contra hn
  have : Std.Symm (Function.onFun List.Disjoint f) := ⟨fun _ _ h _ hb ha => h ha hb⟩
  exact (List.nodup_flatMap.mp h).2.forall ha hb hn hx hx'

-- How the value of a node is made of the values of its parts, and of nothing else below it.
structure Scheme (α : Type) where
  missing : Id → α
  make    : Id → Kind → (Id → α) → α
  congr   {id : Id} {kind : Kind} {v v' : Id → α} :
    (∀ part ∈ kind.form.parts, v part = v' part) → make id kind v = make id kind v'

namespace Form

-- The parts in the order in which the flow visits them.
def order : Form → List Id
  | forLoop init condition? update body => init ++ condition?.toList ++ [body] ++ update
  | form                                => form.parts

theorem mem_order {form : Form} {part : Id} : part ∈ form.order ↔ part ∈ form.parts := by
  cases form
  case forLoop => simp only [order, parts, List.mem_append]; tauto
  all_goals rfl

theorem order_perm (form : Form) : form.order.Perm form.parts := by
  cases form
  case forLoop init condition? update body =>
    simp only [order, parts, List.append_assoc]
    exact .append_left _ (.append_left _ List.perm_append_comm)
  all_goals exact .refl _

-- Whether a construct is done after its parts.
def comesLast : Form → Bool
  | strict _ | shortCircuit .. | jump _ | passing _ => true
  | _                                               => false

-- Whether a construct is a position of its own: what only leads to its parts is none.
def isPlaced : Form → Bool
  | shortCircuit .. | passing _ => false
  | _                           => true

end Form

namespace Kind

-- Declarators and the operators that may leave their right operand alone are no positions.
def isPlaced : Kind → Bool
  | declarator .. | binary .and _ _ | binary .or _ _ => false
  | _                                                => true

theorem isPlaced_form (kind : Kind) : kind.form.isPlaced = kind.isPlaced := by
  cases kind
  case binary op _ _ => cases op <;> rfl
  case unary op _    => cases op <;> rfl
  all_goals rfl

theorem parts_form {kind : Kind} (h : kind.isOpaque = false) : kind.form.parts = kind.children := by
  cases kind
  case binary op _ _ => cases op <;> rfl
  case unary op _    => cases op <;> rfl
  all_goals first
    | rfl
    | cases h

end Kind

namespace Tree

variable {t : Tree} {id scope part a b x : Id} {kind : Kind} {form : Form}

-- Only a part that comes before its construct has a value in it.
def fold (t : Tree) (s : Scheme α) (id : Id) : α :=
  match t.kind? id with
  | none      => s.missing id
  | some kind =>
    s.make id kind fun part => if part.index < id.index then t.fold s part else s.missing part
termination_by id.index

theorem WellShaped.fold_eq (hw : t.WellShaped) (s : Scheme α) (hk : t.kind? id = some kind) :
    t.fold s id = s.make id kind (t.fold s) := by
  rw [fold, hk]
  exact s.congr fun part hp => if_pos (hw.index_lt (form?_eq hk) hp)

def visiting : Scheme (List Id) where
  missing id     := [id]
  make id kind v :=
    if kind.form.comesLast then kind.form.order.flatMap v ++ [id]
    else id :: kind.form.order.flatMap v
  congr h        := by rw [List.flatMap_congr fun part hp => h part (Form.mem_order.mp hp)]

-- The nodes that the flow comes by from a node: in order, but for a construct that is done after
-- its parts and stands behind them.
def visits (t : Tree) (id : Id) : List Id :=
  t.fold visiting id

def visitsOf (t : Tree) (ids : List Id) : List Id :=
  ids.flatMap t.visits

def isPlaced (t : Tree) (id : Id) : Bool :=
  (t.kind? id).any Kind.isPlaced

theorem isPlaced_eq (hf : t.form? id = some form) : t.isPlaced id = form.isPlaced := by
  have ⟨kind, hk, he⟩ := Option.map_eq_some_iff.mp hf
  simp [isPlaced, hk, ← he, Kind.isPlaced_form]

@[simp]
theorem visitsOf_nil (t : Tree) : t.visitsOf [] = [] :=
  rfl

@[simp]
theorem visitsOf_cons (t : Tree) (id : Id) (ids : List Id) :
    t.visitsOf (id :: ids) = t.visits id ++ t.visitsOf ids :=
  rfl

@[simp]
theorem visitsOf_append (t : Tree) (ids ids' : List Id) :
    t.visitsOf (ids ++ ids') = t.visitsOf ids ++ t.visitsOf ids' :=
  List.flatMap_append

namespace WellShaped

variable (hw : t.WellShaped)
include hw

theorem visits_eq (hf : t.form? id = some form) :
    t.visits id =
      if form.comesLast then t.visitsOf form.order ++ [id] else id :: t.visitsOf form.order := by
  have ⟨kind, hk, he⟩ := Option.map_eq_some_iff.mp hf
  subst he
  exact hw.fold_eq visiting hk

theorem mem_visits (hf : t.form? id = some form) :
    x ∈ t.visits id ↔ x = id ∨ ∃ part ∈ form.parts, x ∈ t.visits part := by
  rw [hw.visits_eq hf]
  split
  case isTrue  => simp [visitsOf, Form.mem_order, or_comm]
  case isFalse => simp [visitsOf, Form.mem_order]

end WellShaped

theorem Visited.trans (h : t.Visited a b) (h' : t.Visited b x) : t.Visited a x := by
  induction h'
  case scope            => exact h
  case part hk ho hc ih => exact .part ih hk ho hc

theorem visits_of_kind?_eq_none (hk : t.kind? id = none) : t.visits id = [id] := by
  rw [visits, fold, hk]
  rfl

theorem self_mem_visits (hw : t.WellShaped) (id : Id) : id ∈ t.visits id := by
  cases hk : t.kind? id
  case none => simp [visits_of_kind?_eq_none hk]
  case some => exact (hw.mem_visits (form?_eq hk)).mpr (.inl rfl)

namespace WellShaped

variable (hw : t.WellShaped)
include hw

theorem visited_of_mem_visits {id : Id} (h : x ∈ t.visits id) : t.Visited id x := by
  cases hk : t.kind? id
  case none =>
    rw [visits_of_kind?_eq_none hk, List.mem_singleton] at h
    exact h ▸ .scope
  case some =>
    cases (hw.mem_visits (form?_eq hk)).mp h
    case inl he => exact he ▸ .scope
    case inr hp =>
      have ⟨part, hp, hx⟩ := hp
      have ⟨ho, hc⟩ := Kind.mem_parts_form.mp hp
      have hb := hw.below hk hc
      exact .trans (.part .scope hk ho hc) (visited_of_mem_visits hx)
termination_by id.index

theorem part_mem_visits {id : Id} (h : x ∈ t.visits id) (hk : t.kind? x = some kind)
    (hp : part ∈ kind.form.parts) : part ∈ t.visits id := by
  cases hi : t.kind? id
  case none =>
    rw [visits_of_kind?_eq_none hi, List.mem_singleton] at h
    cases (h ▸ hk).symm.trans hi
  case some =>
    have hm {y} := hw.mem_visits (x := y) (form?_eq hi)
    cases hm.mp h
    case inl he =>
      subst he
      cases hk.symm.trans hi
      exact hm.mpr (.inr ⟨part, hp, self_mem_visits hw part⟩)
    case inr hq =>
      have ⟨q, hq, hx⟩ := hq
      have hb := hw.below hi (Kind.mem_parts_form.mp hq).2
      exact hm.mpr (.inr ⟨q, hq, part_mem_visits hx hk hp⟩)
termination_by id.index

theorem mem_visits_iff : x ∈ t.visits id ↔ t.Visited id x := by
  refine ⟨hw.visited_of_mem_visits, fun h => ?_⟩
  induction h
  case scope            => exact self_mem_visits hw id
  case part hk ho hc ih => exact hw.part_mem_visits ih hk (Kind.mem_parts_form.mpr ⟨ho, hc⟩)

end WellShaped

def children (t : Tree) (id : Id) : List Id :=
  (t.kind? id).elim [] Kind.children

-- No node is listed as a part twice, neither by one node nor by two.
def ListsOnce (t : Tree) : Prop :=
  (t.ids.flatMap t.children).Nodup

instance : Decidable t.ListsOnce :=
  inferInstanceAs (Decidable (List.Nodup _))

-- The nodes at and below `top`, whether the flow comes by them or not.
inductive Below (t : Tree) (top : Id) : Id → Prop
  | top  : Below t top top
  | part {id part : Id} {kind : Kind} : Below t top id → t.kind? id = some kind →
    part ∈ kind.children → Below t top part

theorem Visited.toBelow (h : t.Visited a x) : t.Below a x := by
  induction h
  case scope           => exact .top
  case part hk _ hc ih => exact .part ih hk hc

theorem Below.index_le (hw : t.WellShaped) (h : t.Below a x) : x.index ≤ a.index := by
  induction h
  case top             => exact Nat.le_refl _
  case part hk hc ih   => exact Nat.le_trans (Nat.le_of_lt (hw.below hk hc)) ih

theorem Below.trans (h : t.Below a b) (h' : t.Below b x) : t.Below a x := by
  induction h'
  case top           => exact h
  case part hk hc ih => exact .part ih hk hc

theorem mem_ids_of_kind? (hk : t.kind? id = some kind) : id ∈ t.ids :=
  List.mem_map.mpr ⟨id.index, List.mem_range.mpr (lt_size_of_kind? hk), rfl⟩

theorem children_eq (hk : t.kind? id = some kind) : t.children id = kind.children := by
  rw [children, hk, Option.elim_some]

theorem exists_kind?_of_mem_children (h : part ∈ t.children id) :
    ∃ kind, t.kind? id = some kind ∧ part ∈ kind.children := by
  cases hk : t.kind? id
  case none      => simp [children, hk] at h
  case some kind => exact ⟨kind, rfl, children_eq hk ▸ h⟩

theorem below_part (h : part ∈ t.children id) : t.Below id part :=
  have ⟨_, hk, hc⟩ := exists_kind?_of_mem_children h
  .part .top hk hc

theorem Below.eq_or_part (h : t.Below a x) : x = a ∨ ∃ part ∈ t.children a, t.Below part x := by
  induction h
  case top           => exact .inl rfl
  case part hk hc ih =>
    cases ih
    case inl he => exact .inr ⟨_, children_eq (he ▸ hk) ▸ hc, .top⟩
    case inr ih =>
      have ⟨_, hp, ih⟩ := ih
      exact .inr ⟨_, hp, ih.part hk hc⟩

namespace ListsOnce

variable (hl : t.ListsOnce)
include hl

theorem nodup_children (hk : t.kind? id = some kind) : kind.children.Nodup := by
  have h := (List.nodup_flatMap.mp hl).1 id (mem_ids_of_kind? hk)
  rwa [children_eq hk] at h

theorem unique {kind' : Kind} (ha : t.kind? a = some kind) (hx : x ∈ kind.children)
    (hb : t.kind? b = some kind') (hx' : x ∈ kind'.children) : a = b :=
  eq_of_nodup_flatMap hl (mem_ids_of_kind? ha) (mem_ids_of_kind? hb) (children_eq ha ▸ hx)
    (children_eq hb ▸ hx')

theorem nodup_parts (hk : t.kind? id = some kind) : kind.form.parts.Nodup := by
  cases ho : kind.isOpaque
  case false => exact Kind.parts_form ho ▸ hl.nodup_children hk
  case true  =>
    have hn : kind.form.parts = [] :=
      List.eq_nil_iff_forall_not_mem.mpr fun _ hp => by simp [Kind.mem_parts_form, ho] at hp
    rw [hn]
    exact .nil

-- Of two nodes above a third, one is above the other.
theorem comparable (h : t.Below a x) (h' : t.Below b x) : t.Below a b ∨ t.Below b a := by
  induction h
  case top => exact .inr h'
  case part hi hk hc ih =>
    cases h'
    case top             => exact .inl (.part hi hk hc)
    case part hi' hk' hc' =>
      cases hl.unique hk hc hk' hc'
      exact ih hi'

variable (hw : t.WellShaped)
include hw

theorem not_below_sibling (hk : t.kind? id = some kind) (ha : a ∈ kind.children)
    (hb : b ∈ kind.children) (hn : a ≠ b) : ¬t.Below a b := by
  intro h
  cases h
  case top              => exact hn rfl
  case part hi hk' hb' =>
    cases hl.unique hk hb hk' hb'
    exact absurd (hw.below hk ha) (Nat.not_lt_of_le (hi.index_le hw))

theorem nodup_visits (id : Id) : (t.visits id).Nodup := by
  cases hk : t.kind? id
  case none => simp [visits_of_kind?_eq_none hk]
  case some kind =>
    have hb {p} (hp : p ∈ kind.form.order) := (Kind.mem_parts_form.mp (Form.mem_order.mp hp)).2
    have hv {p x} (hx : x ∈ t.visits p) := (hw.visited_of_mem_visits hx).toBelow
    have hn : kind.form.order.Nodup := (Form.order_perm _).nodup_iff.mpr (hl.nodup_parts hk)
    have hs : (id :: t.visitsOf kind.form.order).Nodup := by
      refine List.nodup_cons.mpr ⟨fun hm => ?_, List.nodup_flatMap.mpr ⟨fun p hp => ?_, ?_⟩⟩
      · have ⟨p, hp, hx⟩ := List.mem_flatMap.mp hm
        exact absurd (hw.below hk (hb hp)) (Nat.not_lt_of_le ((hv hx).index_le hw))
      · have := hw.below hk (hb hp)
        exact nodup_visits p
      · refine hn.pairwise_of_forall_ne fun p hp q hq hn x hx hx' => ?_
        cases hl.comparable (hv hx) (hv hx')
        case inl h => exact hl.not_below_sibling hw hk (hb hp) (hb hq) hn h
        case inr h => exact hl.not_below_sibling hw hk (hb hq) (hb hp) (Ne.symm hn) h
    rw [hw.visits_eq (form?_eq hk)]
    split
    case isTrue  => exact (List.perm_append_singleton id _).nodup_iff.mpr hs
    case isFalse => exact hs
termination_by id.index

-- The flow comes by nothing below a node without coming by that node.
theorem visited_of_below (hb : t.Visited scope b) (hx : t.Visited scope x) (h : t.Below b x) :
    t.Visited b x := by
  induction h
  case top => exact .scope
  case part hi hk hc ih =>
    cases hx
    case scope =>
      have hle := Nat.le_trans (hi.index_le hw) (hb.toBelow.index_le hw)
      exact absurd (hw.below hk hc) (Nat.not_lt_of_le hle)
    case part hi' hk' ho hc' =>
      cases hl.unique hk hc hk' hc'
      cases hk.symm.trans hk'
      exact .part (ih hi') hk ho hc

end ListsOnce

end Tree
end RoutineFlow.Syntax
