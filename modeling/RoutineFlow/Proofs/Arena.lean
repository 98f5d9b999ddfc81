import Mathlib.Data.List.Induction
import RoutineFlow.Flow.Scope
import RoutineFlow.Proofs.Forest

-- Trees as they are built by additions alone, whatever ids the nodes name for their parts: ids that
-- belong to no node, to the node itself, to a later one, or to a part that has a parent already.
-- The parent of a node is the last one after it that lists it. So every walk up such a tree ends,
-- and so does every walk down that passes over the parts that come later.

namespace RoutineFlow

-- `Trail next? a as z` says that `next?` leads from `a` through `as`, up to `z`, and nowhere from
-- there. What never comes to such an end has no trail.
inductive Trail (next? : α → Option α) : α → List α → α → Prop
  | last : next? a = none → Trail next? a [a] a
  | next : next? a = some b → Trail next? b bs z → Trail next? a (a :: bs) z

namespace Trail

variable {next? : α → Option α} {a b z z' : α} {as bs : List α}

theorem unique (h : Trail next? a as z) (h' : Trail next? a bs z') : as = bs ∧ z = z' := by
  induction h generalizing bs
  case last hn =>
    cases h'
    case last        => exact ⟨rfl, rfl⟩
    case next hn' _  => cases hn.symm.trans hn'
  case next hn _ ih =>
    cases h'
    case last hn'      => cases hn.symm.trans hn'
    case next hn' h' =>
      cases hn.symm.trans hn'
      have ⟨he, hz⟩ := ih h'
      exact ⟨congrArg _ he, hz⟩

theorem exists_cons (h : Trail next? a as z) : ∃ bs, as = a :: bs := by
  cases h
  case last => exact ⟨[], rfl⟩
  case next => exact ⟨_, rfl⟩

theorem ends (h : Trail next? a as z) : next? z = none := by
  induction h
  case last hn => exact hn
  case next ih => exact ih

-- What every step keeps holds at the end.
theorem preserves {P : α → Prop} (h : Trail next? a as z)
    (hP : ∀ {a b}, next? a = some b → P a → P b) (ha : P a) : P z := by
  induction h
  case last        => exact ha
  case next hn _ ih => exact ih (hP hn ha)

-- An order that every step follows is that of the whole trail.
theorem pairwise {R : α → α → Prop} (h : Trail next? a as z)
    (ht : ∀ {a b c}, R a b → R b c → R a c) (hR : ∀ {a b}, next? a = some b → R a b) :
    as.Pairwise R := by
  have hp : as.Pairwise R ∧ ∀ b ∈ as, b = a ∨ R a b := by
    induction h
    case last => exact ⟨List.pairwise_singleton _ _, fun b hb => .inl (List.mem_singleton.mp hb)⟩
    case next hn _ ih =>
      have ⟨hp, ha⟩ := ih
      have hall : ∀ c ∈ _, R _ c := fun c hc => (ha c hc).elim (· ▸ hR hn) (ht (hR hn))
      refine ⟨List.pairwise_cons.mpr ⟨hall, hp⟩, fun b hb => ?_⟩
      exact (List.mem_cons.mp hb).imp_right (hall b)
  exact hp.1

-- Steps that go down a measure come to an end.
theorem exists_of_measure {next? : α → Option α} (size : α → Nat)
    (hs : ∀ {a b}, next? a = some b → size b < size a) (a : α) :
    ∃ as z, Trail next? a as z := by
  cases hn : next? a
  case none   => exact ⟨[a], a, .last hn⟩
  case some b =>
    have := hs hn
    have ⟨bs, z, h⟩ := exists_of_measure size hs b
    exact ⟨a :: bs, z, .next hn h⟩
termination_by size a

end Trail

namespace Syntax.Tree

variable {t : Tree} {id p q x root : Id} {kind : Kind} {span : Span} {line column : Nat}

-- The tree that additions make, one after the other.
def ofAdditions (additions : List (Kind × Span)) : Tree :=
  additions.foldl (fun t (kind, span) => t.add kind span) .empty

-- There are as many nodes as additions (1), each with the kind and the span (2) of the addition at
-- its place.
structure Stores (t : Tree) (additions : List (Kind × Span)) : Prop where
  size         : t.size = additions.length                                        -- (1)
  kind (i : Nat) : t.kind? ⟨i⟩ = additions[i]?.map (·.1)                          -- (2)
  span (i : Nat) : t.span? ⟨i⟩ = additions[i]?.map (·.2)

-- A node lists an earlier one.
def Adopts (t : Tree) (p id : Id) : Prop :=
  id.index < p.index ∧ id ∈ t.children p

-- The parent of a node is the last one that adopts it (1), and a node without a parent is adopted
-- by none (2).
structure Adopted (t : Tree) : Prop where
  last   {id p : Id} :                                                            -- (1)
    t.parent? id = some p → t.Adopts p id ∧ ∀ q, t.Adopts q id → q.index ≤ p.index
  orphan {id : Id} : t.parent? id = none → ∀ p, ¬t.Adopts p id                    -- (2)

namespace Stores

variable {additions : List (Kind × Span)}

theorem empty : Tree.empty.Stores [] where
  size   := rfl
  kind _ := rfl
  span _ := rfl

theorem getElem?_snoc (h : t.Stores additions) (a : Kind × Span) (i : Nat) :
    (additions ++ [a])[i]? = if (⟨i⟩ : Id) = t.nextId then some a else additions[i]? := by
  have hn : (⟨i⟩ : Id) = t.nextId ↔ i = additions.length := by
    rw [Id.ext_iff, ← h.size]
    rfl
  simp only [hn]
  obtain hi | rfl | hi := Nat.lt_trichotomy i additions.length
  · rw [List.getElem?_append_left hi, if_neg (Nat.ne_of_lt hi)]
  · rw [List.getElem?_concat_length, if_pos rfl]
  · have hi : additions.length + 1 ≤ i := hi
    rw [if_neg (Nat.ne_of_gt hi), List.getElem?_eq_none (Nat.le_of_lt hi)]
    exact List.getElem?_eq_none (by simpa using hi)

theorem add (h : t.Stores additions) (kind : Kind) (span : Span) :
    (t.add kind span).Stores (additions ++ [(kind, span)]) where
  size   := by rw [size_add, h.size, List.length_append, List.length_singleton]
  kind i := by
    rw [kind?_add, h.kind, h.getElem?_snoc]
    split
    all_goals rfl
  span i := by
    rw [span?_add, h.span, h.getElem?_snoc]
    split
    all_goals rfl

end Stores

theorem ofAdditions_concat (additions : List (Kind × Span)) (a : Kind × Span) :
    ofAdditions (additions ++ [a]) = (ofAdditions additions).add a.1 a.2 :=
  List.foldl_concat ..

theorem stores_ofAdditions (additions : List (Kind × Span)) :
    (ofAdditions additions).Stores additions := by
  induction additions using List.reverseRecOn
  case nil                   => exact .empty
  case append_singleton a ih => exact ofAdditions_concat .. ▸ ih.add a.1 a.2

theorem Adopts.lt_size (h : t.Adopts p id) : p.index < t.size :=
  mem_ids_iff.mp (mem_ids_of_mem_children h.2)

theorem parent?_add (t : Tree) (kind : Kind) (span : Span) (id : Id) :
    (t.add kind span).parent? id =
      if id.index < t.size ∧ id ∈ kind.children then some t.nextId else t.parent? id := by
  rw [parent?, get?_add]
  by_cases hn : id = t.nextId
  case pos =>
    subst hn
    rw [if_pos rfl, if_neg fun h => absurd h.1 (Nat.lt_irrefl _), parent?, get?_nextId]
    rfl
  case neg =>
    rw [if_neg hn, parent?]
    by_cases hs : id.index < t.size
    case pos =>
      have hg : t.get? id = some t.nodes[id.index] := Array.getElem?_eq_getElem hs
      by_cases hm : id ∈ kind.children <;> simp [hg, hm, hs]
    case neg =>
      have hg : t.get? id = none := Array.getElem?_eq_none (Nat.le_of_not_lt hs)
      simp [hg, hs]

theorem adopts_add (t : Tree) (kind : Kind) (span : Span) (p id : Id) :
    (t.add kind span).Adopts p id ↔
      p = t.nextId ∧ id.index < t.size ∧ id ∈ kind.children ∨ t.Adopts p id := by
  unfold Adopts
  rw [children_add]
  by_cases hp : p = t.nextId
  case pos =>
    subst hp
    have hc : t.children t.nextId = [] := by rw [children, kind?_nextId]; rfl
    simp [hc, show t.nextId.index = t.size from rfl]
  case neg => simp [hp]

namespace Adopted

theorem empty : Tree.empty.Adopted where
  last h     := by simp [parent?, get?, Tree.empty] at h
  orphan _ _ := fun h => absurd h.lt_size (Nat.not_lt_zero _)

-- A new node comes after all that have adopted its parts before.
theorem add (h : t.Adopted) (kind : Kind) (span : Span) : (t.add kind span).Adopted where
  last {id p} hp := by
    rw [parent?_add] at hp
    split at hp
    case isTrue hm =>
      cases hp
      refine ⟨(adopts_add ..).mpr (.inl ⟨rfl, hm⟩), fun q hq => ?_⟩
      cases (adopts_add ..).mp hq
      case inl hq => exact Nat.le_of_eq (congrArg _ hq.1)
      case inr hq => exact Nat.le_of_lt hq.lt_size
    case isFalse hm =>
      have ⟨ha, hl⟩ := h.last hp
      refine ⟨(adopts_add ..).mpr (.inr ha), fun q hq => ?_⟩
      cases (adopts_add ..).mp hq
      case inl hq => exact absurd hq.2 hm
      case inr hq => exact hl q hq
  orphan {id} hn p hp := by
    rw [parent?_add] at hn
    split at hn
    case isTrue     => cases hn
    case isFalse hm =>
      cases (adopts_add ..).mp hp
      case inl hp => exact hm hp.2
      case inr hp => exact h.orphan hn p hp

theorem parent?_eq_some_iff (h : t.Adopted) :
    t.parent? id = some p ↔ t.Adopts p id ∧ ∀ q, t.Adopts q id → q.index ≤ p.index := by
  refine ⟨h.last, fun ⟨ha, hl⟩ => ?_⟩
  cases hn : t.parent? id
  case none   => exact absurd ha (h.orphan hn p)
  case some q =>
    have ⟨ha', hl'⟩ := h.last hn
    exact congrArg some (Id.ext (Nat.le_antisymm (hl q ha') (hl' p ha)))

theorem parent?_eq_none_iff (h : t.Adopted) : t.parent? id = none ↔ ∀ p, ¬t.Adopts p id := by
  refine ⟨h.orphan, fun hn => Option.eq_none_iff_forall_ne_some.mpr fun p hp => ?_⟩
  exact hn p (h.last hp).1

end Adopted

theorem adopted_ofAdditions (additions : List (Kind × Span)) :
    (ofAdditions additions).Adopted := by
  induction additions using List.reverseRecOn
  case nil                   => exact .empty
  case append_singleton a ih => exact ofAdditions_concat .. ▸ ih.add a.1 a.2

theorem above_of_none (hp : t.parent? id = none) : t.above id = [] := by
  rw [above]
  split
  case h_1 => rfl
  case h_2 h => cases hp.symm.trans h

theorem above_of_some (hp : t.parent? id = some p) : t.above id = p :: t.above p := by
  rw [above]
  split
  case h_1 h => cases hp.symm.trans h
  case h_2 h => cases hp.symm.trans h; rfl

theorem isSome_get?_of_mem_ids (h : id ∈ t.ids) : (t.get? id).isSome := by
  simpa [get?, size] using mem_ids_iff.mp h

theorem exists_kind?_of_mem_ids (h : id ∈ t.ids) : ∃ kind, t.kind? id = some kind :=
  have ⟨node, hn⟩ := Option.isSome_iff_exists.mp (isSome_get?_of_mem_ids h)
  ⟨node.kind, by rw [kind?, hn, Option.map_some]⟩

theorem ancestors_eq (hk : t.kind? id = some kind) : t.ancestors id = id :: t.above id := by
  have ⟨_, hn, _⟩ := Option.map_eq_some_iff.mp hk
  rw [ancestors, hn]
  rfl

theorem above_trail (t : Tree) (id : Id) : ∃ top, Trail t.parent? id (id :: t.above id) top := by
  cases hp : t.parent? id
  case none   => exact ⟨id, above_of_none hp ▸ .last hp⟩
  case some p =>
    have := lt_of_parent? hp
    have := lt_size_of_parent? hp
    have ⟨top, h⟩ := above_trail t p
    exact ⟨top, above_of_some hp ▸ .next hp h⟩
termination_by t.size - id.index

-- The first part around a position that comes before its node.
def inner? (t : Tree) (line column : Nat) (id : Id) : Option Id :=
  (t.children id).find? fun part => part.index < id.index && t.covers line column part

theorem inner?_eq_some (h : t.inner? line column id = some x) :
    x.index < id.index ∧ t.covers line column x := by
  simpa using List.find?_some h

theorem inner?_eq_none_iff : t.inner? line column id = none ↔
    ∀ part ∈ t.children id, part.index < id.index → ¬t.covers line column part := by
  simp [inner?]

theorem descend_of_none (h : t.inner? line column id = none) : t.descend line column id = id := by
  rw [descend]
  split
  case h_1 => rfl
  case h_2 h' => cases h.symm.trans h'

theorem descend_of_some (h : t.inner? line column id = some x) :
    t.descend line column id = t.descend line column x := by
  rw [descend]
  split
  case h_1 h' => cases h.symm.trans h'
  case h_2 h' => cases h.symm.trans h'; rfl

theorem descend_trail (t : Tree) (line column : Nat) (id : Id) :
    ∃ visited, Trail (t.inner? line column) id visited (t.descend line column id) := by
  have hs : ∀ {p x}, t.inner? line column p = some x → x.index < p.index :=
    (inner?_eq_some · |>.1)
  have ⟨visited, x, h⟩ := Trail.exists_of_measure Id.index hs id
  have he : t.descend line column id = x := by
    induction h
    case last hn      => exact descend_of_none hn
    case next hn _ ih => exact (descend_of_some hn).trans ih
  exact ⟨visited, he ▸ h⟩

end Syntax.Tree

namespace Flow

open Syntax (Tree)

variable {t : Tree} {position : Syntax.Id}

-- How far a search for a scope has come: the node it is at, and the last block passed below.
structure Climb where
  here  : Syntax.Id
  last? : Option Syntax.Id

namespace Climb

-- A search goes on to the parent, unless it is at a routine or a static block.
def next? (t : Tree) (c : Climb) : Option Climb :=
  match t.kind? c.here with
  | some (.block _ true) | some (.routine ..) => none
  | some (.block _ false)                     => (t.parent? c.here).map (⟨·, some c.here⟩)
  | _                                         => (t.parent? c.here).map (⟨·, c.last?⟩)

-- What a search has found where it ends.
def found? (t : Tree) (position : Syntax.Id) (c : Climb) : Option Syntax.Id :=
  match t.kind? c.here with
  | some (.block _ true)      => some c.here
  | some (.routine _ body?)   => if c.here = position then body? else c.last?
  | _                         => none

theorem next?_eq_some {c c' : Climb} (position : Syntax.Id) (h : c.next? t = some c') :
    t.parent? c.here = some c'.here ∧
      scopeAlong t position c.last? (c.here :: t.above c.here) =
        scopeAlong t position c'.last? (c'.here :: t.above c'.here) := by
  unfold next? at h
  split at h
  case h_1 => cases h
  case h_2 => cases h
  case h_3 hk =>
    obtain ⟨p, hp, rfl⟩ := Option.map_eq_some_iff.mp h
    refine ⟨hp, ?_⟩
    rw [scopeAlong, hk, Tree.above_of_some hp]
  case h_4 h₁ h₂ h₃ =>
    obtain ⟨p, hp, rfl⟩ := Option.map_eq_some_iff.mp h
    refine ⟨hp, ?_⟩
    rw [scopeAlong, Tree.above_of_some hp]
    split <;> simp_all

theorem found?_eq {c : Climb} (h : c.next? t = none) :
    scopeAlong t position c.last? (c.here :: t.above c.here) = c.found? t position := by
  unfold next? at h
  rw [scopeAlong, found?]
  split at h
  case h_1 hk => simp only [hk]
  case h_2 hk => simp only [hk]
  case h_3 hk =>
    simp only [hk, Tree.above_of_none (Option.map_eq_none_iff.mp h)]
    rfl
  case h_4 =>
    rw [Tree.above_of_none (Option.map_eq_none_iff.mp h)]
    split <;> simp_all [scopeAlong]

theorem trail (t : Tree) (position : Syntax.Id) (c : Climb) :
    ∃ climbs z, Trail (next? t) c climbs z ∧
      scopeAlong t position c.last? (c.here :: t.above c.here) = z.found? t position := by
  cases hn : c.next? t
  case none    => exact ⟨[c], c, .last hn, found?_eq hn⟩
  case some c' =>
    have ⟨hp, he⟩ := next?_eq_some position hn
    have := Tree.lt_of_parent? hp
    have := Tree.lt_size_of_parent? hp
    have ⟨climbs, z, h, hz⟩ := trail t position c'
    exact ⟨c :: climbs, z, .next hn h, he.trans hz⟩
termination_by t.size - c.here.index

end Climb

-- The parent of a node is the last of those that adopt it (1), and the ways up from a node (2) and
-- to its scope (3) come to an end, as does the way down to a position (4).
structure Passable (t : Tree) : Prop where
  parent  (id p : Syntax.Id) :                                                    -- (1)
    t.parent? id = some p ↔ t.Adopts p id ∧ ∀ q, t.Adopts q id → q.index ≤ p.index
  orphan  (id : Syntax.Id) : t.parent? id = none ↔ ∀ p, ¬t.Adopts p id
  up      (id : Syntax.Id) : (t.get? id).isSome →                                 -- (2)
    (t.ancestors id).Pairwise (·.index < ·.index) ∧ (t.ancestors id).Nodup ∧
    ∃ top, Trail t.parent? id (t.ancestors id) top ∧ t.parent? top = none
  scope   (position : Syntax.Id) : (t.get? position).isSome →                     -- (3)
    ∃ climbs z, Trail (Climb.next? t) ⟨position, none⟩ climbs z ∧
      scopeOf t position = match z.found? t position with
        | some scope => .ok scope
        | none       => .error (.invalidStart position)
  down    (line column : Nat) :                                                   -- (4)
    match t.nodeAt? line column with
    | none   => ∀ root, t.parent? root = none → ¬t.covers line column root
    | some x => ∃ root visited, t.parent? root = none ∧ t.covers line column root ∧
        Trail (t.inner? line column) root visited x ∧ visited.Pairwise (·.index > ·.index) ∧
        t.covers line column x ∧
        ∀ part ∈ t.children x, part.index < x.index → ¬t.covers line column part

theorem ofAdditions_passable (additions : List (Syntax.Kind × Syntax.Span)) :
    (Tree.ofAdditions additions).Stores additions ∧ Passable (.ofAdditions additions) := by
  have h := Tree.adopted_ofAdditions additions
  refine ⟨Tree.stores_ofAdditions additions, ?_⟩
  generalize Tree.ofAdditions additions = t at h
  refine ⟨fun _ _ => h.parent?_eq_some_iff, fun _ => h.parent?_eq_none_iff, ?_, ?_, ?_⟩
  case refine_1 =>
    intro id hi
    have ⟨top, hu⟩ := t.above_trail id
    have hp := hu.pairwise (R := (·.index < ·.index)) Nat.lt_trans Tree.lt_of_parent?
    rw [Tree.ancestors, if_pos hi]
    exact ⟨hp, hp.imp fun hlt he => absurd (congrArg _ he) (Nat.ne_of_lt hlt), top, hu, hu.ends⟩
  case refine_2 =>
    intro position hi
    have ⟨climbs, z, hc, he⟩ := Climb.trail t position ⟨position, none⟩
    refine ⟨climbs, z, hc, ?_⟩
    rw [scopeOf, if_pos hi, Tree.ancestors, if_pos hi]
    exact he ▸ rfl
  case refine_3 =>
    intro line column
    unfold Tree.nodeAt?
    cases hf : t.ids.find? fun id => (t.parent? id).isNone && t.covers line column id
    case none =>
      intro root hr hc
      have hm : root ∈ t.ids := by
        have ⟨_, hs, _⟩ := (Option.any_eq_true _ _).mp hc
        have ⟨_, hn, _⟩ := Option.map_eq_some_iff.mp hs
        exact Tree.mem_ids_iff.mpr (Array.getElem?_eq_some_iff.mp hn).1
      simpa [hr, hc] using List.find?_eq_none.mp hf root hm
    case some root =>
      have hs := List.find?_some hf
      have ⟨hr, hc⟩ := Bool.and_eq_true_iff.mp hs
      have ⟨visited, hd⟩ := t.descend_trail line column root
      have hp := hd.pairwise (R := (·.index > ·.index)) (fun h h' => Nat.lt_trans h' h)
        (Tree.inner?_eq_some · |>.1)
      have hx := hd.preserves (fun h _ => (Tree.inner?_eq_some h).2) hc
      exact ⟨root, visited, Option.isNone_iff_eq_none.mp hr, hc, hd, hp, hx,
        Tree.inner?_eq_none_iff.mp hd.ends⟩

-- A node that is listed twice, one that lists itself and one that comes later, and a block that
-- takes over a part of another.
def tangled : Tree :=
  .ofAdditions [
    (.identifier "a", ⟨1, 3, 1, 4⟩),
    (.binary .and ⟨0⟩ ⟨0⟩, ⟨1, 2, 1, 5⟩),
    (.binary .or ⟨2⟩ ⟨4⟩, ⟨1, 1, 1, 6⟩),
    (.parens ⟨0⟩, ⟨2, 1, 2, 2⟩),
    (.block [⟨1⟩, ⟨2⟩, ⟨9⟩] false, ⟨1, 1, 3, 1⟩)]

example :
    tangled.size = 5 ∧
    tangled.ids.map tangled.parent? = [some ⟨3⟩, some ⟨4⟩, some ⟨4⟩, none, none] ∧
    tangled.ancestors ⟨0⟩ = [⟨0⟩, ⟨3⟩] ∧
    tangled.nodeAt? 1 3 = some ⟨0⟩ := by decide +kernel

end Flow
end RoutineFlow
