import RoutineFlow.Proofs.Survey

-- A syntax tree while it is built. Nodes that no other node lists yet are its roots; a new node
-- takes some of them for its parts and becomes a root itself.

namespace RoutineFlow.Syntax.Tree

variable {t t' t'' : Tree} {id part p x top : Id} {kind : Kind} {span : Span}
  {roots roots' rest : List Id}

theorem get?_add (t : Tree) (kind : Kind) (span : Span) (id : Id) :
    (t.add kind span).get? id =
      if id = t.nextId then some { kind, span } else (t.get? id).map fun node =>
        if id ∈ kind.children then { node with parent? := some t.nextId } else node := by
  have hi : id.index = t.nodes.size ↔ id = t.nextId :=
    ⟨fun h => Id.ext h, fun h => by rw [h]; rfl⟩
  simp only [get?, add, Array.getElem?_push, size_adopt, getElem?_adopt, hi]

theorem kind?_add (t : Tree) (kind : Kind) (span : Span) (id : Id) :
    (t.add kind span).kind? id = if id = t.nextId then some kind else t.kind? id := by
  rw [kind?, kind?, get?_add]
  split
  case isTrue  => rfl
  case isFalse =>
    rw [Option.map_map]
    refine Option.map_congr fun node _ => ?_
    dsimp only [Function.comp]
    split <;> rfl

theorem span?_add (t : Tree) (kind : Kind) (span : Span) (id : Id) :
    (t.add kind span).span? id = if id = t.nextId then some span else t.span? id := by
  rw [span?, span?, get?_add]
  split
  case isTrue  => rfl
  case isFalse =>
    rw [Option.map_map]
    refine Option.map_congr fun node _ => ?_
    dsimp only [Function.comp]
    split <;> rfl

theorem get?_nextId (t : Tree) : t.get? t.nextId = none := by
  simp [get?, nextId, size]

theorem kind?_nextId (t : Tree) : t.kind? t.nextId = none := by
  rw [kind?, get?_nextId, Option.map_none]

theorem ids_add (t : Tree) (kind : Kind) (span : Span) :
    (t.add kind span).ids = t.ids ++ [t.nextId] := by
  rw [ids, ids, size_add, List.range_succ, List.map_append]
  rfl

theorem mem_ids_iff : id ∈ t.ids ↔ id.index < t.size := by
  refine List.mem_map.trans ⟨?_, fun h => ⟨id.index, List.mem_range.mpr h, rfl⟩⟩
  rintro ⟨i, hi, rfl⟩
  exact List.mem_range.mp hi

theorem nodup_ids (t : Tree) : t.ids.Nodup :=
  List.nodup_range.map fun _ _ h => congrArg Id.index h

theorem nextId_not_mem_ids (t : Tree) : t.nextId ∉ t.ids :=
  fun h => absurd (mem_ids_iff.mp h) (Nat.lt_irrefl _)

theorem mem_ids_of_mem_children (h : part ∈ t.children id) : id ∈ t.ids :=
  have ⟨_, hk, _⟩ := exists_kind?_of_mem_children h
  mem_ids_of_kind? hk

theorem children_add (t : Tree) (kind : Kind) (span : Span) (id : Id) :
    (t.add kind span).children id = if id = t.nextId then kind.children else t.children id := by
  rw [children, children, kind?_add]
  split <;> rfl

-- Later nodes change nothing about earlier ones but their parents.
structure Grows (t t' : Tree) : Prop where
  kind? : ∀ {id kind}, t.kind? id = some kind → t'.kind? id = some kind
  span? : ∀ {id span}, t.span? id = some span → t'.span? id = some span

namespace Grows

theorem refl : t.Grows t :=
  ⟨id, id⟩

theorem trans (h : t.Grows t') (h' : t'.Grows t'') : t.Grows t'' :=
  ⟨h'.kind? ∘ h.kind?, h'.span? ∘ h.span?⟩

theorem add (t : Tree) (kind : Kind) (span : Span) : t.Grows (t.add kind span) where
  kind? {id kind'} hk := by
    rw [kind?_add, if_neg ?_, hk]
    rintro rfl
    cases (kind?_nextId t).symm.trans hk
  span? {id span'} hs := by
    rw [span?_add, if_neg ?_, hs]
    rintro rfl
    rw [Tree.span?, get?_nextId] at hs
    cases hs

theorem any_kind? (h : t.Grows t') {p : Kind → Bool} (hp : (t.kind? id).any p) :
    (t'.kind? id).any p := by
  have ⟨kind, hk, hp⟩ := (Option.any_eq_true _ _).mp hp
  exact (Option.any_eq_true _ _).mpr ⟨kind, h.kind? hk, hp⟩

end Grows

-- Each node is listed once as a part, or is a root (1), the node that lists it is its parent (2),
-- and comes later (3).
structure Forest (t : Tree) (roots : List Id) : Prop where
  perm   : (t.ids.flatMap t.children ++ roots).Perm t.ids                 -- (1)
  parent : ∀ {id p}, t.parent? id = some p ↔ id ∈ t.children p            -- (2)
  below  : ∀ {id part}, part ∈ t.children id → part.index < id.index      -- (3)

namespace Forest

theorem empty : Tree.empty.Forest [] where
  perm   := .refl _
  parent := by simp [parent?, children, kind?, get?, Tree.empty]
  below  := by simp [children, kind?, get?, Tree.empty]

theorem reorder (h : t.Forest roots) (hp : roots.Perm roots') : t.Forest roots' where
  perm   := (hp.symm.append_left _).trans h.perm
  parent := h.parent
  below  := h.below

theorem nodup (h : t.Forest roots) : (t.ids.flatMap t.children ++ roots).Nodup :=
  h.perm.nodup_iff.mpr t.nodup_ids

theorem mem_ids_of_root (h : t.Forest roots) (hr : x ∈ roots) : x ∈ t.ids :=
  h.perm.subset (List.mem_append_right _ hr)

theorem not_listed (h : t.Forest roots) (hr : x ∈ roots) : x ∉ t.children id := by
  intro hx
  have hl := List.mem_flatMap.mpr ⟨id, mem_ids_of_mem_children hx, hx⟩
  exact (List.nodup_append.mp h.nodup).2.2 x hl x hr rfl

theorem parent?_add (h : t.Forest (kind.children ++ rest)) :
    (t.add kind span).parent? id = if id ∈ kind.children then some t.nextId else t.parent? id := by
  rw [parent?, get?_add]
  by_cases hn : id = t.nextId
  case pos =>
    subst hn
    have hc : t.nextId ∉ kind.children := fun hm =>
      t.nextId_not_mem_ids (h.mem_ids_of_root (List.mem_append_left _ hm))
    rw [if_pos rfl, if_neg hc, parent?, get?_nextId]
    rfl
  case neg =>
    rw [if_neg hn, parent?]
    split
    case isTrue hm =>
      have hi := mem_ids_iff.mp (h.mem_ids_of_root (List.mem_append_left _ hm))
      simp [get?, Array.getElem?_eq_getElem hi]
    case isFalse =>
      simp

-- A new node takes the first roots for its parts.
theorem add (h : t.Forest (kind.children ++ rest)) (span : Span) :
    (t.add kind span).Forest (t.nextId :: rest) where
  perm := by
    have hc : t.ids.flatMap (t.add kind span).children = t.ids.flatMap t.children :=
      List.flatMap_congr fun id hi => by
        have hn : id ≠ t.nextId := fun he => t.nextId_not_mem_ids (he ▸ hi)
        rw [children_add, if_neg hn]
    rw [ids_add, List.flatMap_append, hc, List.flatMap_singleton, children_add, if_pos rfl]
    have hp := h.perm.append_right [t.nextId]
    refine List.Perm.trans ?_ hp
    rw [List.append_assoc, List.append_assoc, List.append_assoc]
    exact .append_left _ (.append_left _ (List.perm_append_singleton _ _).symm)
  parent {id p} := by
    rw [h.parent?_add, children_add]
    split
    case isTrue hm =>
      have hn : id ∉ t.children p := h.not_listed (List.mem_append_left _ hm)
      by_cases hp : p = t.nextId
      case pos => simp [hp, hm]
      case neg => simp [hp, hn, Ne.symm hp]
    case isFalse hm =>
      by_cases hp : p = t.nextId
      case pos => simp [hp, hm, h.parent, children, kind?_nextId]
      case neg => rw [if_neg hp, h.parent]
  below {id part} hm := by
    rw [children_add] at hm
    split at hm
    case isTrue he =>
      subst he
      exact mem_ids_iff.mp (h.mem_ids_of_root (List.mem_append_left _ hm))
    case isFalse => exact h.below hm

theorem mem_listed (h : t.Forest roots) (hi : x ∈ t.ids) (hr : x ∉ roots) :
    ∃ p, x ∈ t.children p := by
  cases List.mem_append.mp (h.perm.symm.subset hi)
  case inr hm => exact absurd hm hr
  case inl hm =>
    have ⟨p, _, hx⟩ := List.mem_flatMap.mp hm
    exact ⟨p, hx⟩

theorem listsOnce (h : t.Forest roots) : t.ListsOnce :=
  (List.nodup_append.mp h.nodup).1

theorem parent_of_mem (h : t.Forest roots) (hx : x ∈ t.children p) : t.parent? x = some p :=
  h.parent.mpr hx

theorem parent_of_root (h : t.Forest roots) (hr : x ∈ roots) : t.parent? x = none :=
  Option.eq_none_iff_forall_ne_some.mpr fun _ hp => h.not_listed hr (h.parent.mp hp)

-- All of a tree with a sole root hangs below it.
theorem below_root {x : Id} (h : t.Forest [top]) (hi : x ∈ t.ids) : t.Below top x := by
  by_cases hx : x = top
  case pos => exact hx ▸ .top
  case neg =>
    have ⟨p, hp⟩ := h.mem_listed hi fun hm => hx (List.mem_singleton.mp hm)
    have hlt := h.below hp
    have hp' := mem_ids_of_mem_children hp
    have := mem_ids_iff.mp hp'
    exact (h.below_root hp').trans (below_part hp)
termination_by t.size - x.index

-- A sole root comes last.
theorem last (h : t.Forest [x]) : x.index + 1 = t.size := by
  have hx := mem_ids_iff.mp (h.mem_ids_of_root (.head _))
  refine Nat.le_antisymm hx (Nat.le_of_not_lt fun hlt => ?_)
  have hi : (⟨t.size - 1⟩ : Id) ∈ t.ids :=
    mem_ids_iff.mpr (Nat.sub_lt_of_pos_le Nat.one_pos (by omega))
  have hn : (⟨t.size - 1⟩ : Id) ∉ [x] := by
    rw [List.mem_singleton]
    intro he
    rw [← he] at hlt
    dsimp only at hlt
    omega
  have ⟨p, hp⟩ := h.mem_listed hi hn
  have hb := h.below hp
  have hs := mem_ids_iff.mp (mem_ids_of_mem_children hp)
  dsimp only at hb
  omega

end Forest
end RoutineFlow.Syntax.Tree
