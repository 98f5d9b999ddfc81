import RoutineFlow.Proofs.Statements

-- The syntax trees of programs are proper ones: a single tree, whose ranges nest and in which every
-- part is of a kind that may stand in its place.

namespace RoutineFlow

open Concrete (Node Source)

namespace Syntax

variable {kind : Kind} {part : Id} {role : Role}

namespace Kind

theorem exists_slot (h : part ∈ kind.children) : ∃ role, (part, role) ∈ kind.slots := by
  rw [← slots_map_fst] at h
  have ⟨⟨_, role⟩, hs, he⟩ := List.mem_map.mp h
  exact ⟨role, he ▸ hs⟩

-- Declarations list declarators, and nothing else does.
theorem isVarDecl_iff_of_slot (h : (part, role) ∈ kind.slots) :
    kind.isVarDecl ↔ role = .declarator := by
  cases kind <;> simp [slots] at h <;> grind [isVarDecl]

theorem isClass_of_slot (h : (part, Role.member) ∈ kind.slots) : kind.isClass := by
  cases kind <;> simp [slots] at h
  rfl

theorem operand_slot (h : part ∈ kind.operands) :
    (part, Role.value) ∈ kind.slots ∨ (part, Role.initial) ∈ kind.slots := by
  cases kind <;> simp [operands] at h <;> simp [slots] <;> grind

end Kind

namespace Role

theorem isDeclarator_iff_of_tolerates (h : role.tolerates kind) :
    kind.isDeclarator ↔ role = .declarator := by
  cases role <;> cases kind <;>
    simp_all [tolerates, Kind.isDeclarator, Kind.isStatement, Kind.isBody]

end Role

namespace Tree

variable {t : Tree} {id : Id}

-- The range of one node begins and ends within that of the other.
def encloses (t : Tree) (outer inner : Id) : Bool :=
  (t.span? outer).any fun span => (t.span? inner).any span.encloses

theorem encloses_iff {outer inner : Id} : t.encloses outer inner ↔
    ∃ span, t.span? outer = some span ∧ ∃ span', t.span? inner = some span' ∧
      span.encloses span' := by
  simp only [encloses, Option.any_eq_true]

-- Nodes are listed by their parents (1), bodies of routines are blocks, but no static ones (2), and
-- static blocks are parts of classes (3).
structure Housed (t : Tree) : Prop where
  parent  : ∀ {id p}, t.parent? id = some p ↔ id ∈ t.children p                       -- (1)
  bodies  : ∀ {id name body}, t.kind? id = some (.routine name (some body)) →         -- (2)
    ∃ statements, t.kind? body = some (.block statements false)
  statics : ∀ {id kind part}, t.kind? id = some kind → part ∈ kind.children →         -- (3)
    (t.kind? part).any Kind.isStaticBlock → kind.isClass

-- The last node is a program and the only root (1). All others are listed once, by their parent,
-- which comes later and whose range they stay in (2). Nothing else is listed (3). Bodies of
-- routines are blocks, but no static ones (4); declarators are what declarations list, and stand
-- nowhere else (5); static blocks are members of classes (6). Values are expressions (7), and so is
-- what opens a loop, unless it declares (8).
structure Proper (t : Tree) : Prop where
  root        : ∃ top items, t.kind? top = some (.program items) ∧                          -- (1)
    top.index + 1 = t.size ∧ t.parent? top = none
  parent      : ∀ {id}, id.index + 1 < t.size → ∃ p, t.parent? id = some p ∧                -- (2)
    id.index < p.index ∧ (t.children p).count id = 1 ∧ (∀ q, id ∈ t.children q → q = p) ∧
    t.encloses p id
  listed      : ∀ {id part}, part ∈ t.children id → part.index + 1 < t.size                 -- (3)
  bodies      : ∀ {id name body}, t.kind? id = some (.routine name (some body)) →           -- (4)
    ∃ statements, t.kind? body = some (.block statements false)
  declarators : ∀ {id kind part}, t.kind? id = some kind → part ∈ kind.children →           -- (5)
    ((t.kind? part).any Kind.isDeclarator ↔ kind.isVarDecl)
  statics     : ∀ {id kind part}, t.kind? id = some kind → part ∈ kind.children →           -- (6)
    (t.kind? part).any Kind.isStaticBlock → kind.isClass
  values      : ∀ {id kind part}, t.kind? id = some kind → (part, .value) ∈ kind.slots →    -- (7)
    ∃ value, t.kind? part = some value ∧ value.isStatement = false ∧ value.isVarDecl = false
  initials    : ∀ {id kind part}, t.kind? id = some kind → (part, .initial) ∈ kind.slots →  -- (8)
    t.IsExpression part

-- The analysis of a routine can rely on the tree.
theorem Proper.wellShaped (h : t.Proper) : t.WellShaped where
  below hk hp       := by
    have hl := h.listed (children_eq hk ▸ hp)
    have ⟨p, _, hlt, _, hu, _⟩ := h.parent hl
    exact hu _ (children_eq hk ▸ hp) ▸ hlt
  declarators hk hp := h.declarators hk hp
  operands hk hp    := by
    cases Kind.operand_slot hp
    case inl hs =>
      have ⟨value, hv, hn, _⟩ := h.values hk hs
      exact ⟨value, hv, hn⟩
    case inr hs => exact h.initials hk hs

end Tree
end Syntax

namespace Concrete

-- class A { static { go(); } }
def classWithBlock : Node :=
  row "program" 0 28 none [
    row "class_declaration" 0 28 none [
      row "identifier" 6 7 (some "name") [],
      row "class_body" 8 28 (some "body") [
        row "class_static_block" 10 26 none [
          row "statement_block" 17 26 (some "body") [
            row "expression_statement" 19 24 none [
              row "call_expression" 19 23 none [
                row "identifier" 19 21 (some "function") [],
                row "arguments" 21 23 (some "arguments") []]]]]]]]
where
  row (kind : String) (startByte endByte : Nat) (field? : Option String) (children : List Node) :
      Node :=
    .mk { kind, startByte, endByte, field? } children

end Concrete

namespace Lowering

open Syntax (Tree Kind Role Id)

variable {o : Origin} {t : Tree} {id part top : Id} {kind : Kind} {bytes : ByteArray} {root : Node}

-- A part stays in the range of the node that lists it.
theorem Growing.encloses {roots : List Id} (h : Growing ⟨root, .ofBytes bytes⟩ t roots)
    (hn : root.Nested) (hb : root.row.endByte ≤ bytes.size) (hk : t.kind? id = some kind)
    (hp : part ∈ kind.children) : t.encloses id part := by
  have ⟨n, hr, hd⟩ := h.drawn hk
  have ⟨m, hm, hs⟩ := hd.stems part hp
  have ⟨hs', he⟩ := hn.holds hr hm
  have hle := Nat.le_trans (hn.holds .self hr).2 hb
  exact Tree.encloses_iff.mpr
    ⟨_, hd.span, _, hs, Source.encloses_span hs' (hn.start_le (hr.trans hm)) he hle⟩

theorem Growing.slot {roots : List Id} {role : Role} (h : Growing o t roots)
    (hk : t.kind? id = some kind) (hs : (part, role) ∈ kind.slots) :
    ∃ kind', t.kind? part = some kind' ∧ o.Admits role kind' :=
  h.arranged hk _ hs

theorem Growing.declarators {roots : List Id} (h : Growing o t roots) (hk : t.kind? id = some kind)
    (hp : part ∈ kind.children) : (t.kind? part).any Kind.isDeclarator ↔ kind.isVarDecl := by
  have ⟨role, hs⟩ := Kind.exists_slot hp
  have ⟨kind, hk', ha⟩ := h.slot hk hs
  rw [hk', Option.any_some, Role.isDeclarator_iff_of_tolerates ha.tolerated,
    Kind.isVarDecl_iff_of_slot hs]

-- The analysis can rely on the tree, whatever its rows keep to.
theorem Growing.wellShaped {roots : List Id} (h : Growing o t roots) : t.WellShaped where
  below hk hp    := h.forest.below (Tree.children_eq hk ▸ hp)
  declarators    := h.declarators
  operands hk hp := by
    cases Kind.operand_slot hp
    case inl hs =>
      obtain ⟨kind, hk, ha⟩ := h.slot hk hs
      exact ⟨kind, hk, by simpa [Role.tolerates] using ha.tolerated⟩
    case inr hs =>
      obtain ⟨kind, hk, ha⟩ := h.slot hk hs
      exact ⟨kind, hk, by simpa [Role.tolerates] using ha.tolerated⟩

theorem Growing.housed {roots : List Id} (h : Growing o t roots) (hS : o.root.Sheltered) :
    t.Housed where
  parent               := h.forest.parent
  bodies {_ name body} hk := by
    have hs : (body, .body) ∈ (Kind.routine name (some body)).slots := .head _
    obtain ⟨kind, hk, ha⟩ := h.slot hk hs
    replace ha := ha.tolerated
    cases kind
    case block statements isStatic =>
      cases isStatic
      case false => exact ⟨statements, hk⟩
      case true  => cases ha
    all_goals cases ha
  statics hk hp hst    := by
    obtain ⟨role, hs⟩ := Kind.exists_slot hp
    obtain ⟨kind, hk', ha⟩ := h.slot hk hs
    rw [hk', Option.any_some] at hst
    exact Kind.isClass_of_slot (ha.sheltered hS hst ▸ hs)

theorem Growing.proper (h : Growing ⟨root, .ofBytes bytes⟩ t [top])
    (ht : t.kind? top = some (.program items)) (hn : root.Nested) (hG : root.Grammatical)
    (hb : root.row.endByte ≤ bytes.size) : t.Proper where
  root        := ⟨top, items, ht, h.forest.last, h.forest.parent_of_root (.head _)⟩
  parent {id} hi := by
    have hl := h.forest.last
    have hi' : id ∈ t.ids := Tree.mem_ids_iff.mpr (by omega)
    have hne : id ∉ [top] := by
      rw [List.mem_singleton]
      rintro rfl
      omega
    have ⟨p, hp⟩ := h.forest.mem_listed hi' hne
    have ⟨kind, hk, hc⟩ := Tree.exists_kind?_of_mem_children hp
    refine ⟨p, h.forest.parent_of_mem hp, h.forest.below hp, ?_, fun q hq => ?_, ?_⟩
    · rw [Tree.children_eq hk]
      exact List.count_eq_one_of_mem (h.forest.listsOnce.nodup_children hk) hc
    · exact Option.some.inj ((h.forest.parent_of_mem hq).symm.trans (h.forest.parent_of_mem hp))
    · exact h.encloses hn hb hk hc
  listed {id part} hp := by
    have hi := Tree.mem_ids_iff.mp (Tree.mem_ids_of_mem_children hp)
    have := h.forest.below hp
    omega
  bodies      := (h.housed hG.sheltered).bodies
  declarators := h.declarators
  statics     := (h.housed hG.sheltered).statics
  values hk hs := by
    have ⟨kind, hk, ha⟩ := h.slot hk hs
    have ⟨h₁, h₂⟩ := Bool.and_eq_true_iff.mp (ha.admitted hG)
    exact ⟨kind, hk, by simpa using h₁, by simpa using h₂⟩
  initials hk hs := by
    have ⟨kind, hk, ha⟩ := h.slot hk hs
    exact ⟨kind, hk, by simpa [Role.tolerates] using ha.tolerated⟩

-- Error-free rows whose ranges nest and that keep to the grammar make a proper tree.
theorem lower_proper (bytes : ByteArray) (root : Node) (he : root.row.hasError = false)
    (hn : root.Nested) (hb : root.row.endByte ≤ bytes.size) (hG : root.Grammatical) :
    ∃ t, lower (.ofBytes bytes) root = .ok t ∧ t.Proper := by
  have ⟨_, hg, _, ht⟩ := program_meets ⟨root, .ofBytes bytes⟩
  exact ⟨_, lower_eq_ok (o := ⟨root, .ofBytes bytes⟩) he, hg.proper ht hn hG hb⟩

theorem lower_proper_classWithBlock :
    ∃ t, lower (.ofString "class A \x7b static \x7b go(); \x7d \x7d") Concrete.classWithBlock =
      .ok t ∧ t.Proper :=
  lower_proper _ _ (by decide) (by decide +kernel) (by decide +kernel) (by decide +kernel)

end Lowering
end RoutineFlow
