import RoutineFlow.Proofs.Proper

-- The node that is found at a position of a text. It is the innermost one that covers the position,
-- but for nodes that are hidden: a comma has the range of the whole row, so it is taken for the
-- parts that come after it, and so is what stands for an absent part.

namespace RoutineFlow

open Concrete (Node Source)

namespace Syntax.Tree

variable {t : Tree} {id part x y : Id} {line column : Nat}

-- Both are at or below parts of one node, that of `x` first, and it was added with all of the range
-- of the node.
def Hides (t : Tree) (x y : Id) : Prop :=
  ∃ id first second, [first, second].Sublist (t.children id) ∧ t.Below first x ∧
    t.Below second y ∧ (t.kind? first).any Kind.isFiller ∧ t.span? first = t.span? id

-- What is found at a position: nothing where no node covers it, or else a node that does, and that
-- lies in all others that do but for those it hides.
def Finds (t : Tree) (line column : Nat) : Option Id → Prop
  | none   => ∀ y, ¬t.covers line column y
  | some x => t.covers line column x ∧
      ∀ y, t.covers line column y → t.encloses y x ∨ t.Hides x y

theorem exists_kind?_of_span? (hs : t.span? id = some span) : ∃ kind, t.kind? id = some kind :=
  have ⟨node, hn, _⟩ := Option.map_eq_some_iff.mp hs
  ⟨node.kind, by rw [kind?, hn, Option.map_some]⟩

theorem covers_iff :
    t.covers line column id ↔ ∃ span, t.span? id = some span ∧ span.contains line column :=
  Option.any_eq_true _ _

theorem exists_kind?_of_covers (hc : t.covers line column id) : ∃ kind, t.kind? id = some kind :=
  have ⟨_, hs, _⟩ := covers_iff.mp hc
  exists_kind?_of_span? hs

-- The walk goes on with the first part around the position, if there is one.
theorem descend_cases (line column : Nat) (hb : ∀ part ∈ t.children id, part.index < id.index) :
    (t.descend line column id = id ∧ ∀ part ∈ t.children id, ¬t.covers line column part) ∨
    ∃ before part after, t.children id = before ++ part :: after ∧
      (∀ other ∈ before, ¬t.covers line column other) ∧ t.covers line column part ∧
      t.descend line column id = t.descend line column part := by
  rw [descend]
  split
  case h_1 hf =>
    refine .inl ⟨rfl, fun part hp hc => List.find?_eq_none.mp hf part hp ?_⟩
    exact Bool.and_eq_true_iff.mpr ⟨decide_eq_true (hb part hp), hc⟩
  case h_2 part hf =>
    obtain ⟨hc, before, after, he, hn⟩ := List.find?_eq_some_iff_append.mp hf
    have he : t.children id = before ++ part :: after := he
    obtain ⟨_, hc⟩ := Bool.and_eq_true_iff.mp hc
    refine .inr ⟨before, part, after, he, fun other hm hc => ?_, hc, rfl⟩
    have hlt := hb other (he ▸ List.mem_append_left _ hm)
    simpa [hlt, hc] using hn other hm

end Syntax.Tree

namespace Concrete

-- a, b, c;
def threeInSequence : Node :=
  node "program" true 0 8 [
    node "expression_statement" true 0 8 [
      node "sequence_expression" true 0 7 [
        node "identifier" true 0 1 [],
        node "," false 1 2 [],
        node "identifier" true 3 4 [],
        node "," false 4 5 [],
        node "identifier" true 6 7 []],
      node ";" false 7 8 []]]
where
  node (kind : String) (named : Bool) (startByte endByte : Nat) (children : List Node) : Node :=
    .mk { kind, named, startByte, endByte } children

end Concrete

namespace Lowering

open Syntax (Tree Kind Id)

variable {o : Origin} {t : Tree} {roots : List Id} {bytes : ByteArray} {root n : Node}
  {id x y d top : Id} {line column : Nat}

section

variable (h : Growing ⟨root, .ofBytes bytes⟩ t roots) (hn : root.Nested)
  (hb : root.row.endByte ≤ bytes.size)
include h hn hb

theorem Growing.encloses_below (hx : t.Below id x) (hk : t.kind? x = some kind) :
    t.encloses id x := by
  induction hx generalizing kind
  case top =>
    have ⟨_, _, hd⟩ := h.drawn hk
    exact Tree.encloses_iff.mpr ⟨_, hd.span, _, hd.span, Syntax.Span.encloses_refl _⟩
  case part hi hp ih =>
    have ⟨outer, ho, _, hs, he⟩ := Tree.encloses_iff.mp (ih hi)
    have ⟨_, hs', inner, hi, he'⟩ := Tree.encloses_iff.mp (h.encloses hn hb hi hp)
    cases hs.symm.trans hs'
    exact Tree.encloses_iff.mpr ⟨outer, ho, inner, hi, Syntax.Span.encloses_trans he he'⟩

theorem Growing.covers_above (hx : t.Below id x) (hc : t.covers line column x) :
    t.covers line column id := by
  have ⟨_, hk⟩ := Tree.exists_kind?_of_covers hc
  have ⟨inner, hs, hc⟩ := Tree.covers_iff.mp hc
  have ⟨outer, ho, _, hs', he⟩ := Tree.encloses_iff.mp (h.encloses_below hn hb hx hk)
  cases hs.symm.trans hs'
  have ⟨_, hk⟩ := Tree.exists_kind?_of_span? ho
  have ⟨_, _, hd⟩ := h.drawn hk
  cases ho.symm.trans hd.span
  exact Tree.covers_iff.mpr ⟨_, ho, Syntax.Span.contains_of_encloses he (Nat.succ_ne_zero _) hc⟩

variable (ho : root.Ordered)
include ho

omit h in
-- No position is in two rows side by side.
theorem Apart.not_both (ha : Apart ⟨root, .ofBytes bytes⟩ t x y) (hx : t.covers line column x)
    (hy : t.covers line column y) : False := by
  have ⟨a, b, hs, hax, hby⟩ := ha
  have ⟨_, hx, hcx⟩ := Tree.covers_iff.mp hx
  have ⟨_, hy, hcy⟩ := Tree.covers_iff.mp hy
  cases hx.symm.trans hax
  cases hy.symm.trans hby
  have start_le {c : Node} (hc : root.Holds c) : c.row.startByte ≤ bytes.size :=
    Nat.le_trans (hn.start_le hc) (Nat.le_trans (hn.holds .self hc).2 hb)
  cases hs.apart hn ho
  case inl hle => exact Source.not_contains_span hle (start_le hs.holds.2) hcx hcy
  case inr hle => exact Source.not_contains_span hle (start_le hs.holds.1) hcy hcx

-- What covers a position of `x` at or below a later part was added, if it is not hidden.
theorem Growing.span_behind (hd : Behind ⟨root, .ofBytes bytes⟩ t n x d)
    (hx : t.covers line column x) (hy : t.Below d y) (hc : t.covers line column y) :
    t.span? y = some (Source.span (.ofBytes bytes) n) := by
  induction hd
  case apart ha =>
    cases ha.not_both hn hb ho hx (h.covers_above hn hb hy hc)
  case missing hk hs =>
    cases hy.eq_or_part
    case inl he => exact he ▸ hs
    case inr hp =>
      have ⟨_, hp, _⟩ := hp
      rw [Tree.children_eq hk] at hp
      cases hp
  case comma l r _ hk hs _ _ hl hr =>
    cases hy.eq_or_part
    case inl he => exact he ▸ hs
    case inr hp =>
      have ⟨_, hp, hy⟩ := hp
      rw [Tree.children_eq hk] at hp
      cases List.mem_pair.mp hp
      case inl he => exact hl (he ▸ hy)
      case inr he => exact hr (he ▸ hy)

-- What is below a part that comes after the first one around the position.
theorem Growing.encloses_or_hides {first second : Id} (hp : [first, second].Sublist (t.children id))
    (hf : t.covers line column first) (hx : t.Below first x) (hcx : t.covers line column x)
    (hy : t.Below second y) (hcy : t.covers line column y) : t.encloses y x ∨ t.Hides x y := by
  have hm : first ∈ t.children id := hp.subset (.head _)
  have ⟨_, hk, _⟩ := Tree.exists_kind?_of_mem_children hm
  have ⟨_, hkx⟩ := Tree.exists_kind?_of_covers hcx
  have ⟨n, _, hd⟩ := h.drawn hk
  cases List.pairwise_iff_forall_sublist.mp hd.clear (Tree.children_eq hk ▸ hp)
  case inl hs =>
    exact .inr ⟨id, first, second, hp, hx, hy, hs.2, hs.1.trans hd.span.symm⟩
  case inr hs =>
    -- The node has the range of `y`, so `x` lies in `y` as it does in the node.
    have hs := h.span_behind hn hb ho hs hf hy hcy
    rw [Tree.encloses, hs, ← hd.span]
    exact .inl (h.encloses_below hn hb ((Tree.below_part hm).trans hx) hkx)

-- The walk down ends at the innermost node below its start.
theorem Growing.descend_innermost {id : Id} (hc : t.covers line column id) :
    ∃ x, t.descend line column id = x ∧ t.Below id x ∧ t.covers line column x ∧
      ∀ y, t.Below id y → t.covers line column y → t.encloses y x ∨ t.Hides x y := by
  have ⟨_, hk⟩ := Tree.exists_kind?_of_covers hc
  have hlt : ∀ part ∈ t.children id, part.index < id.index := fun _ => h.forest.below
  cases Tree.descend_cases line column hlt
  case inl hd =>
    have ⟨he, hd⟩ := hd
    refine ⟨id, he, .top, hc, fun y hy hcy => ?_⟩
    obtain rfl | ⟨part, hp, hy⟩ := hy.eq_or_part
    · exact .inl (h.encloses_below hn hb .top hk)
    · exact absurd (h.covers_above hn hb hy hcy) (hd part hp)
  case inr hd =>
    have ⟨before, first, after, he, hd, hcf, hw⟩ := hd
    have hf : first ∈ t.children id := he ▸ List.mem_append_right _ (.head _)
    have := hlt first hf
    have ⟨x, hwx, hx, hcx, hin⟩ := Growing.descend_innermost hcf
    have hx' : t.Below id x := (Tree.below_part hf).trans hx
    have ⟨_, hkx⟩ := Tree.exists_kind?_of_covers hcx
    refine ⟨x, hw.trans hwx, hx', hcx, fun y hy hcy => ?_⟩
    obtain rfl | ⟨second, hp, hy⟩ := hy.eq_or_part
    · exact .inl (h.encloses_below hn hb hx' hkx)
    rw [he, List.mem_append, List.mem_cons] at hp
    -- Parts before the one gone into do not cover the position.
    obtain hp | rfl | hp := hp
    · exact absurd (h.covers_above hn hb hy hcy) (hd second hp)
    · exact hin y hy hcy
    have hs : [first, second].Sublist (t.children id) :=
      he ▸ .trans (.cons_cons _ (List.singleton_sublist.mpr hp)) (List.sublist_append_right ..)
    exact h.encloses_or_hides hn hb ho hs hcf hx hcx hy hcy
termination_by id.index

end

-- The walk starts at the only root.
theorem Growing.nodeAt?_eq (h : Growing o t [top]) (line column : Nat) :
    t.nodeAt? line column =
      if t.covers line column top then some (t.descend line column top) else none := by
  have hp := h.forest.parent_of_root (.head _)
  have ht := h.forest.mem_ids_of_root (.head _)
  have heq {id : Id} (hi : id ∈ t.ids) (hn : t.parent? id = none) : id = top := by
    refine Classical.byContradiction fun hne => ?_
    have ⟨p, hp⟩ := h.forest.mem_listed hi fun hm => hne (List.mem_singleton.mp hm)
    cases hn.symm.trans (h.forest.parent_of_mem hp)
  unfold Tree.nodeAt?
  cases hf : t.ids.find? fun id => (t.parent? id).isNone && t.covers line column id
  case none =>
    have hc := List.find?_eq_none.mp hf top ht
    rw [hp, Option.isNone_none, Bool.true_and] at hc
    rw [if_neg hc, Option.map_none]
  case some id =>
    have hs := List.find?_some hf
    have ⟨hn, hc⟩ := Bool.and_eq_true_iff.mp hs
    cases heq (List.mem_of_find?_eq_some hf) (Option.isNone_iff_eq_none.mp hn)
    rw [if_pos hc, Option.map_some]

theorem Growing.finds (h : Growing ⟨root, .ofBytes bytes⟩ t [top]) (hn : root.Nested)
    (hb : root.row.endByte ≤ bytes.size) (ho : root.Ordered) (line column : Nat) :
    t.Finds line column (t.nodeAt? line column) := by
  have below {y : Id} (hc : t.covers line column y) : t.Below top y := by
    have ⟨_, hk⟩ := Tree.exists_kind?_of_covers hc
    exact h.forest.below_root (Tree.mem_ids_of_kind? hk)
  rw [h.nodeAt?_eq]
  split
  case isFalse hc => exact fun y hy => hc (h.covers_above hn hb (below hy) hy)
  case isTrue hc  =>
    have ⟨x, hw, _, hx, hin⟩ := h.descend_innermost hn hb ho hc
    rw [hw]
    exact ⟨hx, fun y hy => hin y (below hy) hy⟩

-- In the tree of rows whose ranges nest and follow each other, the innermost node that covers a
-- position is found, unless it is hidden.
theorem lower_nodeAt? (bytes : ByteArray) (root : Node) (he : root.row.hasError = false)
    (hn : root.Nested) (hb : root.row.endByte ≤ bytes.size) (ho : root.Ordered) :
    ∃ t, lower (.ofBytes bytes) root = .ok t ∧
      ∀ line column, t.Finds line column (t.nodeAt? line column) := by
  have ⟨_, h, _⟩ := program_meets ⟨root, .ofBytes bytes⟩
  exact ⟨_, lower_eq_ok (o := ⟨root, .ofBytes bytes⟩) he, h.finds hn hb ho⟩

theorem lower_nodeAt?_sequence :
    ∃ t, lower (.ofString "a, b, c;") Concrete.threeInSequence = .ok t ∧
      ∀ line column, t.Finds line column (t.nodeAt? line column) :=
  lower_nodeAt? _ _ (by decide) (by decide +kernel) (by decide +kernel) (by decide +kernel)

-- The last identifier is hidden by the comma before it.
theorem lower_nodeAt?_hides :
    Concrete.threeInSequence.row.hasError = false ∧ Concrete.threeInSequence.Nested ∧
    Concrete.threeInSequence.Ordered ∧
    ∃ t x y, lower (.ofString "a, b, c;") Concrete.threeInSequence = .ok t ∧
      t.nodeAt? 1 7 = some x ∧ t.covers 1 7 y ∧ t.encloses x y ∧ ¬t.encloses y x := by
  refine ⟨by decide, by decide +kernel, by decide +kernel, ?_⟩
  refine ⟨_, ⟨3⟩, ⟨2⟩, lower_eq_ok (o := ⟨Concrete.threeInSequence, _⟩) rfl, ?_⟩
  decide +kernel

end Lowering
end RoutineFlow
