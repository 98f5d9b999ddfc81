import Mathlib.Data.List.Induction
import Mathlib.Data.List.Pairwise
import RoutineFlow.Concrete.Source

-- Where the rows of a concrete syntax tree stand, and what can be asked of them: that their ranges
-- nest and follow each other, and that some rules of the grammar are kept. All of it is asked of
-- one row and those above it, so it can be decided.

namespace RoutineFlow

namespace Syntax.Span

-- The other range begins and ends within this one.
def encloses (outer inner : Span) : Bool :=
  !precedes inner.startLine inner.startColumn outer.startLine outer.startColumn &&
    !precedes outer.endLine outer.endColumn inner.endLine inner.endColumn

theorem encloses_iff {outer inner : Span} : outer.encloses inner ↔
    (outer.startLine < inner.startLine ∨
      outer.startLine = inner.startLine ∧ outer.startColumn ≤ inner.startColumn) ∧
    (inner.endLine < outer.endLine ∨
      inner.endLine = outer.endLine ∧ inner.endColumn ≤ outer.endColumn) := by
  simp [encloses, precedes]
  omega

theorem encloses_refl (span : Span) : span.encloses span := by
  simp [encloses_iff]

theorem encloses_trans {a b c : Span} (h : a.encloses b) (h' : b.encloses c) : a.encloses c := by
  rw [encloses_iff] at *
  omega

theorem contains_of_encloses {outer inner : Span} (h : outer.encloses inner)
    (hs : outer.startLine ≠ 0) (hc : inner.contains line column) : outer.contains line column := by
  rw [encloses_iff] at h
  rw [contains_iff] at *
  omega

end Syntax.Span

namespace Concrete

namespace Point

def before (p q : Point) : Prop :=
  p.row < q.row ∨ p.row = q.row ∧ p.column ≤ q.column

theorem before_refl (p : Point) : p.before p :=
  .inr ⟨rfl, Nat.le_refl _⟩

theorem before_trans {p q r : Point} (h : p.before q) (h' : q.before r) : p.before r := by
  unfold before at *
  omega

theorem before_step (p : Point) (byte : UInt8) : p.before (p.step byte) := by
  unfold before step
  split
  case isTrue  => exact .inl (Nat.lt_succ_self _)
  case isFalse => exact .inr ⟨rfl, Nat.le_succ _⟩

theorem before_foldl (p : Point) (bytes : List UInt8) : p.before (bytes.foldl step p) := by
  induction bytes generalizing p
  case nil            => exact before_refl p
  case cons byte _ ih => exact before_trans (before_step p byte) (ih _)

end Point

namespace Source

theorem getElem?_points (bytes : List UInt8) :
    let points := bytes.foldl
      (fun points byte => points.push ((points.back?.getD {}).step byte)) #[({} : Point)]
    points.size = bytes.length + 1 ∧
      ∀ i ≤ bytes.length, points[i]? = some ((bytes.take i).foldl Point.step {}) := by
  induction bytes using List.reverseRecOn
  case nil => exact ⟨rfl, fun i hi => by rw [Nat.eq_zero_of_le_zero hi]; rfl⟩
  case append_singleton bytes byte ih =>
    have ⟨hs, hp⟩ := ih
    rw [List.foldl_append, List.foldl_cons, List.foldl_nil, List.length_append,
      List.length_singleton]
    refine ⟨by rw [Array.size_push, hs], fun i hi => ?_⟩
    rw [Array.getElem?_push]
    split
    case isTrue he =>
      have hb := hp bytes.length (Nat.le_refl _)
      rw [List.take_length] at hb
      rw [Array.back?, hs, Nat.add_sub_cancel, hb, he, hs, List.take_of_length_le (by simp)]
      simp
    case isFalse he =>
      have hi : i ≤ bytes.length := by omega
      rw [hp i hi, List.take_append_of_le_length hi]

variable {bytes : ByteArray} {i j : Nat}

theorem pointAt_ofBytes (hi : i ≤ bytes.size) :
    (ofBytes bytes).pointAt i = (bytes.data.toList.take i).foldl Point.step {} := by
  have hp := (getElem?_points bytes.data.toList).2 i hi
  rw [pointAt, ofBytes, ← Array.foldl_toList, hp, Option.getD_some]

theorem pointAt_before (h : i ≤ j) (hj : j ≤ bytes.size) :
    ((ofBytes bytes).pointAt i).before ((ofBytes bytes).pointAt j) := by
  have ⟨k, hk⟩ := Nat.exists_eq_add_of_le h
  rw [pointAt_ofBytes (Nat.le_trans h hj), pointAt_ofBytes hj, hk, List.take_add, List.foldl_append]
  exact Point.before_foldl ..

-- A range within another stays within it when it is told in lines and columns.
theorem encloses_span {outer inner : Node} (hs : outer.row.startByte ≤ inner.row.startByte)
    (hr : inner.row.startByte ≤ inner.row.endByte) (he : inner.row.endByte ≤ outer.row.endByte)
    (hb : outer.row.endByte ≤ bytes.size) :
    ((ofBytes bytes).span outer).encloses ((ofBytes bytes).span inner) := by
  have h₁ := pointAt_before hs (Nat.le_trans hr (Nat.le_trans he hb))
  have h₂ := pointAt_before he hb
  simp only [Point.before] at h₁ h₂
  simp only [Syntax.Span.encloses_iff, span]
  omega

-- No position is in two ranges that follow each other.
theorem not_contains_span {n m : Node} (h : n.row.endByte ≤ m.row.startByte)
    (hb : m.row.startByte ≤ bytes.size) (hn : ((ofBytes bytes).span n).contains line column)
    (hm : ((ofBytes bytes).span m).contains line column) : False := by
  have hp := pointAt_before h hb
  simp only [Point.before] at hp
  simp only [Syntax.Span.contains_iff, span] at hn hm
  omega

end Source

-- A row and those above it, nearest first.
structure Standing where
  node  : Node
  above : List Node

namespace Node

-- A named row without errors.
def spanning (kind : String) (startByte endByte : Nat) (field? : Option String)
    (children : List Node) : Node :=
  mk { kind, startByte, endByte, field? } children

mutual

def standingsFrom (above : List Node) : Node → List Standing
  | mk row children =>
    ⟨mk row children, above⟩ :: standingsBelow (mk row children :: above) children

def standingsBelow (above : List Node) : List Node → List Standing
  | []      => []
  | n :: ns => n.standingsFrom above ++ standingsBelow above ns

end

-- All rows of a tree.
def standings (root : Node) : List Standing :=
  root.standingsFrom []

theorem standingsBelow_eq (above ns : List Node) :
    standingsBelow above ns = ns.flatMap (standingsFrom above) := by
  induction ns
  case nil          => rfl
  case cons n ns ih => rw [standingsBelow, ih, List.flatMap_cons]

theorem mem_standingsFrom {top : Node} {base : List Node} {s : Standing} :
    s ∈ top.standingsFrom base ↔
      s = ⟨top, base⟩ ∨ ∃ c ∈ top.children, s ∈ c.standingsFrom (top :: base) := by
  cases top
  rw [standingsFrom, standingsBelow_eq, List.mem_cons, List.mem_flatMap]
  rfl

theorem mem_standingsFrom_self (top : Node) (base : List Node) :
    ⟨top, base⟩ ∈ top.standingsFrom base :=
  mem_standingsFrom.mpr (.inl rfl)

theorem mem_standingsFrom_child {top n m : Node} {base above : List Node}
    (h : ⟨n, above⟩ ∈ top.standingsFrom base) (hm : m ∈ n.children) :
    ⟨m, n :: above⟩ ∈ top.standingsFrom base := by
  refine mem_standingsFrom.mpr (.inr ?_)
  cases mem_standingsFrom.mp h
  case inl he => cases he; exact ⟨m, hm, mem_standingsFrom_self ..⟩
  case inr h  =>
    have ⟨c, hc, h⟩ := h
    have := height_lt_of_mem hc
    exact ⟨c, hc, mem_standingsFrom_child h hm⟩
termination_by top.height

-- The rows at and below one.
inductive Holds (top : Node) : Node → Prop
  | self  : Holds top top
  | child : Holds top n → m ∈ n.children → Holds top m

variable {root top n m a b a' b' : Node}

theorem Holds.trans (h : top.Holds n) (h' : n.Holds m) : top.Holds m := by
  induction h'
  case self           => exact h
  case child hm ih    => exact ih.child hm

theorem Holds.exists_above (h : root.Holds n) : ∃ above, ⟨n, above⟩ ∈ root.standings := by
  induction h
  case self        => exact ⟨[], mem_standingsFrom_self ..⟩
  case child hm ih =>
    have ⟨above, h⟩ := ih
    exact ⟨_, mem_standingsFrom_child h hm⟩

-- Rows at or below two children of one row.
def Beside (root a b : Node) : Prop :=
  ∃ p q r, root.Holds p ∧ (List.Sublist [q, r] p.children ∨ List.Sublist [r, q] p.children) ∧
    q.Holds a ∧ r.Holds b

theorem mem_of_sublist_or {p q r : Node}
    (h : List.Sublist [q, r] p.children ∨ List.Sublist [r, q] p.children) :
    q ∈ p.children ∧ r ∈ p.children := by
  cases h
  case inl h => exact ⟨h.subset (.head _), h.subset (.tail _ (.head _))⟩
  case inr h => exact ⟨h.subset (.tail _ (.head _)), h.subset (.head _)⟩

theorem Beside.holds (h : root.Beside a b) : root.Holds a ∧ root.Holds b :=
  have ⟨_, _, _, hp, hs, ha, hb⟩ := h
  have ⟨hq, hr⟩ := mem_of_sublist_or hs
  ⟨(hp.child hq).trans ha, (hp.child hr).trans hb⟩

theorem Beside.symm (h : root.Beside a b) : root.Beside b a :=
  have ⟨p, q, r, hp, hs, ha, hb⟩ := h
  ⟨p, r, q, hp, hs.symm, hb, ha⟩

theorem Beside.below (h : root.Beside a b) (ha : a.Holds a') (hb : b.Holds b') :
    root.Beside a' b' :=
  have ⟨p, q, r, hp, hs, hq, hr⟩ := h
  ⟨p, q, r, hp, hs, hq.trans ha, hr.trans hb⟩

theorem Holds.children_beside (h : root.Holds n) : n.children.Pairwise root.Beside :=
  List.pairwise_iff_forall_sublist.mpr fun hs => ⟨n, _, _, h, .inl hs, .self, .self⟩

theorem Holds.beside_of_ne (h : root.Holds n) (ha : a ∈ n.children) (hb : b ∈ n.children)
    (hn : a ≠ b) : root.Beside a b := by
  have : Std.Symm root.Beside := ⟨fun _ _ => Beside.symm⟩
  exact h.children_beside.forall ha hb hn

-- A row at or below the child that plays a part.
def HoldsIn (n : Node) (part : String) (a : Node) : Prop :=
  ∃ q ∈ n.children, q.row.field? = some part ∧ q.Holds a

theorem HoldsIn.holds {part : String} (h : n.HoldsIn part a) : n.Holds a :=
  have ⟨_, hq, _, ha⟩ := h
  .trans (.child .self hq) ha

-- Different parts are played by different rows.
theorem HoldsIn.beside {part part' : String} (ha : n.HoldsIn part a) (hb : n.HoldsIn part' b)
    (hn : root.Holds n) (hp : part ≠ part') : root.Beside a b := by
  have ⟨q, hq, hf, ha⟩ := ha
  have ⟨r, hr, hf', hb⟩ := hb
  refine (hn.beside_of_ne hq hr fun he => hp ?_).below ha hb
  exact Option.some.inj (hf.symm.trans (he ▸ hf'))

end Node

namespace Cursor

variable {c d : Cursor} {root : Node} {part : String}

theorem mem_children_of_firstNamed? (h : c.firstNamed? = some d) : d ∈ c.children :=
  (List.mem_filter.mp (List.mem_of_head? h)).1

theorem mem_fieldAll : d ∈ c.fieldAll part ↔ d ∈ c.children ∧ d.node.row.field? = some part := by
  simp [fieldAll]

theorem mem_fieldAll_of_field? (h : c.field? part = some d) : d ∈ c.fieldAll part :=
  List.mem_of_head? h

theorem mem_children_of_field? (h : c.field? part = some d) : d ∈ c.children :=
  (mem_fieldAll.mp (mem_fieldAll_of_field? h)).1

theorem forall_mem_field? (c : Cursor) (part : String) : ∀ d ∈ c.field? part, d ∈ c.children :=
  fun _ => mem_children_of_field?

theorem field?_of_field? (h : c.field? part = some d) : d.node.row.field? = some part :=
  (mem_fieldAll.mp (mem_fieldAll_of_field? h)).2

theorem holdsIn_of_field? (h : c.field? part = some d) : c.node.HoldsIn part d.node :=
  ⟨d.node, node_mem_of_mem_children (mem_children_of_field? h), field?_of_field? h, .self⟩

theorem holds_of_mem_children (h : d ∈ c.children) : c.node.Holds d.node :=
  .child .self (node_mem_of_mem_children h)

theorem children_beside (h : root.Holds c.node) :
    c.children.Pairwise fun a b => root.Beside a.node b.node :=
  List.pairwise_map.mpr h.children_beside

end Cursor

namespace Rule

def isClass : Rule → Bool
  | classDeclaration | classExpression => true
  | _                                  => false

-- Statements that are told in clauses, which are no statements.
def hasClauses : Rule → Bool
  | tryStatement | switchStatement => true
  | _                              => false

end Rule

namespace Standing

-- The range lies within that of the row above.
def Fits (s : Standing) : Prop :=
  s.node.row.startByte ≤ s.node.row.endByte ∧
  ∀ outer ∈ s.above.head?,
    outer.row.startByte ≤ s.node.row.startByte ∧ s.node.row.endByte ≤ outer.row.endByte

-- The rows right below follow each other.
def Ordered (s : Standing) : Prop :=
  s.node.children.Pairwise fun a b => a.row.endByte ≤ b.row.startByte

-- Right above is the body of a class, and the class is no clause of a statement. No grammar has a
-- class right below a `try` or a `switch`. What is there would be taken for a clause, whatever it
-- is called, and a static block in it would become a statement that is no member of a class. So
-- these trees are left out.
def inClassBody (s : Standing) : Bool :=
  match s.above with
  | body :: cls :: outer =>
    body.kind = "class_body" && cls.rule.isClass && outer.head?.all (!·.rule.hasClauses)
  | _ => false

theorem inClassBody_iff {s : Standing} : s.inClassBody ↔ ∃ body cls outer,
    s.above = body :: cls :: outer ∧ body.kind = "class_body" ∧ cls.rule.isClass ∧
    ∀ n ∈ outer.head?, n.rule.hasClauses = false := by
  have ⟨node, above⟩ := s
  unfold inClassBody
  split
  case h_1 he => simp_all [Option.all_eq_true, and_assoc]
  case h_2 hn =>
    refine ⟨nofun, ?_⟩
    rintro ⟨body, cls, outer, he, _⟩
    exact absurd he (hn body cls outer)

-- A static block stands in the body of a class.
def Sheltered (s : Standing) : Prop :=
  s.node.rule = .staticBlock → s.inClassBody

-- Static blocks stand in bodies of classes (1). Declarations are no parts of expressions, nor of
-- the header of a loop but for its initializer (2).
structure Grammatical (s : Standing) : Prop where
  static      : s.node.rule = .staticBlock → s.inClassBody                             -- (1)
  declaration : s.node.rule = .declaration → ∀ outer ∈ s.above.head?,                  -- (2)
    outer.rule ≠ .sequence ∧ outer.rule ≠ .expressionStatement ∧
    (outer.rule = .forStatement →
      s.node.row.field? ≠ some "condition" ∧ s.node.row.field? ≠ some "increment")

instance {s : Standing} : Decidable s.Fits :=
  inferInstanceAs (Decidable (_ ∧ _))

instance {s : Standing} : Decidable s.Ordered :=
  inferInstanceAs (Decidable (List.Pairwise _ _))

instance {s : Standing} : Decidable s.Sheltered :=
  inferInstanceAs (Decidable (_ → _))

theorem grammatical_iff {s : Standing} : s.Grammatical ↔
    (s.node.rule = .staticBlock → s.inClassBody) ∧
    (s.node.rule = .declaration → ∀ outer ∈ s.above.head?,
      outer.rule ≠ .sequence ∧ outer.rule ≠ .expressionStatement ∧
      (outer.rule = .forStatement →
        s.node.row.field? ≠ some "condition" ∧ s.node.row.field? ≠ some "increment")) :=
  ⟨fun h => ⟨h.static, h.declaration⟩, fun h => ⟨h.1, h.2⟩⟩

instance {s : Standing} : Decidable s.Grammatical :=
  decidable_of_iff' _ grammatical_iff

end Standing

namespace Node

variable {root n m a b : Node}

def Nested (root : Node) : Prop :=
  ∀ s ∈ root.standings, s.Fits

def Ordered (root : Node) : Prop :=
  ∀ s ∈ root.standings, s.Ordered

def Sheltered (root : Node) : Prop :=
  ∀ s ∈ root.standings, s.Sheltered

def Grammatical (root : Node) : Prop :=
  ∀ s ∈ root.standings, s.Grammatical

instance : Decidable root.Nested :=
  inferInstanceAs (Decidable (∀ s ∈ root.standings, s.Fits))

instance : Decidable root.Ordered :=
  inferInstanceAs (Decidable (∀ s ∈ root.standings, s.Ordered))

instance : Decidable root.Sheltered :=
  inferInstanceAs (Decidable (∀ s ∈ root.standings, s.Sheltered))

instance : Decidable root.Grammatical :=
  inferInstanceAs (Decidable (∀ s ∈ root.standings, s.Grammatical))

-- A `try` whose handler is a class.
def classAsHandler : Node :=
  .spanning "program" 0 40 none [
    .spanning "try_statement" 0 40 none [
      .spanning "statement_block" 4 6 (some "body") [],
      .spanning "class_declaration" 7 40 (some "handler") [
        .spanning "class_body" 15 40 (some "body") [
          .spanning "class_static_block" 17 38 none []]]]]

example : ¬classAsHandler.Sheltered := by decide +kernel

theorem Grammatical.sheltered (h : root.Grammatical) : root.Sheltered :=
  fun s hs => (h s hs).static

theorem Nested.child (h : root.Nested) (hn : root.Holds n) (hm : m ∈ n.children) :
    n.row.startByte ≤ m.row.startByte ∧ m.row.endByte ≤ n.row.endByte :=
  have ⟨_, hs⟩ := hn.exists_above
  (h _ (mem_standingsFrom_child hs hm)).2 n rfl

theorem Nested.start_le (h : root.Nested) (hn : root.Holds n) : n.row.startByte ≤ n.row.endByte :=
  have ⟨_, hs⟩ := hn.exists_above
  (h _ hs).1

theorem Nested.holds (h : root.Nested) (hn : root.Holds n) (hm : n.Holds m) :
    n.row.startByte ≤ m.row.startByte ∧ m.row.endByte ≤ n.row.endByte := by
  induction hm
  case self => exact ⟨Nat.le_refl _, Nat.le_refl _⟩
  case child hk hm ih =>
    have ⟨hs, he⟩ := h.child (hn.trans hk) hm
    exact ⟨Nat.le_trans ih.1 hs, Nat.le_trans he ih.2⟩

-- Only bodies of classes hold static blocks.
theorem Sheltered.not_static (h : root.Sheltered) (hn : root.Holds n) (hm : m ∈ n.children)
    (hk : n.kind ≠ "class_body") : m.rule ≠ .staticBlock := by
  intro hr
  have ⟨_, hs⟩ := hn.exists_above
  have hb := h _ (mem_standingsFrom_child hs hm) hr
  have ⟨_, _, _, he, hk', _⟩ := Standing.inClassBody_iff.mp hb
  cases he
  exact hk hk'

-- The bodies of classes stand right below them.
theorem Sheltered.not_static_below (h : root.Sheltered) (hn : root.Holds n)
    (hm : m ∈ n.children) (ha : a ∈ m.children) (hc : n.rule.isClass = false) :
    a.rule ≠ .staticBlock := by
  intro hr
  have ⟨_, hs⟩ := hn.exists_above
  have hb := h _ (mem_standingsFrom_child (mem_standingsFrom_child hs hm) ha) hr
  have ⟨_, _, _, he, _, hc', _⟩ := Standing.inClassBody_iff.mp hb
  cases he
  cases hc.symm.trans hc'

-- What a clause holds is no body of a class.
theorem Sheltered.not_static_clause (h : root.Sheltered) (hn : root.Holds n)
    (hm : m ∈ n.children) (ha : a ∈ m.children) (hb : b ∈ a.children) (hc : n.rule.hasClauses) :
    b.rule ≠ .staticBlock := by
  intro hr
  have ⟨_, hs⟩ := hn.exists_above
  have hs := mem_standingsFrom_child (mem_standingsFrom_child (mem_standingsFrom_child hs hm) ha) hb
  have ⟨_, _, _, he, _, _, ho⟩ := Standing.inClassBody_iff.mp (h _ hs hr)
  cases he
  cases hc.symm.trans (ho n rfl)

theorem Sheltered.not_static_root (h : root.Sheltered) (hm : m ∈ root.children) :
    m.rule ≠ .staticBlock := by
  intro hr
  have hb := h _ (mem_standingsFrom_child (mem_standingsFrom_self root []) hm) hr
  have ⟨_, _, _, he, _⟩ := Standing.inClassBody_iff.mp hb
  cases he

theorem Grammatical.not_declaration (h : root.Grammatical) (hn : root.Holds n)
    (hm : m ∈ n.children) (hr : n.rule = .sequence ∨ n.rule = .expressionStatement) :
    m.rule ≠ .declaration := by
  intro hd
  have ⟨above, hs⟩ := hn.exists_above
  have ⟨h₁, h₂, _⟩ := (h _ (mem_standingsFrom_child hs hm)).declaration hd n rfl
  exact hr.elim h₁ h₂

theorem Grammatical.not_declaration_header (h : root.Grammatical) (hn : root.Holds n)
    (hm : m ∈ n.children) (hr : n.rule = .forStatement)
    (hf : m.row.field? = some "condition" ∨ m.row.field? = some "increment") :
    m.rule ≠ .declaration := by
  intro hd
  have ⟨above, hs⟩ := hn.exists_above
  have ⟨_, _, hh⟩ := (h _ (mem_standingsFrom_child hs hm)).declaration hd n rfl
  have ⟨h₁, h₂⟩ := hh hr
  exact hf.elim h₁ h₂

theorem Ordered.le (ho : root.Ordered) (hn : root.Holds n)
    (hs : List.Sublist [a, b] n.children) : a.row.endByte ≤ b.row.startByte :=
  have ⟨_, hn⟩ := hn.exists_above
  List.pairwise_iff_forall_sublist.mp (ho _ hn) hs

-- Rows side by side do not overlap.
theorem Beside.apart (h : root.Beside a b) (hr : root.Nested) (ho : root.Ordered) :
    a.row.endByte ≤ b.row.startByte ∨ b.row.endByte ≤ a.row.startByte := by
  have ⟨p, q, r, hp, hs, hq, hr'⟩ := h
  have ⟨hmq, hmr⟩ := mem_of_sublist_or hs
  have ha := hr.holds (hp.child hmq) hq
  have hb := hr.holds (hp.child hmr) hr'
  cases hs
  case inl hs => exact .inl (Nat.le_trans ha.2 (Nat.le_trans (ho.le hp hs) hb.1))
  case inr hs => exact .inr (Nat.le_trans hb.2 (Nat.le_trans (ho.le hp hs) ha.1))

end Node
end Concrete
end RoutineFlow
