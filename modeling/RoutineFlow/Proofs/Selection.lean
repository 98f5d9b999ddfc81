import RoutineFlow.Command.Report
import RoutineFlow.Proofs.Innermost
import RoutineFlow.Proofs.Routines

-- Which routines of a program are selected: all that have a body and the name that is asked for, or
-- of these an innermost one on a line. Of routines on the same lines the one that was added first
-- is taken, and inner routines are added before outer ones.

namespace RoutineFlow

namespace Syntax.Tree

variable {t : Tree} {roots : List Id} {a x y : Id} {name : String} {line : Nat}

theorem mem_routines_iff :
    (x, name) ∈ t.routines ↔ ∃ body?, t.kind? x = some (.routine name body?) := by
  rw [routines, List.mem_filterMap]
  constructor
  case mp  =>
    rintro ⟨id, _, he⟩
    split at he
    case h_1 hk => cases he; exact ⟨_, hk⟩
    case h_2    => cases he
  case mpr =>
    rintro ⟨body?, hk⟩
    exact ⟨x, mem_ids_of_kind? hk, by rw [hk]⟩

theorem exists_span?_of_kind? {kind : Kind} (hk : t.kind? x = some kind) :
    ∃ span, t.span? x = some span :=
  have ⟨node, hn, _⟩ := Option.map_eq_some_iff.mp hk
  ⟨node.span, by rw [span?, hn, Option.map_some]⟩

theorem pairwise_ids (t : Tree) : t.ids.Pairwise (·.index < ·.index) :=
  List.pairwise_map.mpr List.pairwise_lt_range

-- All that is below a node comes before it.
theorem Forest.eq_or_lt (h : t.Forest roots) (hx : t.Below a x) : x = a ∨ x.index < a.index := by
  induction hx
  case top                => exact .inl rfl
  case part id part kind _ hk hp ih =>
    have hlt : part.index < id.index := h.below (children_eq hk ▸ hp)
    cases ih
    case inl he => exact .inr (he ▸ hlt)
    case inr hl => exact .inr (Nat.lt_trans hlt hl)

-- The node has a part of the line in its range.
def IsOn (t : Tree) (line : Nat) (id : Id) : Prop :=
  ∃ span, t.span? id = some span ∧ span.startLine ≤ line ∧ line ≤ span.endLine

-- The number of lines that the range of a node takes up.
def lineCount (t : Tree) (id : Id) : Nat :=
  (t.span? id).elim 0 fun span => span.endLine + 1 - span.startLine

theorem lineCount_le (h : t.encloses x y) : t.lineCount y ≤ t.lineCount x := by
  have ⟨outer, hx, inner, hy, he⟩ := encloses_iff.mp h
  rw [Span.encloses_iff] at he
  rw [lineCount, lineCount, hx, hy, Option.elim_some, Option.elim_some]
  omega

end Syntax.Tree

namespace Command

open Syntax (Tree)

variable {t : Tree} {name? : Option String} {line extent : Nat} {id x y : Syntax.Id}
  {c d best : Nat × Syntax.Id} {candidates : List (Nat × Syntax.Id)}

theorem tighter_iff : tighter c d ↔ c.1 < d.1 ∨ c.1 = d.1 ∧ c.2.index < d.2.index := by
  simp [tighter]

theorem foldl_tightest (candidates : List (Nat × Syntax.Id)) (best : Nat × Syntax.Id) :
    ∃ c ∈ best :: candidates,
      candidates.foldl
        (fun best? c => some (best?.elim c fun best => if tighter c best then c else best))
        (some best) = some c ∧
      ∀ d ∈ best :: candidates, ¬tighter d c := by
  induction candidates generalizing best
  case nil             =>
    refine ⟨best, .head _, rfl, List.forall_mem_singleton.mpr ?_⟩
    simp [tighter_iff]
  case cons next _ ih  =>
    have ⟨c, hc, he, hle⟩ := ih (if tighter next best then next else best)
    rw [List.forall_mem_cons] at hle
    refine ⟨c, ?_, he, ?_⟩
    · cases hc
      case head    => split <;> simp
      case tail hc => exact .tail _ (.tail _ hc)
    · simp only [List.forall_mem_cons]
      refine ⟨?_, ?_, hle.2⟩
      all_goals
        have hle := hle.1
        split at hle
        all_goals
          simp only [tighter_iff] at *
          omega

theorem tightest?_eq_none_iff : tightest? candidates = none ↔ candidates = [] := by
  cases candidates
  case nil             => simp [tightest?]
  case cons best rest  =>
    have ⟨c, _, he, _⟩ := foldl_tightest rest best
    refine ⟨fun hn => ?_, nofun⟩
    cases he.symm.trans hn

theorem tightest?_eq_some (h : tightest? candidates = some c) :
    c ∈ candidates ∧ ∀ d ∈ candidates, ¬tighter d c := by
  cases candidates
  case nil            => cases h
  case cons best rest =>
    have ⟨c', hc, he, hle⟩ := foldl_tightest rest best
    cases he.symm.trans h
    exact ⟨hc, hle⟩

-- A routine that has a body, and the name if one is asked for.
def IsCandidate (t : Tree) (name? : Option String) (id : Syntax.Id) : Prop :=
  ∃ name body, t.kind? id = some (.routine name (some body)) ∧ ∀ asked ∈ name?, asked = name

theorem hasBody_iff :
    hasBody t id ↔ ∃ name body, t.kind? id = some (.routine name (some body)) := by
  unfold hasBody
  split
  case h_1 hk => exact ⟨fun _ => ⟨_, _, hk⟩, fun _ => rfl⟩
  case h_2 hn => exact ⟨nofun, fun ⟨_, _, hk⟩ => absurd hk (hn _ _)⟩

theorem mem_named_iff : id ∈ named t name? ↔ IsCandidate t name? id := by
  simp only [named, List.mem_map, List.mem_filter, Bool.and_eq_true, Option.all_eq_true,
    decide_eq_true_eq]
  constructor
  case mp  =>
    rintro ⟨⟨_, name⟩, ⟨hr, hn, hb⟩, rfl⟩
    obtain ⟨body?, hk⟩ := Tree.mem_routines_iff.mp hr
    obtain ⟨_, body, hk'⟩ := hasBody_iff.mp hb
    cases hk.symm.trans hk'
    exact ⟨name, body, hk, hn⟩
  case mpr =>
    rintro ⟨name, body, hk, hn⟩
    exact ⟨(id, name), ⟨Tree.mem_routines_iff.mpr ⟨_, hk⟩, hn, hasBody_iff.mpr ⟨_, _, hk⟩⟩, rfl⟩

theorem extentAt?_of_span? {span : Syntax.Span} (hs : t.span? id = some span) :
    extentAt? t line id =
      if span.startLine ≤ line && line ≤ span.endLine then some (span.endLine - span.startLine)
      else none := by
  rw [extentAt?, hs, Option.bind_eq_bind, Option.bind_some]
  generalize (decide (span.startLine ≤ line) && decide (line ≤ span.endLine)) = within
  cases within
  all_goals rfl

theorem extentAt?_eq_some_iff :
    extentAt? t line id = some extent ↔ t.IsOn line id ∧ t.lineCount id = extent + 1 := by
  cases hs : t.span? id
  case none      =>
    have hn : extentAt? t line id = none := by rw [extentAt?, hs]; rfl
    simp [hn, Tree.IsOn, hs]
  case some span =>
    simp only [extentAt?_of_span? hs, Tree.IsOn, Tree.lineCount, hs, Option.elim_some,
      Option.ite_none_right_eq_some, Bool.and_eq_true, decide_eq_true_eq, Option.some.injEq,
      exists_eq_left']
    omega

theorem pairwise_named (t : Tree) (name? : Option String) :
    (named t name?).Pairwise (·.index < ·.index) := by
  refine List.pairwise_map.mpr (.filter _ (List.pairwise_filterMap.mpr ?_))
  refine t.pairwise_ids.imp fun {i j} hlt x hx y hy => ?_
  split at hx
  case h_1 =>
    split at hy
    case h_1 => cases hx; cases hy; exact hlt
    case h_2 => cases hy
  case h_2 => cases hx

theorem pairwise_select (t : Tree) (name? : Option String) (line? : Option Nat) :
    (select t name? line?).Pairwise (·.index < ·.index) := by
  unfold select
  cases line?
  case none      => exact pairwise_named t name?
  case some line =>
    dsimp only
    cases tightest? _
    case none => exact .nil
    case some => exact List.pairwise_singleton _ _

-- Without a line, all candidates are selected (1), once each in the order of their ids (2). On a
-- line at most one is (3), and there is one if and only if there is a candidate on the line (4). It
-- is a candidate on the line itself (5), none of the others is below it (6), and none of them takes
-- up fewer lines (7).
structure Selects (t : Tree) (name? : Option String) : Prop where
  candidates : ∀ id, id ∈ select t name? none ↔ IsCandidate t name? id                    -- (1)
  ordered    : (select t name? none).Pairwise (·.index < ·.index)                         -- (2)
  atMostOne  : ∀ line, (select t name? (some line)).length ≤ 1                            -- (3)
  someOne    : ∀ line, select t name? (some line) ≠ [] ↔                                  -- (4)
    ∃ id, IsCandidate t name? id ∧ t.IsOn line id
  chosen     : ∀ line, ∀ x ∈ select t name? (some line),                                  -- (5)
    IsCandidate t name? x ∧ t.IsOn line x
  innermost  : ∀ line, ∀ x ∈ select t name? (some line), ∀ y,                             -- (6)
    IsCandidate t name? y → t.IsOn line y → t.Below x y → y = x
  fewest     : ∀ line, ∀ x ∈ select t name? (some line), ∀ y,                             -- (7)
    IsCandidate t name? y → t.IsOn line y → t.lineCount x ≤ t.lineCount y

-- The candidates on a line, with what they are compared by.
def candidatesOn (t : Tree) (name? : Option String) (line : Nat) : List (Nat × Syntax.Id) :=
  (named t name?).filterMap fun id => (extentAt? t line id).map (·, id)

theorem mem_candidatesOn_iff : (extent, id) ∈ candidatesOn t name? line ↔
    IsCandidate t name? id ∧ t.IsOn line id ∧ t.lineCount id = extent + 1 := by
  simp only [candidatesOn, List.mem_filterMap, Option.map_eq_some_iff, extentAt?_eq_some_iff,
    mem_named_iff, Prod.mk.injEq]
  constructor
  case mp  =>
    rintro ⟨_, hc, _, ho, rfl, rfl⟩
    exact ⟨hc, ho⟩
  case mpr => exact fun ⟨hc, ho⟩ => ⟨id, hc, extent, ho, rfl, rfl⟩

theorem exists_mem_candidatesOn (hc : IsCandidate t name? id) (ho : t.IsOn line id) :
    ∃ extent, (extent, id) ∈ candidatesOn t name? line := by
  refine ⟨t.lineCount id - 1, mem_candidatesOn_iff.mpr ⟨hc, ho, ?_⟩⟩
  have ⟨span, hs, _⟩ := ho
  rw [Tree.lineCount, hs, Option.elim_some]
  omega

theorem mem_select_line (h : x ∈ select t name? (some line)) :
    IsCandidate t name? x ∧ t.IsOn line x ∧ ∀ y, IsCandidate t name? y → t.IsOn line y →
      t.lineCount x < t.lineCount y ∨ t.lineCount x = t.lineCount y ∧ x.index ≤ y.index := by
  obtain ⟨⟨extent, _⟩, hc, rfl⟩ := List.mem_map.mp h
  have ⟨hm, hle⟩ := tightest?_eq_some (Option.mem_toList.mp hc)
  have ⟨hx, ho, he⟩ := mem_candidatesOn_iff.mp hm
  refine ⟨hx, ho, fun y hy hoy => ?_⟩
  have ⟨extent', hm'⟩ := exists_mem_candidatesOn hy hoy
  have hle := hle _ hm'
  have ⟨_, _, he'⟩ := mem_candidatesOn_iff.mp hm'
  simp only [tighter_iff] at hle ⊢
  omega

theorem isCandidate_of_mem_select {line? : Option Nat} (h : id ∈ select t name? line?) :
    IsCandidate t name? id := by
  cases line?
  case none => exact mem_named_iff.mp h
  case some => exact (mem_select_line h).1

-- If inner nodes are added before outer ones and take up no more lines, an innermost one is found.
theorem selects_of_nested (hb : ∀ {x y}, IsCandidate t name? y → t.Below x y →
      y = x ∨ y.index < x.index ∧ t.lineCount y ≤ t.lineCount x) :
    Selects t name? where
  candidates _            := mem_named_iff
  ordered                 := pairwise_named t name?
  atMostOne line          := by
    rw [select, List.length_map, Option.length_toList]
    split <;> decide
  someOne line            := by
    have hs : select t name? (some line) ≠ [] ↔ candidatesOn t name? line ≠ [] := by
      rw [Ne, Ne, ← tightest?_eq_none_iff]
      simp [select, candidatesOn]
    rw [hs, Ne, List.eq_nil_iff_forall_not_mem, not_forall]
    constructor
    case mp  =>
      rintro ⟨⟨extent, id⟩, hm⟩
      have ⟨hc, ho, _⟩ := mem_candidatesOn_iff.mp (not_not.mp hm)
      exact ⟨id, hc, ho⟩
    case mpr =>
      rintro ⟨id, hc, ho⟩
      have ⟨extent, hm⟩ := exists_mem_candidatesOn hc ho
      exact ⟨(extent, id), not_not.mpr hm⟩
  chosen line x hx        :=
    have ⟨hc, ho, _⟩ := mem_select_line hx
    ⟨hc, ho⟩
  innermost line x hx y hy ho hxy := by
    have ⟨_, _, hle⟩ := mem_select_line hx
    have hle := hle y hy ho
    refine (hb hy hxy).resolve_right fun ⟨hlt, hcount⟩ => ?_
    omega
  fewest line x hx y hy ho := by
    have ⟨_, _, hle⟩ := mem_select_line hx
    have hle := hle y hy ho
    omega

end Command

namespace Lowering

open Concrete (Node)
open Command (Selects)

-- In the tree of rows whose ranges nest, an innermost routine on a line is selected.
theorem lower_selects (bytes : ByteArray) (root : Node) (he : root.row.hasError = false)
    (hn : root.Nested) (hb : root.row.endByte ≤ bytes.size) :
    ∃ t, lower (.ofBytes bytes) root = .ok t ∧ ∀ name?, Selects t name? := by
  have ⟨_, h, _⟩ := program_meets ⟨root, .ofBytes bytes⟩
  refine ⟨_, lower_eq_ok (o := ⟨root, .ofBytes bytes⟩) he, fun name? => ?_⟩
  refine Command.selects_of_nested fun {x y} hy hxy => (h.forest.eq_or_lt hxy).imp_right ?_
  have ⟨_, _, hk, _⟩ := hy
  exact fun hlt => ⟨hlt, Syntax.Tree.lineCount_le (h.encloses_below hn hb hxy hk)⟩

-- The arrow function is on the line of the function that holds it.
theorem lower_selects_arrowInFunction :
    ∃ t, lower (.ofString "function f() \x7b return () => 1; \x7d") Concrete.arrowInFunction =
      .ok t ∧ ∀ name?, Selects t name? :=
  lower_selects _ _ (by decide) (by decide +kernel) (by decide +kernel)

example : (lower (.ofString "function f() \x7b return () => 1; \x7d") Concrete.arrowInFunction).map
    (Command.select · none (some 1)) = .ok [⟨3⟩] := by decide +kernel

end Lowering
end RoutineFlow
