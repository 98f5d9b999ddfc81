import RoutineFlow.Proofs.Rounds

-- Every loop without a condition that is placed makes one condition without a label, and there are
-- no others. The loops are counted along the layout of the routine body.

namespace RoutineFlow

namespace Syntax

variable {t : Tree} {i x : Id} {ids : List Id} {form : Form}

def Form.isUntested : Form → Bool
  | forLoop _ none _ _ => true
  | _                  => false

-- The parts that may be statements.
def Form.statements : Form → List Id
  | block statements                                            => statements
  | branching _ yes no?                                         => yes :: no?.toList
  | whileLoop _ body | doWhileLoop body _ | forLoop _ _ _ body  => [body]
  | _                                                           => []

theorem Kind.isUntested_form (kind : Kind) : kind.form.isUntested = kind.isUntested := by
  cases kind
  case binary op _ _              => cases op <;> rfl
  case unary op _                 => cases op <;> rfl
  case forStmt _ condition? _ _   => cases condition? <;> rfl
  all_goals rfl

namespace Tree

def isUntested (t : Tree) (id : Id) : Bool :=
  (t.kind? id).any Kind.isUntested

theorem isUntested_eq (hf : t.form? i = some form) : t.isUntested i = form.isUntested := by
  have ⟨kind, hk, he⟩ := Option.map_eq_some_iff.mp hf
  simp [isUntested, hk, ← he, Kind.isUntested_form]

theorem isPlaced_of_isUntested (h : t.isUntested x) : t.isPlaced x := by
  obtain ⟨kind, hk, hu⟩ := (Option.any_eq_true _ _).mp h
  cases kind
  case forStmt => simp [isPlaced, hk, Kind.isPlaced]
  all_goals cases hu

-- The loops without a condition that the flow comes by from a node.
def untested (t : Tree) (id : Id) : List Id :=
  (t.visits id).filter t.isUntested

def untestedOf (t : Tree) (ids : List Id) : List Id :=
  ids.flatMap t.untested

@[simp]
theorem untestedOf_nil (t : Tree) : t.untestedOf [] = [] :=
  rfl

@[simp]
theorem untestedOf_cons (t : Tree) (id : Id) (ids : List Id) :
    t.untestedOf (id :: ids) = t.untested id ++ t.untestedOf ids :=
  rfl

@[simp]
theorem untestedOf_append (t : Tree) (ids ids' : List Id) :
    t.untestedOf (ids ++ ids') = t.untestedOf ids ++ t.untestedOf ids' :=
  List.flatMap_append

theorem untestedOf_eq (t : Tree) (ids : List Id) :
    t.untestedOf ids = (t.visitsOf ids).filter t.isUntested := by
  simp only [untestedOf, visitsOf, List.filter_flatMap]
  rfl

-- In what is evaluated for a value there is no loop.
theorem Valued.untested_eq_nil (hw : t.WellShaped) (h : t.Valued asked i) : t.untested i = [] := by
  have hparts {i form} (hf : t.form? i = some form) (hu : form.isUntested = false)
      (hp : ∀ p ∈ form.parts, t.untested p = []) : t.untested i = [] := by
    refine List.filter_eq_nil_iff.mpr fun x hx => ?_
    cases (hw.mem_visits hf).mp hx
    case inl he => rw [he, Tree.isUntested_eq hf, hu]; exact Bool.false_ne_true
    case inr hm =>
      have ⟨p, hm, hx⟩ := hm
      exact List.filter_eq_nil_iff.mp (hp p hm) x hx
  induction h
  case passing hf _ ih      => exact hparts hf rfl ih
  case strict hf _ ih       => exact hparts hf rfl ih
  case parens hf _ ih       => exact hparts hf rfl (by simpa [Form.parts] using ih)
  case negation hf _ ih     => exact hparts hf rfl (by simpa [Form.parts] using ih)
  case shortCircuit hf _ _ ih₁ ih₂ =>
    exact hparts hf rfl (by simpa [Form.parts] using ⟨ih₁, ih₂⟩)
  case branching hf _ _ _ ih₁ ih₂ ih₃ =>
    exact hparts hf rfl (by simpa [Form.parts] using ⟨ih₁, ih₂, ih₃⟩)

namespace WellShaped

variable (hw : t.WellShaped)
include hw

theorem untestedOf_tested (hf : t.form? i = some form) (hp : ids ⊆ form.tested) :
    t.untestedOf ids = [] :=
  List.flatMap_eq_nil_iff.mpr fun _ hm => (hw.valued_of_tested hf (hp hm)).untested_eq_nil hw

theorem untestedOf_evaluated (hf : t.form? i = some form) (hp : ids ⊆ form.evaluated) :
    t.untestedOf ids = [] :=
  List.flatMap_eq_nil_iff.mpr fun _ hm => (hw.valued_of_evaluated hf (hp hm)).untested_eq_nil hw

theorem untestedOf_order (hf : t.form? i = some form) :
    t.untestedOf form.order = t.untestedOf form.statements := by
  have ht := hw.untestedOf_tested hf (List.Subset.refl _)
  have he := hw.untestedOf_evaluated hf (List.Subset.refl _)
  cases form
  all_goals simp_all [Form.order, Form.parts, Form.statements, Form.tested, Form.evaluated]

theorem untestedOf_perm (hf : t.form? i = some form) :
    (t.untestedOf [i]).Perm
      ((if form.isUntested then [i] else []) ++ t.untestedOf form.statements) := by
  have hu := isUntested_eq hf
  rw [← hw.untestedOf_order hf, untestedOf_eq, untestedOf_eq, visitsOf_cons, hw.visits_eq hf]
  cases hu' : form.isUntested <;> rw [hu'] at hu <;> split <;>
    simp [hu, List.perm_append_singleton]

theorem untestedOf_tested_perm (hf : t.form? i = some form) (hu : form.isUntested = false) :
    (t.untestedOf form.statements).Perm (t.untestedOf [i]) := by
  have hi := hw.untestedOf_perm hf
  rw [hu] at hi
  simpa using hi.symm

-- A construct none of whose parts is a statement holds no loop.
theorem untestedOf_eq_nil (hf : t.form? i = some form) (hu : form.isUntested = false)
    (hs : form.statements = []) : t.untestedOf [i] = [] :=
  List.nil_perm.mp (by simpa [hs] using hw.untestedOf_tested_perm hf hu)

end WellShaped

end Tree
end Syntax

namespace Flow

open Syntax (Tree Form deserted)

variable {g : Graph} {t : Tree} {task : Task} {lo mid hi : Nat} {i x scope : Syntax.Id}
  {ends ends' left sides : List LooseEnd} {e : LooseEnd} {dead ids : List Syntax.Id} {s : Summary}

-- The loops without a condition in a part of the routine body: those that were not left out, with
-- the conditions without a label.
structure Summary.Counts (s : Summary) (t : Tree) (ids : List Syntax.Id) (lo hi : Nat)
    (ends left : List LooseEnd) (dead : List Syntax.Id) (loops : List Loop) : Prop where
  tests : s.graph.blanksBelow hi = s.graph.blanksBelow lo ++ loops.map (·.test)
  ids   : (loops.map (·.id) ++ t.untestedOf dead).Perm (t.untestedOf ids)
  turns : s.Around lo hi ends left dead → ∀ l ∈ loops, l.Turns s t

namespace Summary.Counts

variable {loops : List Loop}

theorem none (hb : s.graph.blanksBelow hi = s.graph.blanksBelow lo) (hd : t.untestedOf dead = [])
    (hu : t.untestedOf ids = []) : s.Counts t ids lo hi ends left dead [] where
  tests := by simp [hb]
  ids   := by simp [hd, hu]
  turns := by simp

-- Where there is no loop.
theorem of_nil (h : s.Counts t ids lo hi ends left dead loops) (hu : t.untestedOf ids = []) :
    s.graph.blanksBelow hi = s.graph.blanksBelow lo ∧ t.untestedOf dead = [] := by
  have hp := h.ids
  rw [hu, List.perm_nil, List.append_eq_nil_iff, List.map_eq_nil_iff] at hp
  obtain ⟨rfl, hd⟩ := hp
  exact ⟨by simpa using h.tests, hd⟩

theorem of_tested (h : s.Counts t ids lo hi ends left dead loops) (hw : t.WellShaped)
    (hf : t.form? i = some form) (hp : ids ⊆ form.tested) :
    s.graph.blanksBelow hi = s.graph.blanksBelow lo ∧ t.untestedOf dead = [] :=
  h.of_nil (hw.untestedOf_tested hf hp)

theorem of_evaluated (h : s.Counts t ids lo hi ends left dead loops) (hw : t.WellShaped)
    (hf : t.form? i = some form) (hp : ids ⊆ form.evaluated) :
    s.graph.blanksBelow hi = s.graph.blanksBelow lo ∧ t.untestedOf dead = [] :=
  h.of_nil (hw.untestedOf_evaluated hf hp)

-- Where no part is a statement, neither is there a loop in the whole.
theorem whole (h : s.Counts t ids lo hi ends left dead loops) (hw : t.WellShaped)
    (hf : t.form? i = some form) (hu : form.isUntested = false) (hs : form.statements = [])
    (hp : ids ⊆ form.tested ∨ ids ⊆ form.evaluated) {lo' hi' : Nat} {ends' left' : List LooseEnd}
    (hl : s.graph.blanksBelow lo = s.graph.blanksBelow lo')
    (hh : s.graph.blanksBelow hi' = s.graph.blanksBelow hi) :
    s.Counts t [i] lo' hi' ends' left' dead [] := by
  obtain ⟨hb, hd⟩ := hp.elim (h.of_tested hw hf) (h.of_evaluated hw hf)
  exact .none (hh.trans (hb.trans hl)) hd (hw.untestedOf_eq_nil hf hu hs)

-- A construct that begins with a test holds the loops of its statements.
theorem statements (h : s.Counts t form.statements lo hi ends left dead loops)
    (hw : t.WellShaped) (hf : t.form? i = some form) (hu : form.isUntested = false)
    {tested : List Syntax.Id} (hd : t.untestedOf tested = []) :
    (loops.map (·.id) ++ t.untestedOf (tested ++ dead)).Perm (t.untestedOf [i]) := by
  rw [t.untestedOf_append, hd, List.nil_append]
  exact h.ids.trans (hw.untestedOf_tested_perm hf hu)

theorem append {ids₁ ids₂ dead₁ dead₂ : List Syntax.Id} {left₁ left₂ : List LooseEnd}
    {loops₁ loops₂ : List Loop} (h₁ : s.Counts t ids₁ lo mid ends left₁ dead₁ loops₁)
    (h₂ : s.Counts t ids₂ mid hi ends' left₂ dead₂ loops₂) :
    s.graph.blanksBelow hi = s.graph.blanksBelow lo ++ (loops₁ ++ loops₂).map (·.test) ∧
    ((loops₁ ++ loops₂).map (·.id) ++ t.untestedOf (dead₁ ++ dead₂)).Perm
      (t.untestedOf (ids₁ ++ ids₂)) := by
  refine ⟨by rw [h₂.tests, h₁.tests, List.map_append, List.append_assoc], ?_⟩
  rw [List.map_append, t.untestedOf_append, t.untestedOf_append, List.append_assoc]
  refine .trans (.append_left _ (List.perm_append_comm_assoc ..)) ?_
  rw [← List.append_assoc]
  exact h₁.ids.append h₂.ids

end Summary.Counts

section

variable {init update : List Syntax.Id} {condition? : Option Syntax.Id} {body : Syntax.Id}
  {header : LooseEnd} {entry : NodeId} {m₁ m₂ m₃ m₄ m₅ m₆ : Nat}
  {ends₁ ends₂ ends₃ ends₄ left₁ left₂ left₃ left₄ : List LooseEnd}
  {dead₁ dead₂ dead₃ dead₄ : List Syntax.Id} {loops₁ loops₂ loops₃ loops₄ : List Loop}
  (hw : t.WellShaped) (hf : t.form? i = some (.forLoop init condition? update body))
  (hp : s.graph.Places i lo ends m₁ e)
  (hli : Laid s.graph t (.parts init) m₁ [e] m₂ ends₁ left₁ dead₁)
  (hg : s.graph.Gathers m₂ ends₁ m₃ header)
  (hlc : Laid s.graph t (.parts condition?.toList) m₃ [header] m₄ ends₂ left₂ dead₂)
  (hk : s.graph.Forks condition?.isSome m₄ ends₂ m₅ sides)
  (hlb : Laid s.graph t (.node body) m₅ (sides.filter (·.hasSense true)) m₆ ends₃ left₃ dead₃)
  (hlu : Laid s.graph t (.parts update) m₆ ends₃ hi ends₄ left₄ dead₄)
  (hn : s.graph.Leads header.slot entry) (hr : ∀ e ∈ ends₄, s.graph.Arrives entry e)
include hw hf hp hli hg hlc hk hlb hlu hn hr

omit hlb in
theorem Summary.Around.forBody
    (ha : s.Around lo hi (sides.filter (!·.hasSense true)) (left₁ ++ left₂ ++ left₃ ++ left₄)
      (dead₁ ++ dead₂ ++ dead₃ ++ dead₄)) : s.Around m₅ m₆ ends₃ left₃ dead₃ := by
  have hv c (hm : c ∈ condition?.toList) : t.Valued false c :=
    (hw.valued_of_tested hf hm).weaken
  have ht := hlc.confines_test ⟨rfl, hv⟩ (hlc.confines hw) hk
  have he := ht.entry_within hk hg.slot_next hn
  have hle := Nat.le_trans (hp.confines.next (hli.confines hw)).le (hg.confines.next ht).le
  have hu := hlu.confines hw
  refine ha.part hu.le (by grind) (by grind) (ha.apart_next hle hu fun hs hl => ?_)
  rcases LooseEnd.at_append.mp hs with hs | hs
  case inl => exact .inr (.inr (hs.eq_target hr hl ▸ he.2))
  case inr => exact .inr (.inl (by grind))

theorem Laid.counts_forLoop (hd : s.Draws t scope)
    (c₁ : s.Counts t init m₁ m₂ ends₁ left₁ dead₁ loops₁)
    (c₂ : s.Counts t condition?.toList m₃ m₄ ends₂ left₂ dead₂ loops₂)
    (c₃ : s.Counts t [body] m₅ m₆ ends₃ left₃ dead₃ loops₃)
    (c₄ : s.Counts t update m₆ hi ends₄ left₄ dead₄ loops₄) :
    ∃ loops, s.Counts t [i] lo hi (sides.filter (!·.hasSense true))
      (left₁ ++ left₂ ++ left₃ ++ left₄) (dead₁ ++ dead₂ ++ dead₃ ++ dead₄) loops := by
  obtain ⟨hb₁, hd₁⟩ := c₁.of_evaluated hw hf (by simp [Form.evaluated])
  obtain ⟨hb₂, hd₂⟩ := c₂.of_tested hw hf (List.Subset.refl _)
  obtain ⟨hb₄, hd₄⟩ := c₄.of_evaluated hw hf (by simp [Form.evaluated])
  have hbody := fun ha => c₃.turns (.forBody hw hf hp hli hg hlc hk hlu hn hr ha)
  have hdead : t.untestedOf (dead₁ ++ dead₂ ++ dead₃ ++ dead₄) = t.untestedOf dead₃ := by
    simp [hd₁, hd₂, hd₄]
  cases condition?
  case some c =>
    have hb₃ := hlc.blanks_tests (hw.isProper_of_tested hf (.head _)) hk
    refine ⟨loops₃, by rw [hb₄, c₃.tests, hb₃, hb₂, hg.blanks, hb₁, hp.blanks], ?_, hbody⟩
    rw [hdead]
    exact c₃.ids.trans (hw.untestedOf_tested_perm hf rfl)
  case none =>
    have hl := Laid.forLoop hf hp hli hg hlc hk hlb hlu hn hr
    cases hlc
    obtain ⟨node, passed, last?, rfl, _⟩ := hli.exists_header hw (hw.valued_init hf) hp hg
    obtain ⟨rfl, _, ⟨_, _, _, hc⟩, _⟩ := hk.of_block
    have hb₃ : s.graph.blanksBelow (m₃ + 1) = s.graph.blanksBelow m₃ ++ [⟨m₃⟩] := by
      simp [Graph.blanksBelow_succ, Graph.isBlank, hc, Node.isBlank]
    refine ⟨⟨i, init, update, body, lo, ⟨m₃⟩, hi⟩ :: loops₃, ?_, ?_, fun ha => ?_⟩
    case refine_1 =>
      rw [hb₄, c₃.tests, hb₃, hg.blanks, hb₁, hp.blanks, List.append_assoc]
      rfl
    case refine_2 =>
      rw [hdead]
      exact (c₃.ids.cons i).trans (hw.untestedOf_perm hf).symm
    case refine_3 =>
      refine List.forall_mem_cons.mpr ⟨?_, hbody ha⟩
      exact Laid.turns hw hd hf hl ⟨_, _, _, rfl⟩ hk hlb hlu hn hr (by grind) (by grind) ha

end

-- A construct that tests a condition first.
theorem Laid.counts_test {m₁ m₂ m₃ : Nat} {ends₁ : List LooseEnd} (hw : t.WellShaped)
    (hf : t.form? i = some form) (ht : x ∈ form.tested) (hp : s.graph.Places i lo ends m₁ e)
    (hl : Laid s.graph t (.node x) m₁ [e] m₂ ends₁ left dead)
    (hk : s.graph.Forks true m₂ ends₁ m₃ sides) (c : s.Counts t [x] m₁ m₂ ends₁ left dead loops) :
    lo ≤ m₃ ∧ s.graph.blanksBelow m₃ = s.graph.blanksBelow lo ∧ t.untestedOf dead = [] := by
  obtain ⟨hb, hd⟩ := c.of_tested hw hf (List.cons_subset.mpr ⟨ht, List.nil_subset _⟩)
  have hle := Nat.le_trans (hp.confines.next (hl.confines hw)).le hk.confines.le
  exact ⟨hle, by rw [hl.blanks_test (hw.isProper_of_tested hf ht) hk, hb, hp.blanks], hd⟩

theorem Laid.counts (hw : t.WellShaped) (hd : s.Draws t scope)
    (h : Laid s.graph t task lo ends hi ends' left dead) :
    ∃ loops, s.Counts t task.ids lo hi ends' left dead loops := by
  induction h
  case skipped => exact ⟨[], by simp, by simp, by simp⟩
  case nil     => exact ⟨[], .none rfl rfl rfl⟩
  case cons h₁ h₂ ih₁ ih₂ =>
    obtain ⟨loops₁, c₁⟩ := ih₁
    obtain ⟨loops₂, c₂⟩ := ih₂
    obtain ⟨ht, hi⟩ := c₁.append c₂
    have hc₁ := h₁.confines hw
    have hc₂ := h₂.confines hw
    refine ⟨loops₁ ++ loops₂, ht, hi,
      fun ha => List.forall_mem_append.mpr ⟨c₁.turns ?_, c₂.turns ?_⟩⟩
    · refine ha.part hc₂.le (List.subset_append_left ..) (List.subset_append_left ..) fun hs ht =>
        ha.apart_next (Nat.le_refl _) hc₂ (fun hs _ => ?_) hs ht
      grind
    · exact ha.inner hc₁.le (Nat.le_refl _) (fun _ => id) (List.subset_append_right ..)
        (List.subset_append_right ..)
  case strict hf _ hp ih =>
    obtain ⟨_, c⟩ := ih
    exact ⟨[], c.whole hw hf rfl rfl (.inr (List.Subset.refl _)) rfl hp.blanks⟩
  case jump hf _ hp ih =>
    obtain ⟨_, c⟩ := ih
    exact ⟨[], c.whole hw hf rfl rfl (.inr (List.Subset.refl _)) rfl hp.blanks⟩
  case passing hf _ ih =>
    obtain ⟨_, c⟩ := ih
    exact ⟨[], c.whole hw hf rfl rfl (.inr (List.Subset.refl _)) rfl rfl⟩
  case parens hf hp _ ih =>
    obtain ⟨_, c⟩ := ih
    exact ⟨[], c.whole hw hf rfl rfl (.inl (List.Subset.refl _)) hp.blanks rfl⟩
  case negation hf hp _ ih =>
    obtain ⟨_, c⟩ := ih
    exact ⟨[], c.whole hw hf rfl rfl (.inl (List.Subset.refl _)) hp.blanks rfl⟩
  case shortCircuit hf hl hk _ ih₁ ih₂ =>
    obtain ⟨_, c₁⟩ := ih₁
    obtain ⟨_, c₂⟩ := ih₂
    obtain ⟨hb₁, hd₁⟩ := c₁.of_tested hw hf (by simp [Form.tested])
    obtain ⟨hb₂, hd₂⟩ := c₂.of_tested hw hf (by simp [Form.tested])
    have hb := hl.blanks_test (hw.isProper_of_tested hf (.head _)) hk
    exact ⟨[], .none (hb₂.trans (hb.trans hb₁)) (by simp [hd₁, hd₂])
      (hw.untestedOf_eq_nil hf rfl rfl)⟩
  case block hf hp _ ih =>
    obtain ⟨loops, c⟩ := ih
    refine ⟨loops, by rw [c.tests, hp.blanks], c.ids.trans (hw.untestedOf_tested_perm hf rfl),
      fun ha => c.turns ?_⟩
    exact ha.inner hp.confines.le (Nat.le_refl _) (fun _ => id) (fun _ => id) fun _ => id
  case branchingOne hf hp hl hk _ ih₁ ih₂ =>
    obtain ⟨_, c₁⟩ := ih₁
    obtain ⟨loops, c₂⟩ := ih₂
    obtain ⟨hle, hb, hd⟩ := hl.counts_test hw hf (.head _) hp hk c₁
    refine ⟨loops, by rw [c₂.tests, hb], c₂.statements hw hf rfl hd, fun ha => c₂.turns ?_⟩
    exact ha.inner hle (Nat.le_refl _) (by grind) (List.subset_append_right ..)
      (List.subset_append_right ..)
  case branchingTwo hf hp hl hk hy hn ih₁ ih₂ ih₃ =>
    obtain ⟨_, c₁⟩ := ih₁
    obtain ⟨loops₂, c₂⟩ := ih₂
    obtain ⟨loops₃, c₃⟩ := ih₃
    obtain ⟨ht, hi⟩ := c₂.append c₃
    obtain ⟨hle, hb, hd⟩ := hl.counts_test hw hf (.head _) hp hk c₁
    have hle₂ := (hy.confines hw).le
    have hle₃ := (hn.confines hw).le
    refine ⟨loops₂ ++ loops₃, by rw [ht, hb], ?_,
      fun ha => List.forall_mem_append.mpr ⟨c₂.turns ?_, c₃.turns ?_⟩⟩
    · rw [List.append_assoc, t.untestedOf_append, hd, List.nil_append]
      exact hi.trans (hw.untestedOf_tested_perm hf rfl)
    · exact ha.inner hle hle₃ (by grind) (by grind) (by grind)
    · exact ha.inner (Nat.le_trans hle hle₂) (Nat.le_refl _) (by grind) (by grind) (by grind)
  case whileLoop hf hp hl hk _ hn hr ih₁ ih₂ =>
    obtain ⟨_, c₁⟩ := ih₁
    obtain ⟨loops, c₂⟩ := ih₂
    obtain ⟨_, hb, hd⟩ := hl.counts_test hw hf (.head _) hp hk c₁
    have ht := hl.confines_test (hw.valued_of_tested hf (.head _)) (hl.confines hw) hk
    have he := ht.entry_within hk hp.slot_next hn
    refine ⟨loops, by rw [c₂.tests, hb], c₂.statements hw hf rfl hd, fun ha => c₂.turns ?_⟩
    refine ha.part (Nat.le_refl _) (by grind) (by grind) fun hs ht hw => ?_
    cases hs.eq_target hr ht
    exact Nat.not_lt_of_le hw.1 he.2
  case doWhileLoop hf hp ha hb hl hlc hk hr ih₁ ih₂ =>
    obtain ⟨loops, c₁⟩ := ih₁
    obtain ⟨_, c₂⟩ := ih₂
    obtain ⟨hb₂, hd⟩ := c₂.of_tested hw hf (List.Subset.refl _)
    have hb₃ := hlc.blanks_test (hw.isProper_of_tested hf (.head _)) hk
    have ht := hlc.confines_test (hw.valued_of_tested hf (.head _)) (hlc.confines hw) hk
    refine ⟨loops, by rw [hb₃, hb₂, c₁.tests, hb.blanks, hp.blanks], ?_, fun ha => c₁.turns ?_⟩
    · rw [t.untestedOf_append, hd, List.append_nil]
      exact c₁.ids.trans (hw.untestedOf_tested_perm hf rfl)
    · have hle := Nat.le_succ_of_le hp.confines.le
      refine ha.part ht.le (by grind) (by grind) (ha.apart_next hle ht fun hs hl => ?_)
      rcases hs.filter (·.hasSense true) with hs | hs
      case inl =>
        cases hs.eq_target hr hl
        exact .inr (.inr (Nat.lt_succ_self _))
      case inr => exact .inl hs
  case forLoop hf hp hli hg hlc hk hlb hlu hn hr ih₁ ih₂ ih₃ ih₄ =>
    obtain ⟨_, c₁⟩ := ih₁
    obtain ⟨_, c₂⟩ := ih₂
    obtain ⟨_, c₃⟩ := ih₃
    obtain ⟨_, c₄⟩ := ih₄
    exact Laid.counts_forLoop hw hf hp hli hg hlc hk hlb hlu hn hr hd c₁ c₂ c₃ c₄

namespace Summary.Draws

theorem around (h : ∀ e ∈ ends ++ left, s.graph.Arrives s.finish e) :
    s.Around lo s.finish.index ends left s.unreachable where
  apart hs ht hw := by
    cases hs.eq_target (List.forall_mem_append.mp h).1 ht
    exact Nat.lt_irrefl _ hw.2
  jumps   := (List.forall_mem_append.mp h).2
  finish  := Nat.le_refl _
  skipped := List.Subset.refl _

theorem blanks_eq (h : s.Draws t scope) :
    s.nodesThat Node.isBlank = s.graph.blanksBelow s.finish.index := by
  have hf : s.graph.isBlank ⟨s.finish.index⟩ = false := by
    simp [Graph.isBlank, h.finish, Node.isBlank]
  have hs : s.nodesThat Node.isBlank = s.graph.blanksBelow s.graph.size := rfl
  rw [hs, ← h.last, Graph.blanksBelow_succ, hf]
  simp

theorem blanks_start (h : s.Draws t scope) : s.graph.blanksBelow 1 = [] := by
  have hs : s.graph.isBlank ⟨0⟩ = false := by
    simp [Graph.isBlank, h.underway.start.mpr ⟨rfl, rfl⟩, Node.isBlank]
  simp [Graph.blanksBelow, hs]

theorem untested_perm (hw : t.WellShaped) (h : s.Draws t scope) :
    (s.positions.filter t.isUntested ++ t.untestedOf s.unreachable).Perm
      (t.untestedOf [scope]) := by
  refine List.perm_iff_count.mpr fun x => ?_
  rw [t.untestedOf_eq, t.untestedOf_eq, ← List.filter_append]
  cases hx : t.isUntested x
  case false =>
    have hn l : (List.filter t.isUntested l).count x = 0 :=
      List.count_eq_zero.mpr fun hm => by simp [hx] at hm
    rw [hn, hn]
  case true =>
    have hp : t.isPlaced x := Tree.isPlaced_of_isUntested hx
    have hc := (h.covers hw x).2
    rw [shown, shown, if_pos hp, if_pos hp] at hc
    rw [List.count_filter hx, List.count_filter hx, List.count_append, hc]
    simp

end Summary.Draws

theorem analyze_untested (hw : t.WellShaped) (h : analyze t settings scope = .ok s) :
    ∃ loops : List Loop,
      (loops.map (·.id)).Perm (s.positions.filter t.isUntested) ∧
      loops.map (·.test) = s.nodesThat Node.isBlank ∧
      ∀ l ∈ loops, l.Turns s t := by
  have hd := draws_of_analyze h
  obtain ⟨ends, left, hl, ha⟩ := hd.laid
  obtain ⟨loops, c⟩ := hl.counts hw hd
  refine ⟨loops, ?_, ?_, c.turns (Summary.Draws.around ha)⟩
  case refine_1 =>
    exact (List.perm_append_right_iff _).mp (c.ids.trans (hd.untested_perm hw).symm)
  case refine_2 =>
    rw [hd.blanks_eq, c.tests, hd.blanks_start, List.nil_append]

theorem analyze_untested_deserted :
    deserted.2.WellShaped ∧
    ∃ s, analyze deserted.2 { unreachable := .skip } deserted.1 = .ok s ∧
      s.nodesThat Node.isBlank = [⟨2⟩] ∧
      ∃ loops : List Loop,
        (loops.map (·.id)).Perm (s.positions.filter deserted.2.isUntested) ∧
        loops.map (·.test) = [⟨2⟩] ∧ ∀ l ∈ loops, l.Turns s deserted.2 := by
  have hw : deserted.2.WellShaped := by decide +kernel
  have hb : (analyze deserted.2 { unreachable := .skip } deserted.1).toOption.map
      (·.nodesThat Node.isBlank) = some [⟨2⟩] := by decide +kernel
  have ⟨s, h⟩ : ∃ s, analyze deserted.2 { unreachable := .skip } deserted.1 = .ok s :=
    exists_of_isSome (by decide +kernel)
  rw [h] at hb
  have hb : s.nodesThat Node.isBlank = [⟨2⟩] := Option.some.inj hb
  obtain ⟨loops, hi, ht, hl⟩ := analyze_untested hw h
  exact ⟨hw, s, h, hb, loops, hi, ht.trans hb, hl⟩

open Syntax Build in
-- { for (!a; ;) { b(); } }
def negated : Syntax.Id × Tree :=
  negate.run .empty
where
  negate : Build Syntax.Id := do
    let start ← not (← identifier "a")
    let body  ← block [← call none "b" []]
    block [← forStmt [start] none [] body]

-- The negation of the initializer turns the loop around: a true answer leaves it.
theorem leaves_truthy_negated :
    negated.2.WellShaped ∧
    ∃ s, analyze negated.2 {} negated.1 = .ok s ∧ s.nodesThat Node.isBlank = [⟨2⟩] ∧
      s.graph.Leads (⟨2⟩, .branch .truthy) s.finish ∧
      s.graph.Leads (⟨2⟩, .branch .falsy) ⟨3⟩ ∧ s.graph.positions ⟨3⟩ = [⟨3⟩, ⟨2⟩] := by
  have hw : negated.2.WellShaped := by decide +kernel
  have ⟨s, h⟩ : ∃ s, analyze negated.2 {} negated.1 = .ok s := exists_of_isSome (by decide +kernel)
  have hs : (analyze negated.2 {} negated.1).toOption.any fun s =>
      s.nodesThat Node.isBlank = [⟨2⟩] ∧ s.graph.Leads (⟨2⟩, .branch .truthy) s.finish ∧
      s.graph.Leads (⟨2⟩, .branch .falsy) ⟨3⟩ ∧ s.graph.positions ⟨3⟩ = [⟨3⟩, ⟨2⟩] := by
    decide +kernel
  rw [h] at hs
  exact ⟨hw, s, h, of_decide_eq_true hs⟩

end Flow
end RoutineFlow
