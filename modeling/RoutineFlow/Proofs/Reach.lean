import RoutineFlow.Proofs.Analysis
import RoutineFlow.Proofs.Valued

-- What can be reached in a graph. Whatever holds of the nodes from which a construct goes on, and
-- passes along the edges, holds of all its nodes.

namespace RoutineFlow.Flow

open Syntax (Tree)

namespace Graph

def Step (g : Graph) (a b : NodeId) : Prop :=
  ∃ label, g.Leads (a, label) b

inductive Reaches (g : Graph) : NodeId → NodeId → Prop
  | refl : Reaches g a a
  | step : g.Step a b → Reaches g b c → Reaches g a c

end Graph

variable {g : Graph} {t : Tree} {task : Task} {a b c : NodeId} {lo mid hi : Nat}
  {ends ends' left sides : List LooseEnd} {e : LooseEnd} {dead : List Syntax.Id} {P Q : NodeId → Prop}

namespace Graph

namespace Reaches

theorem trans (h : g.Reaches a b) (h' : g.Reaches b c) : g.Reaches a c := by
  induction h
  case refl         => exact h'
  case step hs _ ih => exact .step hs (ih h')

theorem preserves (h : g.Reaches a b) (hP : ∀ {a b}, g.Step a b → P a → P b) (ha : P a) : P b := by
  induction h
  case refl         => exact ha
  case step hs _ ih => exact ih (hP hs ha)

theorem exists_last (h : g.Reaches a b) : a = b ∨ ∃ c, g.Step c b := by
  induction h
  case refl => exact .inl rfl
  case step hs _ ih =>
    cases ih
    case inl he => exact .inr ⟨_, he ▸ hs⟩
    case inr hl => exact .inr hl

theorem snoc (h : g.Reaches a b) (hs : g.Step b c) : g.Reaches a c :=
  h.trans (.step hs .refl)

end Reaches

theorem Arrives.leads (h : g.Arrives b e) : g.Leads e.slot b := by
  cases e
  case block => exact h.1
  case side  => exact h

theorem step_of_leads (h : g.Leads e.slot b) : g.Step e.node b := by
  cases e
  case block => exact ⟨_, h⟩
  case side  => exact ⟨_, h⟩

theorem Arrives.step (h : g.Arrives b e) : g.Step e.node b :=
  step_of_leads h.leads

-- What passes along the edges.
def Spreads (g : Graph) (P : NodeId → Prop) : Prop :=
  ∀ ⦃a b⦄, g.Step a b → P a → P b

abbrev AllAt (P : NodeId → Prop) (ends : List LooseEnd) : Prop :=
  ∀ e ∈ ends, P e.node

theorem AllAt.filter (h : AllAt P ends) (p : LooseEnd → Bool) : AllAt P (ends.filter p) :=
  fun e he => h e ((List.mem_filter.mp he).1)

theorem AllAt.negate (h : AllAt P ends) : AllAt P (ends.map .negate) := by
  intro e he
  have ⟨e', hm, hn⟩ := List.mem_map.mp he
  subst hn
  rw [e'.node_negate]
  exact h e' hm

theorem AllAt.join (h : AllAt P ends) (h' : AllAt P ends') (on : Bool) :
    AllAt P (if on then ends ++ ends' else ends' ++ ends) :=
  fun e he => (LooseEnd.mem_join.mp he).elim (h e) (h' e)

theorem Gathers.spreads (hP : g.Spreads P) (h : g.Gathers lo ends hi e) (he : AllAt P ends) :
    Between P lo hi ∧ P e.node := by
  cases h
  case sole            => exact ⟨.nil, he _ (.head _)⟩
  case join _ hn _ ha =>
    have ⟨e', hm⟩ := List.exists_mem_of_ne_nil ends hn
    have hp := hP (ha e' hm).step (he e' hm)
    exact ⟨.one hp, hp⟩

theorem Places.spreads (hP : g.Spreads P) (h : g.Places i lo ends hi e) (he : AllAt P ends) :
    Between P lo hi ∧ AllAt P [e] := by
  cases h
  case intro hg _ =>
    have ⟨hb, hp⟩ := hg.spreads hP he
    exact ⟨hb, List.forall_mem_singleton.mpr hp⟩

theorem Forks.spreads (hP : g.Spreads P) (h : g.Forks labelled lo ends hi sides)
    (he : AllAt P ends) : Between P lo hi ∧ AllAt P sides := by
  induction h
  case nil => exact ⟨.nil, he⟩
  case side ih =>
    have ⟨hp, he'⟩ := List.forall_mem_cons.mp he
    have ⟨hb, hs⟩ := ih he'
    exact ⟨hb, List.forall_mem_cons.mpr ⟨hp, hs⟩⟩
  case block ha hn _ ih =>
    have ⟨hp, he'⟩ := List.forall_mem_cons.mp he
    have ⟨hb, hs⟩ := ih he'
    have hc := hP ha.step hp
    exact ⟨.append (.one hc) hb, List.forall_mem_cons.mpr ⟨hc, List.forall_mem_cons.mpr ⟨hc, hs⟩⟩⟩

end Graph

open Graph

theorem Laid.spreads (hP : g.Spreads P) (h : Laid g t task lo ends hi ends' left dead)
    (he : AllAt P ends) : Between P lo hi ∧ AllAt P ends' ∧ AllAt P left := by
  induction h
  case skipped => exact ⟨.nil, nofun, nofun⟩
  case nil => exact ⟨.nil, he, nofun⟩
  case cons ih₁ ih₂ =>
    have ⟨hb₁, he₁, hl₁⟩ := ih₁ he
    have ⟨hb₂, he₂, hl₂⟩ := ih₂ he₁
    exact ⟨hb₁.append hb₂, he₂, List.forall_mem_append.mpr ⟨hl₁, hl₂⟩⟩
  case strict hp ih =>
    have ⟨hb₁, he₁, hl₁⟩ := ih he
    have ⟨hb₂, he₂⟩ := hp.spreads hP he₁
    exact ⟨hb₁.append hb₂, he₂, hl₁⟩
  case block hp _ ih =>
    have ⟨hb₁, he₁⟩ := hp.spreads hP he
    have ⟨hb₂, he₂, hl₂⟩ := ih he₁
    exact ⟨hb₁.append hb₂, he₂, hl₂⟩
  case parens hp _ ih =>
    have ⟨hb₁, he₁⟩ := hp.spreads hP he
    have ⟨hb₂, he₂, hl₂⟩ := ih he₁
    exact ⟨hb₁.append hb₂, he₂, hl₂⟩
  case negation hp _ ih =>
    have ⟨hb₁, he₁⟩ := hp.spreads hP he
    have ⟨hb₂, he₂, hl₂⟩ := ih he₁
    exact ⟨hb₁.append hb₂, he₂.negate, hl₂⟩
  case shortCircuit hf _ ih₁ ih₂ =>
    have ⟨hb₁, he₁, hl₁⟩ := ih₁ he
    have ⟨hb₂, hs⟩ := hf.spreads hP he₁
    have ⟨hb₃, he₃, hl₃⟩ := ih₂ (hs.filter _)
    exact ⟨(hb₁.append hb₂).append hb₃, he₃.join (hs.filter _) _,
      List.forall_mem_append.mpr ⟨hl₁, hl₃⟩⟩
  case branchingOne hp _ hf _ ih₁ ih₂ =>
    have ⟨hb₀, he₀⟩ := hp.spreads hP he
    have ⟨hb₁, he₁, hl₁⟩ := ih₁ he₀
    have ⟨hb₂, hs⟩ := hf.spreads hP he₁
    have ⟨hb₃, he₃, hl₃⟩ := ih₂ (hs.filter _)
    exact ⟨((hb₀.append hb₁).append hb₂).append hb₃, List.forall_mem_append.mpr ⟨he₃, hs.filter _⟩,
      List.forall_mem_append.mpr ⟨hl₁, hl₃⟩⟩
  case branchingTwo hp _ hf _ _ ih₁ ih₂ ih₃ =>
    have ⟨hb₀, he₀⟩ := hp.spreads hP he
    have ⟨hb₁, he₁, hl₁⟩ := ih₁ he₀
    have ⟨hb₂, hs⟩ := hf.spreads hP he₁
    have ⟨hb₃, he₃, hl₃⟩ := ih₂ (hs.filter _)
    have ⟨hb₄, he₄, hl₄⟩ := ih₃ (hs.filter _)
    have hl₅ := List.forall_mem_append.mpr ⟨hl₁, hl₃⟩
    exact ⟨(((hb₀.append hb₁).append hb₂).append hb₃).append hb₄,
      List.forall_mem_append.mpr ⟨he₃, he₄⟩, List.forall_mem_append.mpr ⟨hl₅, hl₄⟩⟩
  case whileLoop hp _ hf _ _ _ ih₁ ih₂ =>
    have ⟨hb₀, he₀⟩ := hp.spreads hP he
    have ⟨hb₁, he₁, hl₁⟩ := ih₁ he₀
    have ⟨hb₂, hs⟩ := hf.spreads hP he₁
    have ⟨hb₃, _, hl₃⟩ := ih₂ (hs.filter _)
    exact ⟨((hb₀.append hb₁).append hb₂).append hb₃, hs.filter _,
      List.forall_mem_append.mpr ⟨hl₁, hl₃⟩⟩
  case doWhileLoop hp ha _ _ _ hf _ ih₁ ih₂ =>
    have ⟨hb₀, he₀⟩ := hp.spreads hP he
    have hn := hP ha.step (he₀ _ (.head _))
    have ⟨hb₁, he₁, hl₁⟩ := ih₁ (List.forall_mem_singleton.mpr hn)
    have ⟨hb₂, he₂, hl₂⟩ := ih₂ he₁
    have ⟨hb₃, hs⟩ := hf.spreads hP he₂
    exact ⟨(((hb₀.append (.one hn)).append hb₁).append hb₂).append hb₃, hs.filter _,
      List.forall_mem_append.mpr ⟨hl₁, hl₂⟩⟩
  case forLoop hp _ hg _ hf _ _ _ _ ih₁ ih₂ ih₃ ih₄ =>
    have ⟨hb₀, he₀⟩ := hp.spreads hP he
    have ⟨hb₁, he₁, hl₁⟩ := ih₁ he₀
    have ⟨hb₂, hh⟩ := hg.spreads hP he₁
    have ⟨hb₃, he₃, hl₃⟩ := ih₂ (List.forall_mem_singleton.mpr hh)
    have ⟨hb₄, hs⟩ := hf.spreads hP he₃
    have ⟨hb₅, he₅, hl₅⟩ := ih₃ (hs.filter _)
    have ⟨hb₆, _, hl₆⟩ := ih₄ he₅
    have hl₁₃ := List.forall_mem_append.mpr ⟨hl₁, hl₃⟩
    have hl₁₅ := List.forall_mem_append.mpr ⟨hl₁₃, hl₅⟩
    have hb := (hb₀.append hb₁).append (hb₂.append hb₃)
    exact ⟨((hb.append hb₄).append hb₅).append hb₆, hs.filter _,
      List.forall_mem_append.mpr ⟨hl₁₅, hl₆⟩⟩
  case jump hp ih =>
    have ⟨hb₁, he₁, hl₁⟩ := ih he
    have ⟨hb₂, he₂⟩ := hp.spreads hP he₁
    exact ⟨hb₁.append hb₂, nofun, List.forall_mem_append.mpr ⟨hl₁, he₂⟩⟩
  case passing ih => exact ih he

namespace Graph

-- What passes against the edges.
def Drains (g : Graph) (Q : NodeId → Prop) : Prop :=
  ∀ ⦃a b⦄, g.Step a b → Q b → Q a

def Follows (g : Graph) (Q : NodeId → Prop) (e : LooseEnd) : Prop :=
  ∃ target, g.Leads e.slot target ∧ Q target

abbrev AllFollow (g : Graph) (Q : NodeId → Prop) (ends : List LooseEnd) : Prop :=
  ∀ e ∈ ends, g.Follows Q e

theorem Leads.unique {s : Slot} (h : g.Leads s a) (h' : g.Leads s b) : a = b := by
  cases h.symm.trans h'
  rfl

theorem Follows.at_node (hQ : g.Drains Q) (h : g.Follows Q e) : Q e.node :=
  have ⟨_, hl, hq⟩ := h
  hQ (step_of_leads hl) hq

theorem Arrives.follows (h : g.Arrives a e) (hq : Q a) : g.Follows Q e :=
  ⟨a, h.leads, hq⟩

theorem Gathers.drains (hQ : g.Drains Q) (h : g.Gathers lo ends hi e) (he : g.Follows Q e) :
    g.AllFollow Q ends ∧ Between Q lo hi := by
  cases h
  case sole => exact ⟨List.forall_mem_singleton.mpr he, .nil⟩
  case join _ _ _ ha =>
    have hq := he.at_node hQ
    exact ⟨fun e' hm => (ha e' hm).follows hq, .one hq⟩

theorem Places.drains (hQ : g.Drains Q) (h : g.Places i lo ends hi e) (he : g.AllFollow Q [e]) :
    g.AllFollow Q ends ∧ Between Q lo hi := by
  cases h
  case intro hg _ =>
    have hf := List.forall_mem_singleton.mp he
    exact hg.drains hQ hf

theorem Places.may (h : g.Places i lo ends hi e) : e.May value := by
  cases h
  trivial

theorem Forks.drains (hQ : g.Drains Q) (h : g.Forks labelled lo ends hi sides)
    (hs : g.AllFollow Q sides) : g.AllFollow Q ends ∧ Between Q lo hi := by
  induction h
  case nil => exact ⟨nofun, .nil⟩
  case side ih =>
    have ⟨hf, hs'⟩ := List.forall_mem_cons.mp hs
    have ⟨he, hb⟩ := ih hs'
    exact ⟨List.forall_mem_cons.mpr ⟨hf, he⟩, hb⟩
  case block ha _ _ ih =>
    have ⟨hf, hs'⟩ := List.forall_mem_cons.mp hs
    have ⟨he, hb⟩ := ih (List.forall_mem_cons.mp hs').2
    have hq := hf.at_node hQ
    exact ⟨List.forall_mem_cons.mpr ⟨ha.follows hq, he⟩, .append (.one hq) hb⟩

-- One value is enough to follow the ends that may have it.
theorem Forks.drains_sense (hQ : g.Drains Q) (h : g.Forks labelled lo ends hi sides)
    (hs : ∀ s ∈ sides, s.hasSense value → g.Follows Q s) :
    ∀ e ∈ ends, e.May value → g.Follows Q e := by
  induction h
  case nil => nofun
  case side ih =>
    have ⟨hf, hs'⟩ := List.forall_mem_cons.mp hs
    exact List.forall_mem_cons.mpr ⟨fun hm => hf (decide_eq_true hm), ih hs'⟩
  case block ha _ _ ih =>
    have ⟨hf, hs'⟩ := List.forall_mem_cons.mp hs
    have ⟨hf', hs''⟩ := List.forall_mem_cons.mp hs'
    -- The truthy side has the opposite of the flag for its value, the falsy side the flag itself.
    have hv : ∀ flag : Bool, (!flag) = value ∨ flag = value := by cases value <;> decide
    refine List.forall_mem_cons.mpr ⟨fun _ => ha.follows ?_, ih hs''⟩
    cases hv _
    case inl hv => exact (hf (decide_eq_true hv)).at_node hQ
    case inr hv => exact (hf' (decide_eq_true hv)).at_node hQ

end Graph

-- The flag says whose truth may be asked for; that of a list is never.
def Task.Valued (t : Tree) (asked : Bool) : Task → Prop
  | node i   => t.Valued asked i
  | parts is => asked = false ∧ ∀ i ∈ is, t.Valued false i

-- From a construct with a value one gets to either of its values.
theorem Laid.drains_value (hQ : g.Drains Q) (value : Bool)
    (h : Laid g t task lo ends hi ends' left dead)
    (hv : task.Valued t asked) (he : ∀ e ∈ ends', (asked → e.May value) → g.Follows Q e) :
    g.AllFollow Q ends := by
  induction h generalizing asked value
  case skipped => nofun
  case nil =>
    have ⟨ha, _⟩ := hv
    exact fun e hm => he e hm (by simp [ha])
  case cons ih₁ ih₂ =>
    have ⟨ha, hp⟩ := hv
    have ⟨hi, his⟩ := List.forall_mem_cons.mp hp
    have he₁ := ih₂ value ⟨rfl, his⟩ fun e hm _ => he e hm (by simp [ha])
    exact ih₁ value hi fun e hm _ => he₁ e hm
  case strict hf _ hp ih =>
    have hf' := he _ (.head _) fun _ => hp.may
    have he₁ := (hp.drains hQ (List.forall_mem_singleton.mpr hf')).1
    exact ih value ⟨rfl, Tree.Valued.parts hv hf⟩ fun e hm _ => he₁ e hm
  case passing hf _ ih =>
    have ⟨ha, hp⟩ := Tree.Valued.parts hv hf
    exact ih value ⟨rfl, hp⟩ fun e hm _ => he e hm (by simp [ha])
  case parens hf hp _ ih =>
    have he₁ := ih value (Tree.Valued.parts hv hf) fun e hm hy => he e hm fun _ => hy rfl
    exact (hp.drains hQ he₁).1
  case negation hf hp _ ih =>
    have he₁ := ih (!value) (Tree.Valued.parts hv hf) fun e hm hy => by
      have hn := he e.negate (List.mem_map_of_mem hm) fun _ => LooseEnd.may_negate (hy rfl)
      rwa [Follows, e.slot_negate] at hn
    exact (hp.drains hQ he₁).1
  case shortCircuit hf _ hk _ ih₁ ih₂ =>
    have ⟨hl, hr⟩ := Tree.Valued.parts hv hf
    have he₂ := ih₂ value hr fun e hm hy => he e (LooseEnd.mem_join.mpr (.inl hm)) fun _ => hy rfl
    have hs := hk.drains_sense hQ <| LooseEnd.forall_told (fun s hm _ => he₂ s hm) fun s hm hs =>
      he s (LooseEnd.mem_join.mpr (.inr hm)) fun _ => LooseEnd.may_of_hasSense hs
    exact ih₁ value hl fun e hm hy => hs e hm (hy rfl)
  case branchingTwo hf hp _ hk _ _ ih₁ ih₂ _ =>
    have ⟨hc, hy, _⟩ := Tree.Valued.parts hv hf
    have he₂ := ih₂ value hy fun e hm hy => he e (List.mem_append_left _ hm) fun _ => hy rfl
    have hs := hk.drains_sense hQ fun s hm hs => he₂ s (List.mem_filter.mpr ⟨hm, hs⟩)
    have he₁ := ih₁ true hc fun e hm hy => hs e hm (hy rfl)
    exact (hp.drains hQ he₁).1
  case block hf _ _ _            => exact (Tree.Valued.parts hv hf).elim
  case branchingOne hf _ _ _ _ _ _ => exact (Tree.Valued.parts hv hf).elim
  case whileLoop hf _ _ _ _ _ _ _ _ => exact (Tree.Valued.parts hv hf).elim
  case doWhileLoop hf _ _ _ _ _ _ _ _ _ => exact (Tree.Valued.parts hv hf).elim
  case forLoop hf _ _ _ _ _ _ _ _ _ _ _ _ _ => exact (Tree.Valued.parts hv hf).elim
  case jump hf _ _ _ => exact (Tree.Valued.parts hv hf).elim

-- Inside of a value there is no jump.
theorem Laid.left_eq_nil (h : Laid g t task lo ends hi ends' left dead) (hv : task.Valued t asked) :
    left = [] := by
  induction h generalizing asked
  case skipped => rfl
  case nil     => rfl
  case cons ih₁ ih₂ =>
    have ⟨_, hp⟩ := hv
    have ⟨hi, his⟩ := List.forall_mem_cons.mp hp
    rw [ih₁ hi, ih₂ ⟨rfl, his⟩, List.nil_append]
  case strict hf _ _ ih   => exact ih ⟨rfl, Tree.Valued.parts hv hf⟩
  case passing hf _ ih    => exact ih ⟨rfl, (Tree.Valued.parts hv hf).2⟩
  case parens hf _ _ ih   => exact ih (Tree.Valued.parts hv hf)
  case negation hf _ _ ih => exact ih (Tree.Valued.parts hv hf)
  case shortCircuit hf _ _ _ ih₁ ih₂ =>
    have ⟨hl, hr⟩ := Tree.Valued.parts hv hf
    rw [ih₁ hl, ih₂ hr, List.nil_append]
  case branchingTwo hf _ _ _ _ _ ih₁ ih₂ ih₃ =>
    have ⟨hc, hy, hn⟩ := Tree.Valued.parts hv hf
    rw [ih₁ hc, ih₂ hy, ih₃ hn, List.nil_append, List.nil_append]
  case block hf _ _ _              => exact (Tree.Valued.parts hv hf).elim
  case branchingOne hf _ _ _ _ _ _ => exact (Tree.Valued.parts hv hf).elim
  case whileLoop hf _ _ _ _ _ _ _ _ => exact (Tree.Valued.parts hv hf).elim
  case doWhileLoop hf _ _ _ _ _ _ _ _ _ => exact (Tree.Valued.parts hv hf).elim
  case forLoop hf _ _ _ _ _ _ _ _ _ _ _ _ _ => exact (Tree.Valued.parts hv hf).elim
  case jump hf _ _ _ => exact (Tree.Valued.parts hv hf).elim

theorem Graph.follows_negate : g.Follows Q e.negate ↔ g.Follows Q e := by
  rw [Follows, e.slot_negate]
  exact Iff.rfl

theorem Graph.Gathers.may (h : g.Gathers lo ends hi e) : e.May value := by
  cases h <;> trivial

theorem Graph.Forks.drains_falsy (hQ : g.Drains Q) (hk : g.Forks labelled mid ends hi sides)
    (hs : g.AllFollow Q (sides.filter (!·.hasSense true))) :
    ∀ e ∈ ends, e.May false → g.Follows Q e := by
  refine hk.drains_sense hQ fun s hm hf => hs s (List.mem_filter.mpr ⟨hm, ?_⟩)
  cases s
  case block => cases hf
  case side  => simp_all [LooseEnd.hasSense]

-- Where a loop tests again, the falsy sides of its condition can be reached.
theorem Laid.drains_test (hQ : g.Drains Q) (hv : t.Valued true condition)
    (h : Laid g t (.node condition) lo ends mid ends' left dead)
    (hk : g.Forks labelled mid ends' hi sides)
    (hs : g.AllFollow Q (sides.filter (!·.hasSense true))) : g.AllFollow Q ends :=
  h.drains_value hQ false hv fun e hm hy => hk.drains_falsy hQ hs e hm (hy rfl)

theorem Laid.drains_test? {condition? : Option Syntax.Id} (hQ : g.Drains Q)
    (hv : ∀ c ∈ condition?.toList, t.Valued true c)
    (h : Laid g t (.parts condition?.toList) lo [e] mid ends left dead) (he : e.May false)
    (hk : g.Forks condition?.isSome mid ends hi sides)
    (hs : g.AllFollow Q (sides.filter (!·.hasSense true))) : g.Follows Q e := by
  cases condition?
  case none =>
    cases h
    exact hk.drains_falsy hQ hs e (.head _) he
  case some =>
    cases h
    case cons hc hn =>
      cases hn
      exact hc.drains_test hQ (hv _ (.head _)) hk hs e (.head _)

theorem Laid.drains (hw : t.WellShaped) (hQ : g.Drains Q)
    (h : Laid g t task lo ends hi ends' left dead) (he : g.AllFollow Q ends')
    (hl : g.AllFollow Q left) : g.AllFollow Q ends ∧ Between Q lo hi := by
  induction h
  case skipped => exact ⟨nofun, .nil⟩
  case nil => exact ⟨he, .nil⟩
  case cons ih₁ ih₂ =>
    have ⟨hl₁, hl₂⟩ := List.forall_mem_append.mp hl
    have ⟨he₂, hb₂⟩ := ih₂ he hl₂
    have ⟨he₁, hb₁⟩ := ih₁ he₂ hl₁
    exact ⟨he₁, hb₁.append hb₂⟩
  case strict hp ih =>
    have ⟨he₂, hb₂⟩ := hp.drains hQ he
    have ⟨he₁, hb₁⟩ := ih he₂ hl
    exact ⟨he₁, hb₁.append hb₂⟩
  case block hp _ ih =>
    have ⟨he₂, hb₂⟩ := ih he hl
    have ⟨he₁, hb₁⟩ := hp.drains hQ he₂
    exact ⟨he₁, hb₁.append hb₂⟩
  case parens hp _ ih =>
    have ⟨he₂, hb₂⟩ := ih he hl
    have ⟨he₁, hb₁⟩ := hp.drains hQ he₂
    exact ⟨he₁, hb₁.append hb₂⟩
  case negation hp _ ih =>
    have ⟨he₂, hb₂⟩ := ih (fun e hm => follows_negate.mp (he _ (List.mem_map_of_mem hm))) hl
    have ⟨he₁, hb₁⟩ := hp.drains hQ he₂
    exact ⟨he₁, hb₁.append hb₂⟩
  case shortCircuit hk _ ih₁ ih₂ =>
    have ⟨hl₁, hl₂⟩ := List.forall_mem_append.mp hl
    have ⟨he₃, hb₃⟩ := ih₂ (fun e hm => he e (LooseEnd.mem_join.mpr (.inl hm))) hl₂
    have hs := LooseEnd.forall_told he₃ fun e hm => he e (LooseEnd.mem_join.mpr (.inr hm))
    have ⟨he₂, hb₂⟩ := hk.drains hQ hs
    have ⟨he₁, hb₁⟩ := ih₁ he₂ hl₁
    exact ⟨he₁, (hb₁.append hb₂).append hb₃⟩
  case branchingOne hp _ hk _ ih₁ ih₂ =>
    have ⟨hl₁, hl₂⟩ := List.forall_mem_append.mp hl
    have ⟨he₄, hn⟩ := List.forall_mem_append.mp he
    have ⟨hy, hb₄⟩ := ih₂ he₄ hl₂
    have ⟨he₃, hb₃⟩ := hk.drains hQ (LooseEnd.forall_told hy hn)
    have ⟨he₂, hb₂⟩ := ih₁ he₃ hl₁
    have ⟨he₁, hb₁⟩ := hp.drains hQ he₂
    exact ⟨he₁, ((hb₁.append hb₂).append hb₃).append hb₄⟩
  case branchingTwo hp _ hk _ _ ih₁ ih₂ ih₃ =>
    have ⟨hl₁₂, hl₃⟩ := List.forall_mem_append.mp hl
    have ⟨hl₁, hl₂⟩ := List.forall_mem_append.mp hl₁₂
    have ⟨he₄, he₅⟩ := List.forall_mem_append.mp he
    have ⟨hy, hb₄⟩ := ih₂ he₄ hl₂
    have ⟨hn, hb₅⟩ := ih₃ he₅ hl₃
    have ⟨he₃, hb₃⟩ := hk.drains hQ (LooseEnd.forall_told hy hn)
    have ⟨he₂, hb₂⟩ := ih₁ he₃ hl₁
    have ⟨he₁, hb₁⟩ := hp.drains hQ he₂
    exact ⟨he₁, (((hb₁.append hb₂).append hb₃).append hb₄).append hb₅⟩
  case whileLoop hf hp hc hk _ hn hr ih₁ ih₂ =>
    have ⟨hl₁, hl₂⟩ := List.forall_mem_append.mp hl
    have hv := hw.valued_of_tested hf (.head _)
    have ⟨_, hn', hq⟩ := hc.drains_test hQ hv hk he _ (.head _)
    cases Leads.unique hn hn'
    have ⟨hy, hb₄⟩ := ih₂ (fun e hm => (hr e hm).follows hq) hl₂
    have ⟨he₃, hb₃⟩ := hk.drains hQ (LooseEnd.forall_told hy he)
    have ⟨he₂, hb₂⟩ := ih₁ he₃ hl₁
    have ⟨he₁, hb₁⟩ := hp.drains hQ he₂
    exact ⟨he₁, ((hb₁.append hb₂).append hb₃).append hb₄⟩
  case doWhileLoop hf hp ha hb _ hc hk hr ih₁ ih₂ =>
    have ⟨hl₁, hl₂⟩ := List.forall_mem_append.mp hl
    have hv := hw.valued_of_tested hf (.head _)
    have ⟨he₃, _⟩ := ih₁ (hc.drains_test hQ hv hk he) hl₁
    have hq := (he₃ _ (.head _)).at_node hQ
    have ⟨he₅, hb₅⟩ := hk.drains hQ
      (LooseEnd.forall_told (fun e hm => (hr e hm).follows hq) he)
    have ⟨he₄, hb₄⟩ := ih₂ he₅ hl₂
    have ⟨_, hb₃⟩ := ih₁ he₄ hl₁
    have ⟨he₁, hb₁⟩ := hp.drains hQ (List.forall_mem_singleton.mpr (ha.follows hq))
    exact ⟨he₁, (((hb₁.append (.one hq)).append hb₃).append hb₄).append hb₅⟩
  case forLoop hf hp _ hg hc hk _ _ hn hr ih₁ ih₂ ih₃ ih₄ =>
    have ⟨hl₁₃, hl₄⟩ := List.forall_mem_append.mp hl
    have ⟨hl₁₂, hl₃⟩ := List.forall_mem_append.mp hl₁₃
    have ⟨hl₁, hl₂⟩ := List.forall_mem_append.mp hl₁₂
    have hv c (hm : c ∈ _) := hw.valued_of_tested hf hm
    have ⟨_, hn', hq⟩ := hc.drains_test? hQ hv hg.may hk he
    cases Leads.unique hn hn'
    have ⟨he₆, hb₇⟩ := ih₄ (fun e hm => (hr e hm).follows hq) hl₄
    have ⟨hy, hb₆⟩ := ih₃ he₆ hl₃
    have ⟨he₄, hb₅⟩ := hk.drains hQ (LooseEnd.forall_told hy he)
    have ⟨he₃, hb₄⟩ := ih₂ he₄ hl₂
    have ⟨he₂, hb₃⟩ := hg.drains hQ (he₃ _ (.head _))
    have ⟨he₁, hb₂⟩ := ih₁ he₂ hl₁
    have ⟨he₀, hb₁⟩ := hp.drains hQ he₁
    have hb := (hb₁.append hb₂).append (hb₃.append hb₄)
    exact ⟨he₀, ((hb.append hb₅).append hb₆).append hb₇⟩
  case jump hp ih =>
    have ⟨hl₁, he₁⟩ := List.forall_mem_append.mp hl
    have ⟨he₂, hb₂⟩ := hp.drains hQ he₁
    have ⟨he₁, hb₁⟩ := ih he₂ hl₁
    exact ⟨he₁, hb₁.append hb₂⟩
  case passing ih => exact ih he hl

end RoutineFlow.Flow
