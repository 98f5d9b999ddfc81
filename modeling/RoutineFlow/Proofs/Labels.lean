import RoutineFlow.Proofs.Coverage
import RoutineFlow.Proofs.Passage

-- Which conditions have no label. Where an expression is told apart, the block before the decision
-- ends in a position, and the condition is labelled with it: only a loop without a condition makes
-- one without a label.

namespace RoutineFlow

-- Only declarators are nothing but their parts.
theorem Syntax.Tree.IsProper.form_ne {t : Syntax.Tree} {i : Syntax.Id} (h : t.IsProper i) :
    t.form? i ≠ some (.passing parts) := by
  intro hf
  obtain ⟨kind, hk, hd⟩ := h
  have hf : kind.form = .passing parts := Option.some.inj ((form?_eq hk).symm.trans hf)
  cases kind
  case binary op _ _ => cases op <;> cases hf
  case unary op _    => cases op <;> cases hf
  case declarator    => cases hd
  all_goals cases hf

namespace Flow

open Syntax (Tree Form)

variable {g : Graph} {t : Tree} {task : Task} {lo hi : Nat} {i : Syntax.Id} {id : NodeId}
  {ends ends' left sides : List LooseEnd} {e : LooseEnd} {dead : List Syntax.Id} {labelled : Bool}

namespace LooseEnd

def isSettled : LooseEnd → Bool
  | block _ _ last? _ => last?.isSome
  | side ..           => true

@[simp]
theorem isSettled_negate (e : LooseEnd) : e.negate.isSettled = e.isSettled := by
  cases e <;> rfl

end LooseEnd

namespace Graph

theorem Places.isSettled (h : g.Places i lo ends hi e) : ∀ e' ∈ [e], e'.isSettled := by
  cases h
  exact List.forall_mem_singleton.mpr rfl

theorem Forks.isSettled (h : g.Forks labelled lo ends hi sides) : ∀ s ∈ sides, s.isSettled := by
  intro s hm
  cases s
  case side  => rfl
  case block => exact absurd rfl (h.label_ne_next _ hm)

theorem Forks.isSettled_filter (h : g.Forks labelled lo ends hi sides) (p : LooseEnd → Bool) :
    ∀ s ∈ sides.filter p, s.isSettled :=
  fun s hm => h.isSettled s (List.mem_filter.mp hm).1

end Graph

theorem Laid.isSettled (h : Laid g t task lo ends hi ends' left dead)
    (hs : (∃ i, task = .node i ∧ t.IsProper i) ∨ ∀ e ∈ ends, e.isSettled) :
    ∀ e ∈ ends', e.isSettled := by
  induction h
  case skipped         => exact nofun
  case jump            => exact nofun
  case nil             => exact hs.resolve_left (by simp)
  case cons ih₁ ih₂    =>
    have hs := hs.resolve_left (by simp)
    exact ih₂ (.inr (ih₁ (.inr hs)))
  case strict hp _     => exact hp.isSettled
  case block hp _ ih   => exact ih (.inr hp.isSettled)
  case parens hp _ ih  => exact ih (.inr hp.isSettled)
  case negation hp _ ih =>
    intro e hm
    obtain ⟨e', hm', rfl⟩ := List.mem_map.mp hm
    rw [LooseEnd.isSettled_negate]
    exact ih (.inr hp.isSettled) e' hm'
  case passing hf _ ih =>
    refine ih (.inr (hs.resolve_left ?_))
    rintro ⟨_, he, hp⟩
    cases he
    exact hp.form_ne hf
  case shortCircuit hk _ _ ih₂ =>
    have hr := ih₂ (.inr (hk.isSettled_filter _))
    exact fun e hm => (LooseEnd.mem_join.mp hm).elim (hr e) (hk.isSettled_filter _ e)
  case branchingOne hk _ _ ih₂ =>
    have hy := ih₂ (.inr (hk.isSettled_filter _))
    exact List.forall_mem_append.mpr ⟨hy, hk.isSettled_filter _⟩
  case branchingTwo hk _ _ _ ih₂ ih₃ =>
    have hy := ih₂ (.inr (hk.isSettled_filter _))
    have hn := ih₃ (.inr (hk.isSettled_filter _))
    exact List.forall_mem_append.mpr ⟨hy, hn⟩
  case whileLoop hk _ _ _ _ _       => exact hk.isSettled_filter _
  case doWhileLoop hk _ _ _         => exact hk.isSettled_filter _
  case forLoop hk _ _ _ _ _ _ _ _   => exact hk.isSettled_filter _

def Node.isBlank : Node → Bool
  | condition none .. => true
  | _                 => false

namespace Graph

def isBlank (g : Graph) (id : NodeId) : Bool :=
  (g.node? id).any Node.isBlank

-- The conditions without a label among the nodes that are numbered below `n`.
def blanksBelow (g : Graph) (n : Nat) : List NodeId :=
  ((List.range n).map NodeId.mk).filter g.isBlank

theorem blanksBelow_succ (g : Graph) (n : Nat) :
    g.blanksBelow (n + 1) = g.blanksBelow n ++ if g.isBlank ⟨n⟩ then [⟨n⟩] else [] := by
  simp [blanksBelow, List.range_succ, List.filter_singleton]

theorem HasBlock.isBlank_eq (h : g.HasBlock id) : g.isBlank id = false := by
  obtain ⟨_, _, _, hn⟩ := h
  simp [isBlank, hn, Node.isBlank]

theorem HasBlock.blanks (h : g.HasBlock ⟨lo⟩) : g.blanksBelow (lo + 1) = g.blanksBelow lo := by
  simp [blanksBelow_succ, h.isBlank_eq]

theorem Gathers.blanks (h : g.Gathers lo ends hi e) : g.blanksBelow hi = g.blanksBelow lo := by
  cases h
  case sole          => rfl
  case join hb _ _ _ => exact hb.blanks

theorem Places.blanks (h : g.Places i lo ends hi e) : g.blanksBelow hi = g.blanksBelow lo := by
  cases h
  case intro hg _ => exact hg.blanks

theorem Forks.blanks (h : g.Forks labelled lo ends hi sides) (hl : labelled)
    (hs : ∀ e ∈ ends, e.isSettled) : g.blanksBelow hi = g.blanksBelow lo := by
  induction h
  case nil     => rfl
  case side ih => exact ih (List.forall_mem_cons.mp hs).2
  case block hn _ ih =>
    have ⟨hp, hs'⟩ := List.forall_mem_cons.mp hs
    obtain ⟨x, rfl⟩ := Option.isSome_iff_exists.mp hp
    rw [ih hs', blanksBelow_succ]
    simp [isBlank, hn, hl, Node.isBlank]

end Graph

-- A test leaves no condition without a label behind.
theorem Laid.blanks_test (h : Laid g t (.node condition) lo ends mid ends' left dead)
    (hp : t.IsProper condition) (hk : g.Forks true mid ends' hi sides) :
    g.blanksBelow hi = g.blanksBelow mid :=
  hk.blanks rfl (h.isSettled (.inl ⟨_, rfl, hp⟩))

theorem Laid.blanks_tests (h : Laid g t (.parts [condition]) lo ends mid ends' left dead)
    (hp : t.IsProper condition) (hk : g.Forks true mid ends' hi sides) :
    g.blanksBelow hi = g.blanksBelow mid := by
  cases h
  case cons h hn =>
    cases hn
    exact h.blanks_test hp hk

end Flow
end RoutineFlow
