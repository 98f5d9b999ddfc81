import RoutineFlow.Flow.Summary
import RoutineFlow.Proofs.Walks

-- Paths through a flow graph, node by node. Where a feed gives the answers there is one path at
-- most that goes as far as it can.

namespace RoutineFlow.Flow

open Meaning

namespace Graph

-- The nodes that are left behind, and the questions with their answers.
inductive Path (g : Graph) : NodeId → Feed → List NodeId → List (Option Syntax.Id × Bool) →
    NodeId → Feed → Prop
  | here : Path g a f [] [] a f
  | next : g.Leads (a, .next) b → Path g b f ns ds z f' → Path g a f (a :: ns) ds z f'
  | branch : g.Asks a on? → f.next? on? = some (v, f₁) → g.Leads (a, .branch (.ofValue v)) b →
    Path g b f₁ ns ds z f' → Path g a f (a :: ns) ((on?, v) :: ds) z f'

-- Where a path cannot go on.
def Halts (g : Graph) (n : NodeId) (f : Feed) : Outcome → Prop
  | .finished    => g.node? n = some .finish
  | .starved on? => g.Asks n on? ∧ f.next? on? = none

variable {g : Graph} {a b n z z' : NodeId} {f f' f₁ f₂ : Feed} {ns ns' : List NodeId}
  {ds ds' : List (Option Syntax.Id × Bool)} {on? on?' : Option Syntax.Id} {o o' : Outcome}

theorem Asks.unique (h : g.Asks n on?) (h' : g.Asks n on?') : on? = on?' := by
  have ⟨_, _, _, hn⟩ := h
  have ⟨_, _, _, hn'⟩ := h'
  cases hn.symm.trans hn'
  rfl

theorem Asks.not_next (h : g.Asks n on?) : ¬g.Leads (n, .next) b := by
  have ⟨_, _, _, hn⟩ := h
  simp [Leads, slot?, hn, Node.slot?]

namespace Halts

theorem unique (h : g.Halts n f o) (h' : g.Halts n f o') : o = o' := by
  cases o <;> cases o'
  case finished.finished => rfl
  case finished.starved =>
    have ⟨_, _, _, hn⟩ := h'.1
    cases h.symm.trans hn
  case starved.finished =>
    have ⟨_, _, _, hn⟩ := h.1
    cases h'.symm.trans hn
  case starved.starved => rw [h.1.unique h'.1]

theorem not_next (h : g.Halts n f o) : ¬g.Leads (n, .next) b := by
  cases o
  case finished => simp_all [Halts, Leads, slot?, Node.slot?]
  case starved  => exact h.1.not_next

theorem not_answered (h : g.Halts n f o) (ha : g.Asks n on?) : f.next? on? = none := by
  cases o
  case finished =>
    have ⟨_, _, _, hn⟩ := ha
    cases h.symm.trans hn
  case starved => rw [ha.unique h.1, h.2]

end Halts

-- A graph leaves no choice to a path.
theorem Path.unique (h : g.Path a f ns ds z f₁) (h' : g.Path a f ns' ds' z' f₂)
    (hz : g.Halts z f₁ o) (hz' : g.Halts z' f₂ o') :
    ns = ns' ∧ ds = ds' ∧ z = z' ∧ f₁ = f₂ := by
  induction h generalizing ns' ds'
  case here =>
    cases h'
    case here             => exact ⟨rfl, rfl, rfl, rfl⟩
    case next hl _        => exact absurd hl hz.not_next
    case branch ha _ hf _ => cases (hz.not_answered ha).symm.trans hf
  case next hl _ ih =>
    cases h'
    case here => exact absurd hl hz'.not_next
    case next hl' hp =>
      cases hl.symm.trans hl'
      have ⟨hn, hd, h⟩ := ih hp hz
      exact ⟨congrArg _ hn, hd, h⟩
    case branch ha _ _ _ => exact absurd hl ha.not_next
  case branch ha hf hl _ ih =>
    cases h'
    case here       => cases (hz'.not_answered ha).symm.trans hf
    case next hl' _ => exact absurd hl' ha.not_next
    case branch ha' hl' hf' hp =>
      cases ha.unique ha'
      cases hf.symm.trans hf'
      cases hl.symm.trans hl'
      have ⟨hn, hd, h⟩ := ih hp hz
      exact ⟨congrArg _ hn, congrArg _ hd, h⟩

-- How a path goes on from a spot: which positions it comes by, and that it is a path indeed.
def Onward (g : Graph) (z : NodeId) (f' : Feed) : Spot → Feed → List Event → Prop
  | .within n k, f, es =>
    z = n ∧ k = 0 ∧ es = [] ∧ f' = f ∨
    ∃ ns, g.Path n f (n :: ns) (decisions es) z f' ∧
      placements es = (g.positions n).drop k ++ ns.flatMap g.positions
  | .on n side, f, es =>
    ∃ m ns, g.Leads (n, .branch side) m ∧ g.Path m f ns (decisions es) z f' ∧
      placements es = ns.flatMap g.positions

theorem Onward.path (h : g.Onward z f' (.within n 0) f es) :
    ∃ ns, g.Path n f ns (decisions es) z f' ∧ placements es = ns.flatMap g.positions := by
  cases h
  case inl h =>
    have ⟨hz, _, he, hf⟩ := h
    subst hz he hf
    exact ⟨[], .here, rfl⟩
  case inr h =>
    have ⟨ns, hp, he⟩ := h
    exact ⟨n :: ns, hp, he⟩

theorem Walks.onward (h : g.Walks s f es s' f') (hs : s' = .within z 0) :
    g.Onward z f' s f es := by
  induction h
  case stay =>
    subst hs
    exact .inl ⟨rfl, rfl, rfl, rfl⟩
  case place hi _ ih =>
    cases ih hs
    case inl h => cases h.2.1
    case inr h =>
      have ⟨ns, hp, he⟩ := h
      refine .inr ⟨ns, hp, ?_⟩
      rw [List.drop_eq_getElem?_toList_append, hi, placements_placed, he]
      rfl
  case follow hl hk _ ih =>
    have ⟨ns, hp, he⟩ := (ih hs).path
    refine .inr ⟨ns, .next hl hp, ?_⟩
    rw [← hk, List.drop_length]
    exact he
  case ask hn hf _ ih =>
    have ⟨m, ns, hl, hp, he⟩ := ih hs
    refine .inr ⟨ns, .branch ⟨_, _, _, hn⟩ hf hl hp, ?_⟩
    simp [he, positions, hn, Node.positions]
  case take hl _ ih =>
    have ⟨ns, hp, he⟩ := (ih hs).path
    exact ⟨_, ns, hl, hp, he⟩

end Graph

namespace Summary

-- A path from the start that goes as far as it can with the answers of a feed.
def Runs (s : Summary) (feed : Feed) (ns : List NodeId) (ds : List (Option Syntax.Id × Bool))
    (outcome : Outcome) (feed' : Feed) : Prop :=
  ∃ n, s.graph.Path s.start feed ns ds n feed' ∧ s.graph.Halts n feed' outcome

theorem Runs.unique {s : Summary} (h : s.Runs feed ns ds o f₁) (h' : s.Runs feed ns' ds' o' f₂) :
    ns = ns' ∧ ds = ds' ∧ o = o' ∧ f₁ = f₂ := by
  have ⟨_, hp, hz⟩ := h
  have ⟨_, hp', hz'⟩ := h'
  have ⟨hn, hd, he, hf⟩ := hp.unique hp' hz hz'
  subst he hf
  exact ⟨hn, hd, hz.unique hz', rfl⟩

end Summary
end RoutineFlow.Flow
