import RoutineFlow.Proofs.Layout
import RoutineFlow.Proofs.Meaning

-- Walks through a flow graph. A walk passes the positions of the blocks it comes by, and at a
-- condition it asks which side to take; the same feeds give the answers as in the runs of a syntax
-- tree.

namespace RoutineFlow.Meaning

@[simp]
theorem decisions_nil : decisions [] = [] :=
  rfl

@[simp]
theorem decisions_placed (i : Syntax.Id) (es : List Event) :
    decisions (.placed i :: es) = decisions es :=
  rfl

@[simp]
theorem decisions_asked (on? : Option Syntax.Id) (b : Bool) (es : List Event) :
    decisions (.asked on? b :: es) = (on?, b) :: decisions es :=
  rfl

@[simp]
theorem decisions_append (es es' : List Event) :
    decisions (es ++ es') = decisions es ++ decisions es' :=
  List.filterMap_append

@[simp]
theorem placements_placed (i : Syntax.Id) (es : List Event) :
    placements (.placed i :: es) = i :: placements es :=
  rfl

@[simp]
theorem placements_asked (on? : Option Syntax.Id) (b : Bool) (es : List Event) :
    placements (.asked on? b :: es) = placements es :=
  rfl

namespace Feed

def isList : Feed → Bool
  | answers _    => true
  | assignment _ => false

theorem isList_of_next? {f f' : Feed} (h : f.next? on? = some (b, f')) : f'.isList = f.isList := by
  rcases f with ⟨_ | _⟩ | _ <;> cases on? <;> simp [next?] at h <;> simp [← h.2, isList]

theorem left_of_next? {f f' : Feed} (h : f.next? on? = some (b, f')) (hl : f.isList) :
    f'.left + 1 = f.left := by
  rcases f with ⟨_ | _⟩ | _ <;> simp_all [next?, isList]
  simp [← h.2, left]

theorem exists_next? {f : Feed} (hl : f.isList = false) (i : Syntax.Id) :
    ∃ b, f.next? (some i) = some (b, f) := by
  cases f
  case answers      => cases hl
  case assignment w => exact ⟨w i, rfl⟩

end Feed
end RoutineFlow.Meaning

namespace RoutineFlow.Flow

open Meaning

-- Where a walk stands.
inductive Spot
  -- In a node, behind so many of its positions.
  | within (node : NodeId) (passed : Nat)
  -- On the way from a condition.
  | on     (node : NodeId) (branch : Branch)

def LooseEnd.spot : LooseEnd → Spot
  | block node passed _ _ => .within node passed
  | side node branch _    => .on node branch

@[simp]
theorem LooseEnd.spot_negate (e : LooseEnd) : e.negate.spot = e.spot := by
  cases e <;> rfl

namespace Graph

-- A condition that asks on the given position.
def Asks (g : Graph) (n : NodeId) (on? : Option Syntax.Id) : Prop :=
  ∃ truthy? falsy? first, g.node? n = some (.condition on? truthy? falsy? first)

inductive Walks (g : Graph) : Spot → Feed → List Event → Spot → Feed → Prop
  | stay : Walks g s f [] s f
  | place : (g.positions n)[k]? = some i → Walks g (.within n (k + 1)) f es s f' →
    Walks g (.within n k) f (.placed i :: es) s f'
  | follow : g.Leads (n, .next) m → (g.positions n).length = k → Walks g (.within m 0) f es s f' →
    Walks g (.within n k) f es s f'
  | ask : g.node? n = some (.condition on? truthy? falsy? first) → f.next? on? = some (b, f₁) →
    Walks g (.on n (.ofValue b)) f₁ es s f' → Walks g (.within n 0) f (.asked on? b :: es) s f'
  | take : g.Leads (n, .branch side) m → Walks g (.within m 0) f es s f' →
    Walks g (.on n side) f es s f'

-- Nothing is to be seen on the way.
def Silent (g : Graph) (s s' : Spot) : Prop :=
  ∀ f, g.Walks s f [] s' f

variable {g : Graph} {s s₁ s₂ : Spot} {f f₁ f₂ : Feed} {es es₁ es₂ : List Event} {m n : NodeId}
  {e : LooseEnd}

namespace Walks

theorem trans (h : g.Walks s f es₁ s₁ f₁) (h' : g.Walks s₁ f₁ es₂ s₂ f₂) :
    g.Walks s f (es₁ ++ es₂) s₂ f₂ := by
  induction h
  case stay             => exact h'
  case place hi _ ih    => exact .place hi (ih h')
  case follow hl hk _ ih => exact .follow hl hk (ih h')
  case ask hn hf _ ih   => exact .ask hn hf (ih h')
  case take hl _ ih     => exact .take hl (ih h')

theorem isList_eq (h : g.Walks s f es s₁ f₁) : f₁.isList = f.isList := by
  induction h
  case stay          => rfl
  case place ih      => exact ih
  case follow ih     => exact ih
  case ask hf _ ih   => exact ih.trans (Feed.isList_of_next? hf)
  case take ih       => exact ih

-- Every question takes one answer from a list.
theorem left_eq (h : g.Walks s f es s₁ f₁) (hl : f.isList) :
    f₁.left + (decisions es).length = f.left := by
  induction h
  case stay        => rfl
  case place ih    => exact ih hl
  case follow ih   => exact ih hl
  case take ih     => exact ih hl
  case ask hf _ ih =>
    have hd := ih ((Feed.isList_of_next? hf).trans hl)
    have hn := Feed.left_of_next? hf hl
    simp
    omega

-- A walk that leaves a block comes by what follows it, and decides nothing before.
theorem reenter (h : g.Walks (.within n k) f es s f') (hb : g.HasBlock n)
    (hl : g.Leads (n, .next) m) (hs : ∀ k, s ≠ .within n k) :
    ∃ es', g.Walks (.within m 0) f es' s f' ∧ decisions es' = decisions es := by
  generalize he : Spot.within n k = s₀ at h
  induction h generalizing k
  case stay => exact absurd he.symm (hs k)
  case place ih =>
    cases he
    exact ih hs rfl
  case follow hl' _ hw ih =>
    cases he
    cases hl.symm.trans hl'
    exact ⟨_, hw, rfl⟩
  case ask hn _ _ _ =>
    cases he
    have ⟨_, _, _, hb⟩ := hb
    cases hn.symm.trans hb
  case take => cases he

end Walks

theorem Silent.refl : g.Silent s s :=
  fun _ => .stay

theorem Arrives.silent (h : g.Arrives m e) : g.Silent e.spot (.within m 0) := by
  intro f
  cases e
  case block => exact .follow h.1 h.2 .stay
  case side  => exact .take h .stay

end Graph
end RoutineFlow.Flow
