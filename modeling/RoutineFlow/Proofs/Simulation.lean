import RoutineFlow.Proofs.Reach
import RoutineFlow.Proofs.Tracking

-- A construct does in the graph what it does in the syntax tree. Where it is laid out, a walk that
-- comes in at one of its ends does what the construct means and leaves at another one.

namespace RoutineFlow.Meaning

open Syntax

variable {t : Tree} {i : Id} {form : Form} {part part' : Id → Meaning}

theorem runAll_cons (part : Id → Meaning) (i : Id) (is : List Id) :
    runAll part (i :: is) = (part i).run >>= fun _ => runAll part is :=
  rfl

theorem runAll_congr (is : List Id) (h : ∀ i ∈ is, part i = part' i) :
    runAll part is = runAll part' is := by
  induction is
  case nil => rfl
  case cons i is ih =>
    have ⟨hi, his⟩ := List.forall_mem_cons.mp h
    rw [runAll_cons, runAll_cons, hi, ih his]

-- A construct means what its parts mean.
theorem ofForm_congr (h : ∀ i ∈ form.parts, part i = part' i) :
    ofForm part i form = ofForm part' i form := by
  cases form
  case strict is          => simp only [ofForm, runAll_congr is h]
  case block is           => simp only [ofForm, runAll_congr is h]
  case jump is            => simp only [ofForm, runAll_congr is h]
  case passing is         => simp only [ofForm, runAll_congr is h]
  case parens inner       => simp only [ofForm, h inner (.head _)]
  case negation operand   => simp only [ofForm, h operand (.head _)]
  case shortCircuit l r   => simp only [ofForm, h l (.head _), h r (.tail _ (.head _))]
  case whileLoop c b      => simp only [ofForm, h c (.head _), h b (.tail _ (.head _))]
  case doWhileLoop b c    => simp only [ofForm, h b (.head _), h c (.tail _ (.head _))]
  case branching c y n?   =>
    cases n?
    case none   => simp only [ofForm, h c (.head _), h y (.tail _ (.head _))]
    case some n =>
      simp only [ofForm, h c (.head _), h y (.tail _ (.head _)), h n (.tail _ (.tail _ (.head _)))]
  case forLoop init c? update b =>
    simp only [Form.parts, List.forall_mem_append] at h
    obtain ⟨⟨⟨hi, hc⟩, hu⟩, hb⟩ := h
    have hi' := runAll_congr init hi
    have hu' := runAll_congr update hu
    cases c?
    case none   => simp only [ofForm, hi', hu', hb b (.head _), Option.elim_none]
    case some c => simp only [ofForm, hi', hu', hb b (.head _), hc c (.head _), Option.elim_some]

theorem ofNode_eq (hw : t.WellShaped) (hf : t.form? i = some form) :
    ofNode t i = ofForm (ofNode t) i form := by
  rw [ofNode, hf]
  exact ofForm_congr fun p hp => if_pos (hw.index_lt hf hp)

end RoutineFlow.Meaning

namespace RoutineFlow.Flow

open Syntax (Tree)
open Meaning

variable {g : Graph} {t : Tree} {task : Task} {lo mid hi : Nat} {list : Bool} {s s' : Spot}
  {ends ends' left left' sides : List LooseEnd} {e : LooseEnd} {dead : List Syntax.Id}
  {es es' : List Event} {i : Syntax.Id} {jumped : Spot → Prop} {m n : NodeId}

def AtEnd (ends : List LooseEnd) (s : Spot) : Prop :=
  ∃ e ∈ ends, s = e.spot

def AtSide (sides : List LooseEnd) (b : Bool) (s : Spot) : Prop :=
  ∃ e ∈ sides, e.hasSense b ∧ s = e.spot

-- Something was decided, and the walk stands at a side that has the value.
def Told (sides : List LooseEnd) (b : Bool) (es : List Event) (s : Spot) : Prop :=
  decisions es ≠ [] ∧ AtSide sides b s

theorem AtEnd.mono (h : AtEnd ends s) (hs : ends ⊆ ends') : AtEnd ends' s :=
  have ⟨e, hm, he⟩ := h
  ⟨e, hs hm, he⟩

theorem Told.after (h : Told sides b es' s) (es : List Event) : Told sides b (es ++ es') s := by
  refine ⟨?_, h.2⟩
  rw [decisions_append]
  exact fun hn => h.1 (List.append_eq_nil_iff.mp hn).2

namespace Sim

variable {script : Script α} {post : α → List Event → Spot → Prop}

theorem jump (h : jumped s) : Sim g list s (throw .jump : Script α) post jumped :=
  fun _ _ => ⟨[], s, h, .stay⟩

theorem leaving (h : Sim g list s script post (AtEnd left)) (hs : left ⊆ left') :
    Sim g list s script post (AtEnd left') :=
  h.mono (fun _ _ _ hp => hp) fun _ hj => hj.mono hs

-- With answers from a list a test may as well begin behind the block it began in.
theorem reenter {script : Script Bool} (hb : g.HasBlock n) (hn : g.Leads (n, .next) m)
    (h : Sim g true (.within n k) script (Told sides) (AtEnd [])) :
    Sim g true (.within m 0) script (Told sides) jumped := by
  intro log hl
  have h := h hl
  rcases hr : script log with ⟨(_ | on? | _) | b, log'⟩ <;> rw [hr] at h
  case error.jump =>
    have ⟨_, _, ⟨_, hm, _⟩, _⟩ := h
    cases hm
  case error.starved =>
    have ⟨hl, hf, es, c, ha, ht⟩ := h
    have ⟨es', hw, hd⟩ := ht.walks.reenter hb hn fun k he => by
      have ⟨_, _, _, hb⟩ := hb
      have ⟨_, _, _, ha⟩ := ha
      cases he
      cases ha.symm.trans hb
    exact ⟨hl, hf, es', c, ha, hw, ht.events.of_decisions hd⟩
  case error.endless => exact h
  case ok =>
    have ⟨es, s', ⟨hd', e, hm, hs, he⟩, ht⟩ := h
    have ⟨es', hw, hd⟩ := ht.walks.reenter hb hn fun k hk => by
      cases e
      case block => cases hs
      case side  => cases he.symm.trans hk
    exact ⟨es', s', ⟨hd ▸ hd', e, hm, hs, he⟩, hw, ht.events.of_decisions hd⟩

end Sim

namespace Graph

theorem Gathers.silent (h : g.Gathers lo ends hi e) (hs : AtEnd ends s) : g.Silent s e.spot := by
  have ⟨e', hm, he⟩ := hs
  subst he
  cases h
  case sole =>
    cases List.mem_singleton.mp hm
    exact .refl
  case join ha => exact (ha e' hm).silent

theorem Gathers.exists_block (h : g.Gathers lo ends hi e) :
    ∃ n k last? inverted, e = .block n k last? inverted ∧ g.HasBlock n := by
  cases h
  case sole hb         => exact ⟨_, _, _, _, rfl, hb⟩
  case join hb _ _ _   => exact ⟨_, _, _, _, rfl, hb⟩

theorem Places.exists_block (h : g.Places i lo ends hi e) :
    ∃ n k last? inverted, e = .block n k last? inverted ∧ g.HasBlock n := by
  cases h
  case intro hg _ =>
    have ⟨_, _, _, _, he, hb⟩ := hg.exists_block
    cases he
    exact ⟨_, _, _, _, rfl, hb⟩

theorem Places.sim (h : g.Places i lo ends hi e) (hs : AtEnd ends s) :
    Sim g list s (Script.place i) (fun _ _ => AtEnd [e]) jumped := by
  cases h
  case intro hg hp =>
    exact .behind (hg.silent hs) ((Sim.place hp).imp fun _ _ _ he => ⟨_, .head _, he⟩)

-- Behind its own position a construct is asked for its truth.
theorem Places.asks (h : g.Places i lo ends mid e) (hk : g.Forks true lo' [e] hi sides) :
    Sim g list e.spot (Script.ask (some i)) (Told sides) jumped := by
  cases h
  case intro =>
    cases hk
    case block hn ha hs =>
      cases hs
      refine .behind ha.silent (.imp (.ask ⟨_, _, _, hn⟩) fun b es s ⟨hd, he⟩ => ⟨hd, ?_⟩)
      cases b
      case true  => exact ⟨_, .head _, rfl, he⟩
      case false => exact ⟨_, .tail _ (.head _), rfl, he⟩

-- The sides of some ends stay with them.
theorem Forks.split (h : g.Forks labelled lo (ends ++ ends') hi sides) :
    ∃ mid sides₁ sides₂, sides = sides₁ ++ sides₂ ∧
      g.Forks labelled lo ends mid sides₁ ∧ g.Forks labelled mid ends' hi sides₂ := by
  induction ends generalizing lo sides
  case nil => exact ⟨lo, [], sides, rfl, .nil, h⟩
  case cons ih =>
    cases h
    case side hk =>
      have ⟨mid, sides₁, sides₂, he, h₁, h₂⟩ := ih hk
      exact ⟨mid, _, sides₂, congrArg (_ :: ·) he, .side h₁, h₂⟩
    case block ha hn hk =>
      have ⟨mid, sides₁, sides₂, he, h₁, h₂⟩ := ih hk
      exact ⟨mid, _, sides₂, congrArg (_ :: _ :: ·) he, .block ha hn h₁, h₂⟩

theorem Forks.exists_join {on : Bool}
    (h : g.Forks labelled lo (if on then ends ++ ends' else ends' ++ ends) hi sides) :
    ∃ lo' hi' sides', sides' ⊆ sides ∧ g.Forks labelled lo' ends hi' sides' := by
  cases on
  case true =>
    have ⟨_, _, _, he, hk, _⟩ := h.split
    exact ⟨_, _, _, he ▸ List.subset_append_left .., hk⟩
  case false =>
    have ⟨_, _, _, he, _, hk⟩ := h.split
    exact ⟨_, _, _, he ▸ List.subset_append_right .., hk⟩

-- An end that is a side already stays as it is.
theorem Forks.side_mem (h : g.Forks labelled lo ends hi sides) (hm : e ∈ ends)
    (hs : e.hasSense b) : e ∈ sides := by
  induction h
  case nil => cases hm
  case side ih =>
    cases hm
    case head    => exact .head _
    case tail hm => exact .tail _ (ih hm)
  case block ih =>
    cases hm
    case head    => cases hs
    case tail hm => exact .tail _ (.tail _ (ih hm))

theorem Forks.of_negate (h : g.Forks labelled lo (ends.map .negate) hi sides) :
    ∃ sides', sides = sides'.map .negate ∧ g.Forks labelled lo ends hi sides' := by
  induction ends generalizing lo sides
  case nil =>
    cases h
    exact ⟨[], rfl, .nil⟩
  case cons e ends ih =>
    cases e
    case side =>
      cases h
      case side hk =>
        have ⟨sides', he, hk⟩ := ih hk
        exact ⟨_, by rw [he]; rfl, .side hk⟩
    case block inverted =>
      cases h
      case block hn ha hk =>
        have ⟨sides', he, hk⟩ := ih hk
        refine ⟨_, ?_, .block ha hn hk⟩
        simp [he, LooseEnd.negate]

end Graph

theorem Told.of_negate (h : Told sides b es s) : Told (sides.map .negate) (!b) es s := by
  have ⟨hd, e, hm, hs, he⟩ := h
  refine ⟨hd, e.negate, List.mem_map_of_mem hm, ?_⟩
  cases e
  case block => cases hs
  case side  => simp_all [LooseEnd.hasSense, LooseEnd.negate, LooseEnd.spot]

theorem Told.mono (h : Told sides b es s) (hs : sides ⊆ ends) : Told ends b es s :=
  have ⟨hd, e, hm, h⟩ := h
  ⟨hd, e, hs hm, h⟩

-- The walk goes on from the sides that a decision leads to, or leaves by the others.
theorem AtSide.atEnd (h : AtSide sides b s) (hb : b = on) :
    AtEnd (sides.filter (·.hasSense on)) s :=
  have ⟨e, hm, hs, he⟩ := h
  ⟨e, List.mem_filter.mpr ⟨hm, hb ▸ hs⟩, he⟩

theorem LooseEnd.mem_filter_not (hm : e ∈ sides) (hs : e.hasSense b) (hb : b ≠ on) :
    e ∈ sides.filter (!·.hasSense on) := by
  refine List.mem_filter.mpr ⟨hm, ?_⟩
  cases e
  case block => cases hs
  case side  => simp_all [LooseEnd.hasSense]

theorem AtSide.atEnd_not (h : AtSide sides b s) (hb : b ≠ on) :
    AtEnd (sides.filter (!·.hasSense on)) s :=
  have ⟨e, hm, hs, he⟩ := h
  ⟨e, e.mem_filter_not hm hs hb, he⟩

-- A decision that ends a construct is the decision of the construct.
theorem Told.settles {sides' : List LooseEnd} (h : Told sides b es s) (hb : b ≠ on)
    (hs : sides.filter (!·.hasSense on) ⊆ ends) (hk : g.Forks labelled lo ends hi sides') :
    Told sides' b es s :=
  have ⟨hd, e, hm, hv, he⟩ := h
  ⟨hd, e, hk.side_mem (hs (e.mem_filter_not hm hv hb)) hv, hv, he⟩

-- A loop tests in its header at first, and where it comes back it is as good as in the header.
theorem Sim.loop_header {test : Script Bool} {round : Script Unit} (hb : g.HasBlock n)
    (hn : g.Leads (n, .next) m) (ht : Sim g true (.within n k) test (Told sides) (AtEnd []))
    (hr : ∀ {s}, AtEnd (sides.filter (·.hasSense true)) s →
      Sim g true s round (fun _ _ => AtEnd ends) jumped)
    (ha : ∀ e ∈ ends, g.Arrives m e) :
    Sim g true (.within n k) (Script.loop test round)
      (fun _ _ => AtEnd (sides.filter (!·.hasSense true))) jumped := by
  have ht' : ∀ s, s = .within n k ∨ s = .within m 0 → Sim g true s test (Told sides) jumped := by
    intro s hs
    cases hs
    case inl he =>
      subst he
      exact ht.mono (fun _ _ _ h => h) fun _ ⟨_, hm, _⟩ => nomatch hm
    case inr he =>
      subst he
      exact ht.reenter hb hn
  have hr' : ∀ s, AtSide sides true s →
      Sim g true s round (fun _ _ s' => s' = .within n k ∨ s' = .within m 0) jumped := by
    intro s hs
    refine (hr (hs.atEnd rfl)).onto (fun _ _ _ ⟨e, hm, he⟩ => ⟨_, .inr rfl, ?_⟩)
      fun s' hj => ⟨s', hj, .refl⟩
    subst he
    exact (ha e hm).silent
  exact (Sim.loop ht' hr' (.inl rfl)).imp fun _ _ _ hs => hs.atEnd_not Bool.false_ne_true

end RoutineFlow.Flow
