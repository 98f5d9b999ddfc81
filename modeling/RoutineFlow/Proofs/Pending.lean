import RoutineFlow.Proofs.Passage
import RoutineFlow.Proofs.Simulation
import RoutineFlow.Proofs.Survey

-- Negations that are still pending where an expression leaves off. A negation swaps the sides of
-- the next decision, and an expression that ends in one block leaves it to what follows: the flag
-- of that block tells whether the number of negations around its last position is odd.

namespace RoutineFlow

namespace Syntax

variable {id : Id} {form : Form}

namespace Form

-- None where several ends come together, which spends the flags.
def pending? (part : Id → Option Bool) : Form → Option Bool
  | parens inner                   => part inner
  | negation operand               => (part operand).map (!·)
  | shortCircuit .. | branching .. => none
  | _                              => some false

theorem pending?_congr {part part' : Id → Option Bool}
    (h : ∀ p ∈ form.parts, part p = part' p) : form.pending? part = form.pending? part' := by
  cases form
  case parens inner     => exact h inner (.head _)
  case negation operand => simp only [pending?, h operand (.head _)]
  all_goals rfl

end Form

namespace Tree

def pending : Scheme (Option Bool) where
  missing _     := none
  make _ kind v := kind.form.pending? v
  congr h       := Form.pending?_congr h

def pending? (t : Tree) : Id → Option Bool :=
  t.fold pending

-- Whether a negation is pending behind initializers. It is the last one that matters.
def flips (t : Tree) (init : List Id) : Bool :=
  (init.getLast?.elim (some false) t.pending?).getD false

theorem WellShaped.pending?_eq {t : Tree} (hw : t.WellShaped) (hf : t.form? id = some form) :
    t.pending? id = form.pending? t.pending? := by
  have ⟨kind, hk, he⟩ := Option.map_eq_some_iff.mp hf
  subst he
  exact hw.fold_eq pending hk

-- What initializes a loop is an expression or a declaration.
theorem WellShaped.valued_init {t : Tree} (hw : t.WellShaped)
    (hf : t.form? id = some (.forLoop init condition? update body)) :
    ∀ i ∈ init, t.Valued true i := by
  obtain ⟨kind, hk, he⟩ := Option.map_eq_some_iff.mp hf
  cases kind
  case forStmt =>
    cases he
    exact fun i hi => hw.valued (hw.operands hk (by simp [Kind.operands, hi]))
  case binary op _ _ => cases op <;> cases he
  case unary op _    => cases op <;> cases he
  all_goals cases he

end Tree
end Syntax

namespace Flow

open Syntax (Tree Form)

variable {g : Graph} {t : Tree} {task : Task} {lo mid hi : Nat} {i : Syntax.Id}
  {ends ends' left sides : List LooseEnd} {e : LooseEnd} {dead ids : List Syntax.Id}
  {flag? : Option Bool}

namespace Graph

-- The ends are a single block that has the flag, or no single block.
def Carries (g : Graph) (ends : List LooseEnd) : Option Bool → Prop
  | some flag => ∃ node passed last?, ends = [.block node passed last? flag] ∧ g.HasBlock node
  | none      => ∀ node passed last? flag, ends ≠ [.block node passed last? flag]

theorem Carries.negate (h : g.Carries ends flag?) :
    g.Carries (ends.map .negate) (flag?.map (!·)) := by
  cases flag?
  case some =>
    obtain ⟨node, passed, last?, rfl, hb⟩ := h
    exact ⟨node, passed, last?, rfl, hb⟩
  case none =>
    rintro node passed last? flag he
    obtain ⟨e, rfl, he⟩ := List.map_eq_singleton_iff.mp he
    cases e
    case side  => cases he
    case block => exact h _ _ _ _ rfl

theorem Places.carries (h : g.Places i lo ends hi e) : g.Carries [e] (some false) := by
  cases h
  case intro hg _ =>
    obtain ⟨_, _, _, _, he, hb⟩ := hg.exists_block
    cases he
    exact ⟨_, _, _, rfl, hb⟩

theorem Carries.gathers {header : LooseEnd} (h : g.Carries ends flag?)
    (hg : g.Gathers lo ends hi header) :
    ∃ node passed last?,
      header = .block node passed last? (flag?.getD false) ∧ g.HasBlock node := by
  cases flag?
  case none =>
    cases hg
    case sole      => exact absurd rfl (h _ _ _ _)
    case join hb _ _ _ => exact ⟨_, _, _, rfl, hb⟩
  case some =>
    obtain ⟨node, passed, last?, rfl, hb⟩ := h
    cases hg
    case sole         => exact ⟨_, _, _, rfl, hb⟩
    case join _ _ hs _ => exact absurd hb (hs rfl)

theorem Carries.of_side (hm : e ∈ ends) (he : e.slot.2 ≠ .next) : g.Carries ends none := by
  rintro node passed last? flag rfl
  cases List.mem_singleton.mp hm
  exact he rfl

theorem Carries.of_append (h : ends ≠ []) (h' : ends' ≠ []) : g.Carries (ends ++ ends') none := by
  intro node passed last? flag he
  have hl := congrArg List.length he
  have hn := List.length_pos_of_ne_nil h
  have hn' := List.length_pos_of_ne_nil h'
  simp at hl
  omega

end Graph

open Graph

-- What a value goes on from, it goes on to.
theorem Laid.ends_ne_nil (h : Laid g t task lo ends hi ends' left dead)
    (hv : task.Valued t asked) (hn : ends ≠ []) : ends' ≠ [] := by
  rintro rfl
  have ⟨e, hm⟩ := List.exists_mem_of_ne_nil ends hn
  have hd : g.AllFollow (fun _ => False) ends := h.drains_value (fun _ _ _ => id) true hv nofun
  have ⟨_, _, hf⟩ := hd e hm
  exact hf

theorem Graph.Forks.exists_filter (h : g.Forks labelled lo ends hi sides)
    (ht : ∃ s ∈ sides, s.hasSense !value) :
    ∃ s ∈ sides.filter (!·.hasSense value), s.slot.2 ≠ .next := by
  obtain ⟨s, hm, hs⟩ := ht
  refine ⟨s, List.mem_filter.mpr ⟨hm, ?_⟩, h.label_ne_next s hm⟩
  cases s
  case block => rfl
  case side  => simp_all [LooseEnd.hasSense]

theorem Laid.carries (hw : t.WellShaped) (h : Laid g t task lo ends hi ends' left dead)
    (hv : task.Valued t true) (hn : ends ≠ []) :
    ∀ i ∈ task.ids, g.Carries ends' (t.pending? i) := by
  induction h
  case skipped => cases hn rfl
  case nil     => cases hv.1
  case cons    => cases hv.1
  case strict hf _ hp _ =>
    simpa [hw.pending?_eq hf, Form.pending?] using hp.carries
  case passing hf _ _ => cases (Tree.Valued.parts hv hf).1
  case parens hf _ _ ih =>
    have hi := ih (Tree.Valued.parts hv hf) (List.cons_ne_nil _ _) _ (.head _)
    simpa [hw.pending?_eq hf, Form.pending?] using hi
  case negation hf _ _ ih =>
    have hi := ih (Tree.Valued.parts hv hf) (List.cons_ne_nil _ _) _ (.head _)
    simpa [hw.pending?_eq hf, Form.pending?] using hi.negate
  case shortCircuit hf hl hk _ _ _ =>
    obtain ⟨s, hm, hs⟩ := hk.exists_filter (hl.tells (Tree.Valued.parts hv hf).1 hn hk _)
    refine List.forall_mem_singleton.mpr ?_
    rw [hw.pending?_eq hf]
    exact .of_side (LooseEnd.mem_join.mpr (.inr hm)) hs
  case branchingTwo hf hp hc hk hy hn' _ _ _ =>
    have ⟨hvc, hvy, hvn⟩ := Tree.Valued.parts hv hf
    have ht := hc.tells hvc (List.cons_ne_nil _ _) hk
    have ⟨s, hm, hs⟩ := ht true
    have ⟨s', hm', _⟩ := hk.exists_filter (ht !true)
    refine List.forall_mem_singleton.mpr ?_
    rw [hw.pending?_eq hf]
    refine .of_append (hy.ends_ne_nil hvy ?_) (hn'.ends_ne_nil hvn (List.ne_nil_of_mem hm'))
    exact List.ne_nil_of_mem (List.mem_filter.mpr ⟨hm, hs⟩)
  case block hf _ _ _              => exact (Tree.Valued.parts hv hf).elim
  case branchingOne hf _ _ _ _ _ _ => exact (Tree.Valued.parts hv hf).elim
  case whileLoop hf _ _ _ _ _ _ _ _ => exact (Tree.Valued.parts hv hf).elim
  case doWhileLoop hf _ _ _ _ _ _ _ _ _ => exact (Tree.Valued.parts hv hf).elim
  case forLoop hf _ _ _ _ _ _ _ _ _ _ _ _ _ => exact (Tree.Valued.parts hv hf).elim
  case jump hf _ _ _ => exact (Tree.Valued.parts hv hf).elim

-- Behind a list the last of its values counts, and behind none the ends are as they were.
theorem Laid.carries_parts (hw : t.WellShaped) (hv : ∀ i ∈ ids, t.Valued true i)
    (h : Laid g t (.parts ids) lo ends hi ends' left dead) (hn : ends ≠ [])
    (hc : g.Carries ends flag?) : g.Carries ends' (ids.getLast?.elim flag? t.pending?) := by
  induction ids generalizing lo ends left dead flag?
  case nil =>
    cases h
    exact hc
  case cons i ids ih =>
    have ⟨hi, his⟩ := List.forall_mem_cons.mp hv
    cases h
    case cons h₁ h₂ =>
      have hc₁ := h₁.carries hw hi hn i (.head _)
      have hc₂ := ih his h₂ (h₁.ends_ne_nil hi hn) hc₁
      rw [List.getLast?_cons]
      cases hl : ids.getLast? <;> simpa [hl] using hc₂

-- The block in which the initializers of a loop come together has their flag.
theorem Laid.exists_header {header : LooseEnd} (hw : t.WellShaped)
    (hv : ∀ i ∈ init, t.Valued true i) (hp : g.Places i lo ends mid e)
    (h : Laid g t (.parts init) mid [e] hi ends' left dead)
    (hg : g.Gathers hi ends' hi' header) :
    ∃ node passed last?, header = .block node passed last? (t.flips init) ∧ g.HasBlock node :=
  (h.carries_parts hw hv (List.cons_ne_nil _ _) hp.carries).gathers hg

end Flow
end RoutineFlow
