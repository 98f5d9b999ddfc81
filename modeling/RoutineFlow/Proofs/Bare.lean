import RoutineFlow.Proofs.Untested

-- Which blocks hold no position. A block is made for a position, for what is placed next in a loop,
-- or for the initializers of a loop to come together in; only where such a loop has no condition
-- does the block stay bare. The bare blocks are counted along the layout of the routine body.

namespace RoutineFlow

namespace Syntax

variable {t : Tree} {i x body : Id} {init update : List Id} {form : Form}

namespace Tree

-- A loop without a condition whose initializers leave off at the sides of a decision, or at several
-- ends.
def opensBare (t : Tree) (id : Id) : Bool :=
  match t.form? id with
  | some (.forLoop init none _ _) => init.getLast?.any fun last => (t.pending? last).isNone
  | _                             => false

theorem isUntested_of_opensBare (h : t.opensBare x) : t.isUntested x := by
  unfold opensBare at h
  split at h
  case h_1 hf => rw [isUntested_eq hf]; rfl
  case h_2    => cases h

theorem opensBare_eq_false (hf : t.form? i = some form) (hu : form.isUntested = false) :
    t.opensBare i = false := by
  refine Bool.eq_false_iff.mpr fun hb => ?_
  have hi := isUntested_of_opensBare hb
  rw [isUntested_eq hf, hu] at hi
  cases hi

theorem opensBare_eq (hf : t.form? i = some (.forLoop init none update body)) :
    t.opensBare i = (init.getLast?.elim (some false) t.pending?).isNone := by
  simp only [opensBare, hf]
  cases init.getLast? <;> rfl

-- Such loops among all that the flow comes by from some nodes.
def bareLoops (t : Tree) (ids : List Id) : Nat :=
  (t.visitsOf ids).countP t.opensBare

@[simp]
theorem bareLoops_nil (t : Tree) : t.bareLoops [] = 0 :=
  rfl

@[simp]
theorem bareLoops_append (t : Tree) (ids ids' : List Id) :
    t.bareLoops (ids ++ ids') = t.bareLoops ids + t.bareLoops ids' := by
  simp [bareLoops]

theorem WellShaped.bareLoops_eq (hw : t.WellShaped) (hf : t.form? i = some form) :
    t.bareLoops [i] = t.bareLoops form.order + if t.opensBare i then 1 else 0 := by
  simp only [bareLoops, visitsOf_cons, visitsOf_nil, List.append_nil, hw.visits_eq hf]
  split <;> simp [List.countP_cons]

end Tree
end Syntax

namespace Flow

open Syntax (Tree Form)

variable {g : Graph} {t : Tree} {task : Task} {lo mid hi k : Nat} {i scope : Syntax.Id}
  {n id : NodeId} {ends ends' left sides : List LooseEnd} {e : LooseEnd}
  {dead dead' ids ids' found : List Syntax.Id} {last? : Option Syntax.Id} {inverted : Bool}
  {s : Summary} {form : Form} {settings : Settings}

-- What goes on from a block puts its first position there.
theorem Graph.Begins.fills (h : g.Begins lo [.block n k last? inverted] hi found)
    (hb : g.HasBlock n) : k < (g.positions n).length := by
  obtain ⟨_, _, _, _, hp, -⟩ := h
  cases hp
  case intro hg hp =>
    cases hg
    case sole          => exact (List.getElem?_eq_some_iff.mp hp).1
    case join _ _ hn _ => exact absurd hb (hn rfl)

theorem Laid.fills_proper (hw : t.WellShaped) (hs : t.IsProper i)
    (h : Laid g t (.node i) lo [.block n k last? inverted] hi ends' left dead)
    (hb : g.HasBlock n) : k < (g.positions n).length :=
  (h.begins_proper hw hs nofun).fills hb

def Node.isBare : Node → Bool
  | block [] _ _ => true
  | _            => false

namespace Graph

def isBare (g : Graph) (id : NodeId) : Bool :=
  (g.node? id).any Node.isBare

-- How many of the nodes that are numbered below `n` are blocks without a position.
def baresBelow (g : Graph) (n : Nat) : Nat :=
  ((List.range n).map NodeId.mk).countP g.isBare

theorem baresBelow_succ (g : Graph) (n : Nat) :
    g.baresBelow (n + 1) = g.baresBelow n + if g.isBare ⟨n⟩ then 1 else 0 := by
  simp [baresBelow, List.range_succ, List.countP_cons]

theorem isBare_eq_false (h : 0 < (g.positions id).length) : g.isBare id = false := by
  unfold isBare positions at *
  cases hn : g.node? id
  case none => rfl
  case some node =>
    rw [hn] at h
    cases node
    case block ps _ _ =>
      cases ps
      case nil  => cases h
      case cons => rfl
    all_goals rfl

theorem HasBlock.isBare (h : g.HasBlock id) (hp : (g.positions id).length = 0) : g.isBare id := by
  obtain ⟨ps, _, _, hn⟩ := h
  rw [positions_eq hn] at hp
  obtain rfl : ps = [] := List.eq_nil_of_length_eq_zero hp
  simp [Graph.isBare, hn, Node.isBare]

-- The block is one before a condition without a label.
def Precedes (g : Graph) (id : NodeId) : Prop :=
  ∃ test, g.Leads (id, .next) test ∧ g.isBlank test

-- The bare blocks among the nodes from `lo` to below `hi`: there is one for each loop that opens
-- with it, unless that was left out, and what it leads to decides on nothing.
structure Bares (g : Graph) (t : Tree) (ids : List Syntax.Id) (lo hi : Nat)
    (dead : List Syntax.Id) : Prop where
  count : g.baresBelow hi + t.bareLoops dead = g.baresBelow lo + t.bareLoops ids
  tests : Between (fun id => g.isBare id → g.Precedes id) lo hi

namespace Bares

theorem nil : g.Bares t [] lo lo [] :=
  ⟨rfl, .nil⟩

theorem one (h : g.isBare ⟨lo⟩ = false) : g.Bares t [] lo (lo + 1) [] where
  count := by simp [baresBelow_succ, h]
  tests := .one fun hb => by rw [h] at hb; cases hb

theorem append (h : g.Bares t ids lo mid dead) (h' : g.Bares t ids' mid hi dead') :
    g.Bares t (ids ++ ids') lo hi (dead ++ dead') where
  count := by
    have hc  := h.count
    have hc' := h'.count
    simp
    omega
  tests := h.tests.append h'.tests

theorem after (h : g.Bares t ids lo mid dead) (h' : g.Bares t [] mid hi []) :
    g.Bares t ids lo hi dead := by
  simpa using h.append h'

-- A construct that opens with no bare block of its own.
theorem whole (h : g.Bares t form.order lo hi dead) (hw : t.WellShaped)
    (hf : t.form? i = some form) (hb : t.opensBare i = false) : g.Bares t [i] lo hi dead where
  count := by simp [h.count, hw.bareLoops_eq hf, hb]
  tests := h.tests

end Bares

theorem Places.bares (h : g.Places i lo ends hi e) : g.Bares t [] lo hi [] := by
  cases h
  case intro hg hp =>
    cases hg
    case sole => exact .nil
    case join =>
      have hk := (List.getElem?_eq_some_iff.mp hp).1
      exact .one (isBare_eq_false hk)

theorem Forks.bares (h : g.Forks labelled lo ends hi sides) : g.Bares t [] lo hi [] := by
  induction h
  case nil     => exact .nil
  case side ih => exact ih
  case block hn _ ih =>
    refine (Bares.one ?_).append ih
    simp [isBare, hn, Node.isBare]

end Graph

open Graph

section

variable {init update : List Syntax.Id} {condition? : Option Syntax.Id} {body : Syntax.Id}
  {header : LooseEnd} {m₁ m₂ m₃ m₄ m₅ : Nat} {ends₁ ends₂ left₁ left₂ : List LooseEnd}
  {dead₁ dead₂ : List Syntax.Id}
  (hw : t.WellShaped) (hf : t.form? i = some (.forLoop init condition? update body))
  (hp : g.Places i lo ends m₁ e) (hli : Laid g t (.parts init) m₁ [e] m₂ ends₁ left₁ dead₁)
  (hg : g.Gathers m₂ ends₁ m₃ header)
  (hlc : Laid g t (.parts condition?.toList) m₃ [header] m₄ ends₂ left₂ dead₂)
  (hk : g.Forks condition?.isSome m₄ ends₂ m₅ sides)
include hw hf hp hli hg hlc hk

-- The block before the condition of a loop is new only where the initializers come together, and
-- then it is for the condition to fill it.
theorem Laid.header_bares :
    g.baresBelow m₃ = g.baresBelow m₂ + (if t.opensBare i then 1 else 0) ∧
    Between (fun id => g.isBare id → g.Precedes id) m₂ m₃ := by
  have hc := hli.carries_parts hw (hw.valued_init hf) (List.cons_ne_nil _ _) hp.carries
  cases condition?
  case some c =>
    have hb : t.opensBare i = false := Tree.opensBare_eq_false hf rfl
    rw [hb]
    have hn : g.Bares t [] m₂ m₃ [] := by
      cases hg
      case sole => exact .nil
      case join hb _ _ _ =>
        cases hlc
        case cons hlc _ =>
          exact .one (isBare_eq_false (hlc.fills_proper hw (hw.isProper_of_tested hf (.head _)) hb))
    exact ⟨by simpa using hn.count, hn.tests⟩
  case none =>
    rw [Tree.opensBare_eq hf]
    cases hlc
    generalize init.getLast?.elim (some false) t.pending? = flag? at hc
    cases flag?
    case some =>
      obtain ⟨_, _, _, rfl, hb⟩ := hc
      cases hg
      case sole          => exact ⟨rfl, .nil⟩
      case join _ _ hn _ => exact absurd hb (hn rfl)
    case none =>
      cases hg
      case sole          => exact absurd rfl (hc _ _ _ _)
      case join hb _ _ _ =>
        cases hk
        case block hn ha _ =>
          have hbare := hb.isBare ha.2
          refine ⟨by simp [baresBelow_succ, hbare], .one fun _ => ⟨_, ha.1, ?_⟩⟩
          simp [isBlank, hn, Node.isBlank]

theorem Laid.bares_forLoop {m₆ : Nat} {dead₃ dead₄ : List Syntax.Id}
    (h₁ : g.Bares t init m₁ m₂ dead₁) (h₂ : g.Bares t condition?.toList m₃ m₄ dead₂)
    (h₃ : g.Bares t [body] m₅ m₆ dead₃) (h₄ : g.Bares t update m₆ hi dead₄) :
    g.Bares t [i] lo hi (dead₁ ++ dead₂ ++ dead₃ ++ dead₄) := by
  obtain ⟨hc, ht⟩ := Laid.header_bares hw hf hp hli hg hlc hk
  have hi := hp.bares.append h₁
  have hr := (h₂.after hk.bares).append (h₃.append h₄)
  refine ⟨?_, hi.tests.append (ht.append hr.tests)⟩
  have hi := hi.count
  have hr := hr.count
  rw [hw.bareLoops_eq hf]
  simp [Form.order] at hi hr ⊢
  omega

end

theorem Laid.bares (hw : t.WellShaped) (h : Laid g t task lo ends hi ends' left dead) :
    g.Bares t task.ids lo hi dead := by
  have hn {i form} (hf : t.form? i = some form) (hu : form.isUntested = false) :=
    Tree.opensBare_eq_false hf hu
  induction h
  case skipped       => exact ⟨rfl, .nil⟩
  case nil           => exact .nil
  case cons ih₁ ih₂  => exact ih₁.append ih₂
  case strict hf _ hp ih   => exact (ih.after hp.bares).whole hw hf (hn hf rfl)
  case jump hf _ hp ih     => exact (ih.after hp.bares).whole hw hf (hn hf rfl)
  case passing hf _ ih     => exact ih.whole hw hf (hn hf rfl)
  case block hf hp _ ih    => exact (hp.bares.append ih).whole hw hf (hn hf rfl)
  case parens hf hp _ ih   => exact (hp.bares.append ih).whole hw hf (hn hf rfl)
  case negation hf hp _ ih => exact (hp.bares.append ih).whole hw hf (hn hf rfl)
  case shortCircuit hf _ hk _ ih₁ ih₂ =>
    exact ((ih₁.after hk.bares).append ih₂).whole hw hf (hn hf rfl)
  case branchingOne hf hp _ hk _ ih₁ ih₂ =>
    have ht := hp.bares.append (ih₁.after hk.bares)
    exact (ht.append ih₂).whole hw hf (hn hf rfl)
  case branchingTwo hf hp _ hk _ _ ih₁ ih₂ ih₃ =>
    have ht := hp.bares.append (ih₁.after hk.bares)
    exact ((ht.append ih₂).append ih₃).whole hw hf (hn hf rfl)
  case whileLoop hf hp _ hk _ _ _ ih₁ ih₂ =>
    have ht := hp.bares.append (ih₁.after hk.bares)
    exact (ht.append ih₂).whole hw hf (hn hf rfl)
  case doWhileLoop hf hp _ hb hl _ hk _ ih₁ ih₂ =>
    -- The body fills the block that it is entered by.
    have hs := hw.isProper_part hf (by simp) (.head _)
    have he := Bares.one (t := t) (isBare_eq_false (hl.fills_proper hw hs hb))
    exact ((hp.bares.append (he.append ih₁)).append (ih₂.after hk.bares)).whole hw hf (hn hf rfl)
  case forLoop hf hp hli hg hlc hk _ _ _ _ ih₁ ih₂ ih₃ ih₄ =>
    exact Laid.bares_forLoop hw hf hp hli hg hlc hk ih₁ ih₂ ih₃ ih₄

def Node.isFilled : Node → Bool
  | block (_ :: _) _ _ => true
  | _                  => false

theorem Node.isBlock_cases (node : Node) :
    (if node.isBlock then 1 else 0) =
      (if node.isFilled then 1 else 0) + if node.isBare then 1 else 0 := by
  rcases node with _ | _ | ⟨_ | _, _, _⟩ | _ <;> rfl

namespace Summary

theorem length_basicBlocks (s : Summary) :
    s.basicBlocks.length =
      (s.nodesThat Node.isFilled).length + (s.nodesThat Node.isBare).length := by
  simp only [basicBlocks, nodesThat, ← List.countP_eq_length_filter]
  induction s.graph.ids
  case nil           => rfl
  case cons id _ ih =>
    simp only [List.countP_cons, ih]
    cases s.graph.node? id
    case none      => rfl
    case some node =>
      have hc := node.isBlock_cases
      simp only [Option.any_some]
      omega

namespace Draws

theorem isBare_start (h : s.Draws t scope) : s.graph.isBare ⟨0⟩ = false := by
  simp [Graph.isBare, h.underway.start.mpr ⟨rfl, rfl⟩, Node.isBare]

theorem isBare_finish (h : s.Draws t scope) : s.graph.isBare ⟨s.finish.index⟩ = false := by
  simp [Graph.isBare, h.finish, Node.isBare]

theorem bare_within (h : s.Draws t scope) (hm : id ∈ s.nodesThat Node.isBare) :
    id.Within 1 s.finish.index := by
  obtain ⟨hi, hb⟩ := List.mem_filter.mp hm
  have hlt := h.last ▸ mem_ids_iff.mp hi
  have hb : s.graph.isBare ⟨id.index⟩ := hb
  refine ⟨Nat.one_le_iff_ne_zero.mpr fun he => ?_,
    Nat.lt_of_le_of_ne (Nat.le_of_lt_succ hlt) fun he => ?_⟩
  case refine_1 => rw [he, h.isBare_start] at hb; cases hb
  case refine_2 => rw [he, h.isBare_finish] at hb; cases hb

theorem length_bares (h : s.Draws t scope) :
    (s.nodesThat Node.isBare).length = s.graph.baresBelow s.finish.index := by
  have hs : (s.nodesThat Node.isBare).length = s.graph.baresBelow s.graph.size :=
    List.countP_eq_length_filter.symm
  rw [hs, ← h.last, Graph.baresBelow_succ, h.isBare_finish]
  rfl

-- Loops that were not left out are placed.
theorem bareLoops_eq (hw : t.WellShaped) (h : s.Draws t scope) :
    s.positions.countP t.opensBare + t.bareLoops s.unreachable = t.bareLoops [scope] := by
  have hu (l : List Syntax.Id) :
      (l.filter t.isUntested).countP t.opensBare = l.countP t.opensBare := by
    rw [List.countP_filter]
    refine List.countP_congr fun x _ => ?_
    simpa using Tree.isUntested_of_opensBare
  have hp := (h.untested_perm hw).countP_eq t.opensBare
  rwa [t.untestedOf_eq, t.untestedOf_eq, List.countP_append, hu, hu, hu] at hp

end Draws
end Summary

theorem analyze_bare (hw : t.WellShaped) (h : analyze t settings scope = .ok s) :
    (s.nodesThat Node.isBare).length = s.positions.countP t.opensBare ∧
    (∀ id ∈ s.nodesThat Node.isBare, s.graph.Precedes id) ∧
    s.stats.basicBlocks =
      (s.nodesThat Node.isFilled).length + s.positions.countP t.opensBare := by
  have hd := draws_of_analyze h
  obtain ⟨ends, left, hl, _⟩ := hd.laid
  have hb := hl.bares hw
  have hlen : (s.nodesThat Node.isBare).length = s.positions.countP t.opensBare := by
    have hc := hb.count
    have hp := hd.bareLoops_eq hw
    have h₁ : s.graph.baresBelow 1 = 0 := by simp [Graph.baresBelow, hd.isBare_start]
    rw [hd.length_bares]
    simp only [Task.ids, h₁] at hc
    omega
  refine ⟨hlen, fun id hm => ?_, ?_⟩
  case refine_1 =>
    have ⟨hlo, hhi⟩ := hd.bare_within hm
    exact hb.tests id.index hlo hhi (List.mem_filter.mp hm).2
  case refine_2 => rw [← hlen]; exact s.length_basicBlocks

open Syntax Build in
-- { for (a && b; ;) { c(); } }
def gated : Syntax.Id × Tree :=
  gate.run .empty
where
  gate : Syntax.Build Syntax.Id := do
    let start ← and (← identifier "a") (← identifier "b")
    let body  ← block [← call none "c" []]
    block [← forStmt [start] none [] body]

theorem analyze_bare_gated :
    gated.2.WellShaped ∧
    ∃ s, analyze gated.2 {} gated.1 = .ok s ∧ s.positions = [⟨6⟩, ⟨5⟩, ⟨0⟩, ⟨1⟩, ⟨4⟩, ⟨3⟩] ∧
      gated.2.opensBare ⟨5⟩ ∧ (s.nodesThat Node.isBare).length = 1 ∧
      s.stats.basicBlocks = (s.nodesThat Node.isFilled).length + 1 := by
  have hw : gated.2.WellShaped := by decide +kernel
  have hp : (analyze gated.2 {} gated.1).toOption.map (·.positions) =
      some [⟨6⟩, ⟨5⟩, ⟨0⟩, ⟨1⟩, ⟨4⟩, ⟨3⟩] := by decide +kernel
  have ⟨s, h⟩ : ∃ s, analyze gated.2 {} gated.1 = .ok s := exists_of_isSome (by decide +kernel)
  rw [h] at hp
  have hp : s.positions = [⟨6⟩, ⟨5⟩, ⟨0⟩, ⟨1⟩, ⟨4⟩, ⟨3⟩] := Option.some.inj hp
  have hc : s.positions.countP gated.2.opensBare = 1 := by
    rw [hp]
    decide +kernel
  obtain ⟨hb, -, hs⟩ := analyze_bare hw h
  exact ⟨hw, s, h, hp, by decide +kernel, hb.trans hc, by rw [hs, hc]⟩

-- The block in which `a && b` comes together holds nothing, but is counted.
theorem not_filled_gated :
    gated.2.WellShaped ∧
    ∃ s, analyze gated.2 {} gated.1 = .ok s ∧
      s.graph.node? ⟨4⟩ = some (.block [] (some ⟨5⟩) false) ∧
      s.stats.basicBlocks = 4 ∧ s.nodesThat Node.isFilled = [⟨1⟩, ⟨3⟩, ⟨6⟩] := by
  have hw : gated.2.WellShaped := by decide +kernel
  have ⟨s, h⟩ : ∃ s, analyze gated.2 {} gated.1 = .ok s := exists_of_isSome (by decide +kernel)
  have hs : (analyze gated.2 {} gated.1).toOption.any fun s =>
      s.graph.node? ⟨4⟩ = some (.block [] (some ⟨5⟩) false) ∧
      s.stats.basicBlocks = 4 ∧ s.nodesThat Node.isFilled = [⟨1⟩, ⟨3⟩, ⟨6⟩] := by
    decide +kernel
  rw [h] at hs
  exact ⟨hw, s, h, of_decide_eq_true hs⟩

end Flow
end RoutineFlow
