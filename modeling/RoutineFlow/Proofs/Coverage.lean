import RoutineFlow.Flow.Summary
import RoutineFlow.Proofs.Reach
import RoutineFlow.Proofs.Survey

-- No position is lost and none is placed twice. The positions of a finished graph are counted along
-- the layout of the routine body: whatever the flow comes by is placed, passed over because it only
-- leads to its parts, or part of what was left out.

namespace RoutineFlow.Flow

open Syntax (Tree Form deserted)

variable {g : Graph} {t : Tree} {task : Task} {lo mid hi : Nat} {i x : Syntax.Id} {id : NodeId}
  {ends ends' left sides : List LooseEnd} {e : LooseEnd} {dead : List Syntax.Id} {s : Summary}
  {settings : Settings} {scope d : Syntax.Id} {form : Form} {on : Bool}

namespace Graph

-- The positions of the nodes that are numbered below `n`.
def positionsBelow (g : Graph) (n : Nat) : List Syntax.Id :=
  (List.range n).flatMap fun i => g.positions ⟨i⟩

-- What is placed behind an end later on.
def rest (g : Graph) : LooseEnd → List Syntax.Id
  | .block node passed .. => (g.positions node).drop passed
  | .side ..              => []

def rests (g : Graph) (ends : List LooseEnd) : List Syntax.Id :=
  ends.flatMap g.rest

theorem positionsBelow_succ (g : Graph) (n : Nat) :
    g.positionsBelow (n + 1) = g.positionsBelow n ++ g.positions ⟨n⟩ := by
  simp [positionsBelow, List.range_succ]

@[simp]
theorem rests_nil (g : Graph) : g.rests [] = [] :=
  rfl

theorem rests_cons (g : Graph) (e : LooseEnd) (ends : List LooseEnd) :
    g.rests (e :: ends) = g.rest e ++ g.rests ends :=
  rfl

@[simp]
theorem rests_append (g : Graph) (ends ends' : List LooseEnd) :
    g.rests (ends ++ ends') = g.rests ends ++ g.rests ends' :=
  List.flatMap_append

theorem rests_eq_nil (h : ∀ e ∈ ends, g.rest e = []) : g.rests ends = [] :=
  List.flatMap_eq_nil_iff.mpr h

theorem Arrives.rest_eq_nil (h : g.Arrives id e) : g.rest e = [] := by
  cases e
  case block => exact List.drop_eq_nil_of_le (Nat.le_of_eq h.2)
  case side  => rfl

theorem mem_ids_of_mem_positions (h : x ∈ g.positions id) : id ∈ g.ids := by
  cases hn : g.node? id
  case none => simp [positions, hn] at h
  case some => exact mem_ids_iff.mpr (lt_size_of_node? hn)

@[simp]
theorem rests_negate (g : Graph) (ends : List LooseEnd) :
    g.rests (ends.map .negate) = g.rests ends := by
  induction ends
  case nil          => rfl
  case cons e es ih =>
    have he : g.rest e.negate = g.rest e := by cases e <;> rfl
    simp only [rests, List.map_cons, List.flatMap_cons, he] at ih ⊢
    rw [ih]

end Graph

-- How many of `n` visits of a node place it.
def shown (t : Tree) (x : Syntax.Id) (n : Nat) : Nat :=
  if t.isPlaced x then n else 0

@[simp]
theorem shown_zero (t : Tree) (x : Syntax.Id) : shown t x 0 = 0 := by
  unfold shown
  split <;> rfl

@[simp]
theorem shown_add (t : Tree) (x : Syntax.Id) (m n : Nat) :
    shown t x (m + n) = shown t x m + shown t x n := by
  unfold shown
  split <;> rfl

theorem shown_self (hf : t.form? i = some form) (x : Syntax.Id) :
    shown t x ([i].count x) = if form.isPlaced then [i].count x else 0 := by
  by_cases hx : i = x
  case pos => subst hx; rw [shown, Tree.isPlaced_eq hf]
  case neg => simp [shown, hx]

@[simp]
theorem Graph.count_rests_join :
    (g.rests (if on then ends ++ ends' else ends' ++ ends)).count x =
      (g.rests ends).count x + (g.rests ends').count x := by
  cases on <;> simp [Nat.add_comm]

-- What happened to a node `x` while the nodes of `seen` were come by: the visits of it that were
-- not left out placed it, if it is a position at all.
structure Covers (g : Graph) (t : Tree) (x : Syntax.Id) (seen : List Syntax.Id) (lo : Nat)
    (ends : List LooseEnd) (hi : Nat) (ends' left : List LooseEnd) (dead : List Syntax.Id) :
    Prop where
  visits    : (t.visitsOf dead).count x ≤ seen.count x
  positions : (g.positionsBelow hi).count x + (g.rests ends).count x +
      shown t x ((t.visitsOf dead).count x) =
    (g.positionsBelow lo).count x + shown t x (seen.count x) +
      ((g.rests ends').count x + (g.rests left).count x)

namespace Covers

variable {seen seen' dead' : List Syntax.Id} {ends₁ ends₂ left' : List LooseEnd}

theorem trans (h : Covers g t x seen lo ends mid ends₁ left dead)
    (h' : Covers g t x seen' mid ends₂ hi ends' left' dead') (he : g.rests ends₁ = g.rests ends₂) :
    Covers g t x (seen ++ seen') lo ends hi ends' (left ++ left') (dead ++ dead') where
  visits    := by
    have hv  := h.visits
    have hv' := h'.visits
    simp
    omega
  positions := by
    have hp  := h.positions
    have hp' := h'.positions
    rw [he] at hp
    simp
    omega

theorem reorder (h : Covers g t x seen lo ends hi ends₁ left dead)
    (hc : (g.rests ends₁).count x + (g.rests left).count x =
      (g.rests ends').count x + (g.rests left').count x) :
    Covers g t x seen lo ends hi ends' left' dead where
  visits    := h.visits
  positions := by rw [← hc]; exact h.positions

-- Ends are put aside.
theorem aside (h : Covers g t x seen lo ends hi ends' left dead) :
    Covers g t x seen lo ends hi [] (ends' ++ left) dead :=
  h.reorder (by simp)

theorem nil : Covers g t x [] lo ends lo ends [] [] where
  visits    := Nat.le_refl _
  positions := by simp

-- A construct that only leads to its parts.
theorem pass (hf : t.form? i = some form) (hp : form.isPlaced = false) :
    Covers g t x [i] lo ends lo ends [] [] where
  visits    := by simp
  positions := by simp [shown_self hf, hp]

-- A new node that some ends lead to.
theorem join (ha : ∀ e ∈ ends, g.Arrives ⟨lo⟩ e) :
    Covers g t x [] lo ends (lo + 1) [.block ⟨lo⟩ 0 none false] [] [] where
  visits    := Nat.le_refl _
  positions := by
    rw [Graph.rests_eq_nil fun e hm => (ha e hm).rest_eq_nil, Graph.positionsBelow_succ]
    simp [Graph.rests, Graph.rest]

end Covers

namespace Graph

theorem Gathers.covers (h : g.Gathers lo ends hi e) : Covers g t x [] lo ends hi [e] [] [] := by
  cases h
  case sole    => exact .nil
  case join ha => exact .join ha

theorem Places.covers (h : g.Places i lo ends hi e) (hf : t.form? i = some form)
    (hp : form.isPlaced) : Covers g t x [i] lo ends hi [e] [] [] := by
  cases h
  case intro passed _ _ hg hi =>
    have ⟨hlt, hi⟩ := List.getElem?_eq_some_iff.mp hi
    have hd := List.drop_eq_getElem_cons hlt
    have hs : shown t x ([i].count x) = [i].count x := by rw [shown_self hf, if_pos hp]
    have hc := (hg.covers (t := t) (x := x)).positions
    refine ⟨Nat.zero_le _, ?_⟩
    simp only [rests, rest, List.flatMap_singleton, hd, hi] at hc ⊢
    rw [← List.singleton_append, List.count_append] at hc
    simp [hs] at hc ⊢
    omega

theorem Forks.rest_eq_nil (h : g.Forks labelled lo ends hi sides) : ∀ e ∈ sides, g.rest e = [] := by
  induction h
  case nil      => exact nofun
  case side ih  => exact List.forall_mem_cons.mpr ⟨rfl, ih⟩
  case block ih => exact List.forall_mem_cons.mpr ⟨rfl, List.forall_mem_cons.mpr ⟨rfl, ih⟩⟩

theorem Forks.rests_filter (h : g.Forks labelled lo ends hi sides) (p : LooseEnd → Bool) :
    g.rests (sides.filter p) = [] :=
  rests_eq_nil fun e hm => h.rest_eq_nil e (List.mem_filter.mp hm).1

theorem Forks.covers (h : g.Forks labelled lo ends hi sides) (p : LooseEnd → Bool) :
    Covers g t x [] lo ends hi (sides.filter p) [] [] := by
  have hc : Covers g t x [] lo ends hi sides [] [] := by
    induction h
    case nil     => exact .nil
    case side ih => exact ⟨Nat.le_refl _, ih.positions⟩
    case block ha hn _ ih =>
      have hp : g.positions ⟨_⟩ = [] := positions_eq hn
      have hc := ih.positions
      rw [positionsBelow_succ, hp, List.append_nil] at hc
      refine ⟨Nat.le_refl _, ?_⟩
      rw [rests_cons, ha.rest_eq_nil, List.nil_append]
      exact hc
  exact hc.reorder (by rw [h.rests_filter, rests_eq_nil h.rest_eq_nil])

end Graph

theorem visitsOf_node (hw : t.WellShaped) (hf : t.form? i = some form) :
    t.visitsOf (Task.node i).ids =
      if form.comesLast then t.visitsOf form.order ++ [i] else i :: t.visitsOf form.order := by
  rw [← hw.visits_eq hf]
  simp

theorem Laid.covers (hw : t.WellShaped) (h : Laid g t task lo ends hi ends' left dead) :
    Covers g t x (t.visitsOf task.ids) lo ends hi ends' left dead := by
  induction h
  case skipped => exact ⟨Nat.le_refl _, by simp⟩
  case nil     => exact .nil
  case cons ih₁ ih₂ => simpa using ih₁.trans ih₂ rfl
  case strict hf _ hp ih =>
    rw [visitsOf_node hw hf]
    simpa [Form.comesLast, Form.order, Form.parts] using ih.trans (hp.covers hf rfl) rfl
  case passing hf _ ih =>
    rw [visitsOf_node hw hf]
    simpa [Form.comesLast, Form.order, Form.parts] using ih.trans (.pass hf rfl) rfl
  case jump hf _ hp ih =>
    rw [visitsOf_node hw hf]
    have hc := ih.trans (hp.covers hf rfl) rfl
    refine .reorder (by simpa [Form.comesLast, Form.order, Form.parts] using hc) (by simp; omega)
  case block hf hp _ ih =>
    rw [visitsOf_node hw hf]
    simpa [Form.comesLast, Form.order, Form.parts] using (hp.covers hf rfl).trans ih rfl
  case parens hf hp _ ih =>
    rw [visitsOf_node hw hf]
    simpa [Form.comesLast, Form.order, Form.parts] using (hp.covers hf rfl).trans ih rfl
  case negation hf hp _ ih =>
    rw [visitsOf_node hw hf]
    have hc := (hp.covers hf rfl).trans ih rfl
    refine .reorder (by simpa [Form.comesLast, Form.order, Form.parts] using hc) (by simp)
  case shortCircuit hf _ hk _ ih₁ ih₂ =>
    rw [visitsOf_node hw hf]
    have hc := ((ih₁.trans (hk.covers _) rfl).trans ih₂ rfl).trans (.pass hf rfl) rfl
    refine .reorder (by simpa [Form.comesLast, Form.order, Form.parts] using hc) ?_
    simp [hk.rests_filter]
  case branchingOne hf hp _ hk _ ih₁ ih₂ =>
    rw [visitsOf_node hw hf]
    have hc := (((hp.covers hf rfl).trans ih₁ rfl).trans (hk.covers _) rfl).trans ih₂ rfl
    refine .reorder (by simpa [Form.comesLast, Form.order, Form.parts] using hc) ?_
    simp [hk.rests_filter]
  case branchingTwo hf hp _ hk _ _ ih₁ ih₂ ih₃ =>
    rw [visitsOf_node hw hf]
    have hc := (((hp.covers hf rfl).trans ih₁ rfl).trans (hk.covers _) rfl).trans ih₂ rfl
    have hc' := hc.aside.trans ih₃ (by rw [hk.rests_filter]; rfl)
    refine .reorder (by simpa [Form.comesLast, Form.order, Form.parts] using hc') ?_
    simp
    omega
  case whileLoop hf hp _ hk _ _ ha ih₁ ih₂ =>
    rw [visitsOf_node hw hf]
    have hc := (((hp.covers hf rfl).trans ih₁ rfl).trans (hk.covers _) rfl).trans ih₂ rfl
    refine .reorder (by simpa [Form.comesLast, Form.order, Form.parts] using hc) ?_
    simp [hk.rests_filter, Graph.rests_eq_nil fun e he => (ha e he).rest_eq_nil]
  case doWhileLoop hf hp ha _ _ _ hk _ ih₁ ih₂ =>
    rw [visitsOf_node hw hf]
    have hc := ((((hp.covers hf rfl).trans (.join (List.forall_mem_singleton.mpr ha)) rfl).trans
      ih₁ rfl).trans ih₂ rfl).trans (hk.covers (!·.hasSense true)) rfl
    simpa [Form.comesLast, Form.order, Form.parts] using hc
  case forLoop hf hp _ hg _ hk _ _ _ ha ih₁ ih₂ ih₃ ih₄ =>
    rw [visitsOf_node hw hf]
    have hc := (((hp.covers hf rfl).trans ih₁ rfl).trans hg.covers rfl).trans ih₂ rfl
    have hc' := ((hc.trans (hk.covers _) rfl).trans ih₃ rfl).trans ih₄ rfl
    refine .reorder (by simpa [Form.comesLast, Form.order, Form.parts] using hc') ?_
    simp [hk.rests_filter, Graph.rests_eq_nil fun e he => (ha e he).rest_eq_nil]

namespace Summary

-- What becomes of the nodes of a routine body. Each of them is a position of exactly one block,
-- once, unless it only leads to its parts or belongs to what was left out; nothing is left out
-- twice.
structure Partitions (s : Summary) (t : Tree) (scope : Syntax.Id) : Prop where
  nodup       : s.positions.Nodup
  blockOf     : ∀ {x id}, s.blockOf? x = some id ↔ x ∈ s.graph.positions id
  positions   : ∀ {x}, x ∈ s.positions ↔
    t.Visited scope x ∧ t.isPlaced x ∧ ∀ d ∈ s.unreachable, ¬t.Below d x
  unreachable : s.unreachable.Pairwise fun d d' => ¬t.Below d d' ∧ ¬t.Below d' d

namespace Draws

theorem positions_start (h : s.Draws t scope) : s.graph.positions ⟨0⟩ = [] :=
  Graph.positions_eq (h.underway.start.mpr ⟨rfl, rfl⟩)

-- The end node, which is the last one, holds no position.
theorem positions_eq (h : s.Draws t scope) :
    s.positions = s.graph.positionsBelow s.finish.index := by
  have he : s.positions = s.graph.positionsBelow s.graph.size := by
    simp only [positions, Graph.positionsBelow, Graph.ids, List.flatMap_map]
    rfl
  have hf : s.graph.positions ⟨s.finish.index⟩ = [] := Graph.positions_eq h.finish
  rw [he, ← h.last, Graph.positionsBelow_succ, hf, List.append_nil]

theorem covers (hw : t.WellShaped) (h : s.Draws t scope) (x : Syntax.Id) :
    (t.visitsOf s.unreachable).count x ≤ (t.visits scope).count x ∧
    s.positions.count x + shown t x ((t.visitsOf s.unreachable).count x) =
      shown t x ((t.visits scope).count x) := by
  have ⟨ends, left, hl, ha⟩ := h.laid
  have hc := hl.covers hw (x := x)
  have hr := s.graph.rests_eq_nil fun e he => (ha e he).rest_eq_nil
  have h₁ : s.graph.positionsBelow 1 = [] := by simp [Graph.positionsBelow, h.positions_start]
  have h₂ : s.graph.rests [.first] = [] := by
    simp [Graph.rests, Graph.rest, LooseEnd.first, h.positions_start]
  obtain ⟨he, hj⟩ := List.append_eq_nil_iff.mp (Graph.rests_append .. ▸ hr)
  have hv := hc.visits
  have hp := hc.positions
  rw [← h.positions_eq, h₁, h₂, he, hj] at hp
  simp at hv hp
  exact ⟨hv, hp⟩

theorem visited_of_unreachable (hw : t.WellShaped) (h : s.Draws t scope) (hd : d ∈ s.unreachable) :
    t.Visited scope d := by
  have hm : d ∈ t.visitsOf s.unreachable :=
    List.mem_flatMap.mpr ⟨d, hd, Tree.self_mem_visits hw d⟩
  have hp := List.count_pos_iff.mpr hm
  exact hw.mem_visits_iff.mp
    (List.count_pos_iff.mp (Nat.lt_of_lt_of_le hp (h.covers hw d).1))

section

variable (hw : t.WellShaped) (hl : t.ListsOnce) (h : s.Draws t scope)
include hw hl h

theorem nodup_positions : s.positions.Nodup := by
  refine List.nodup_iff_count_le_one.mpr fun x => ?_
  have hs := List.nodup_iff_count_le_one.mp (hl.nodup_visits hw scope) x
  have hc := (h.covers hw x).2
  unfold shown at hc
  split at hc <;> omega

theorem nodup_visitsOf_unreachable : (t.visitsOf s.unreachable).Nodup := by
  refine List.nodup_iff_count_le_one.mpr fun x => ?_
  have hs := List.nodup_iff_count_le_one.mp (hl.nodup_visits hw scope) x
  exact Nat.le_trans (h.covers hw x).1 hs

theorem blockOf_eq_some_iff : s.blockOf? x = some id ↔ x ∈ s.graph.positions id := by
  have hb {id'} (he : s.blockOf? x = some id') : id' ∈ s.graph.ids ∧ x ∈ s.graph.positions id' := by
    have hc := List.find?_some (p := fun id => (s.graph.positions id).contains x) he
    exact ⟨List.mem_of_find?_eq_some he, List.contains_iff_mem.mp hc⟩
  refine ⟨fun he => (hb he).2, fun hx => ?_⟩
  have hi := Graph.mem_ids_of_mem_positions hx
  cases he : s.blockOf? x
  case none => exact absurd (List.contains_iff_mem.mpr hx) (List.find?_eq_none.mp he id hi)
  case some =>
    have ⟨hi', hx'⟩ := hb he
    exact congrArg some (Syntax.eq_of_nodup_flatMap (h.nodup_positions hw hl) hi' hi hx' hx)

-- What was left out leaves out all that the flow comes by below it.
theorem mem_visitsOf_unreachable_iff (hx : t.Visited scope x) :
    x ∈ t.visitsOf s.unreachable ↔ ∃ d ∈ s.unreachable, t.Below d x := by
  rw [Tree.visitsOf, List.mem_flatMap]
  refine exists_congr fun d => and_congr_right fun hd => hw.mem_visits_iff.trans ?_
  exact ⟨Tree.Visited.toBelow, hl.visited_of_below hw (h.visited_of_unreachable hw hd) hx⟩

theorem mem_positions_iff : x ∈ s.positions ↔
    t.Visited scope x ∧ t.isPlaced x ∧ ∀ d ∈ s.unreachable, ¬t.Below d x := by
  have ⟨_, hc⟩ := h.covers hw x
  have hu (hx : t.Visited scope x) := h.mem_visitsOf_unreachable_iff hw hl hx
  constructor
  case mp =>
    intro hm
    have hm := List.count_pos_iff.mpr hm
    have hp : t.isPlaced x := by
      by_contra hp
      rw [shown, shown, if_neg hp, if_neg hp] at hc
      omega
    rw [shown, shown, if_pos hp, if_pos hp] at hc
    have hx : t.Visited scope x := hw.mem_visits_iff.mp (List.count_pos_iff.mp (by omega))
    refine ⟨hx, hp, fun d hd hb => ?_⟩
    have hv := List.nodup_iff_count_le_one.mp (hl.nodup_visits hw scope) x
    have hn := List.count_pos_iff.mpr ((hu hx).mpr ⟨d, hd, hb⟩)
    omega
  case mpr =>
    intro ⟨hx, hp, hn⟩
    have hd : (t.visitsOf s.unreachable).count x = 0 := List.count_eq_zero.mpr fun hm =>
      have ⟨d, hd, hb⟩ := (hu hx).mp hm
      hn d hd hb
    have hv := List.count_pos_iff.mpr (hw.mem_visits_iff.mpr hx)
    rw [shown, shown, if_pos hp, if_pos hp] at hc
    exact List.count_pos_iff.mp (by omega)

theorem unreachable_apart : s.unreachable.Pairwise fun d d' => ¬t.Below d d' ∧ ¬t.Below d' d := by
  have hd : s.unreachable.Pairwise (Function.onFun List.Disjoint t.visits) :=
    (List.nodup_flatMap.mp (h.nodup_visitsOf_unreachable hw hl)).2
  have hv {d d'} (hm : d ∈ s.unreachable) (hm' : d' ∈ s.unreachable) (hb : t.Below d d') :
      d' ∈ t.visits d :=
    hw.mem_visits_iff.mpr (hl.visited_of_below hw (h.visited_of_unreachable hw hm)
      (h.visited_of_unreachable hw hm') hb)
  refine hd.imp_of_mem fun hm hm' hd => ⟨fun hb => ?_, fun hb => ?_⟩
  · exact hd (hv hm hm' hb) (Tree.self_mem_visits hw _)
  · exact hd (Tree.self_mem_visits hw _) (hv hm' hm hb)

theorem partitions : s.Partitions t scope where
  nodup       := h.nodup_positions hw hl
  blockOf     := h.blockOf_eq_some_iff hw hl
  positions   := h.mem_positions_iff hw hl
  unreachable := h.unreachable_apart hw hl

end
end Draws
end Summary

theorem analyze_partitions (hw : t.WellShaped) (hl : t.ListsOnce)
    (h : analyze t settings scope = .ok s) : s.Partitions t scope :=
  (draws_of_analyze h).partitions hw hl

theorem analyze_partitions_deserted :
    deserted.2.WellShaped ∧ deserted.2.ListsOnce ∧
    ∃ s, analyze deserted.2 { unreachable := .skip } deserted.1 = .ok s ∧
      s.unreachable = [⟨0⟩, ⟨9⟩, ⟨11⟩, ⟨13⟩] ∧ s.Partitions deserted.2 deserted.1 := by
  have hw : deserted.2.WellShaped := by decide +kernel
  have hl : deserted.2.ListsOnce := by decide +kernel
  have hu : (analyze deserted.2 { unreachable := .skip } deserted.1).toOption.map (·.unreachable) =
      some [⟨0⟩, ⟨9⟩, ⟨11⟩, ⟨13⟩] := by decide +kernel
  have ⟨s, h⟩ : ∃ s, analyze deserted.2 { unreachable := .skip } deserted.1 = .ok s :=
    exists_of_isSome (by decide +kernel)
  rw [h] at hu
  exact ⟨hw, hl, s, h, Option.some.inj hu, analyze_partitions hw hl h⟩

end RoutineFlow.Flow
