import RoutineFlow.Flow.Summary
import RoutineFlow.Proofs.Reach

-- In the graph of a well-shaped tree every node lies on a path from the start node to the end node,
-- so a traversal from the start finds them all and every loop has an exit.

namespace RoutineFlow.Flow

open Syntax (Tree searching)

variable {g : Graph} {t : Tree} {settings : Settings} {scope : Syntax.Id} {s : Summary}
  {a b id : NodeId} {seen queue : List NodeId} {P : NodeId → Prop}

namespace Graph

theorem step_iff : g.Step a b ↔ b ∈ (g.successors a).map (·.2) := by
  constructor
  case mp  => exact fun ⟨_, hl⟩ => List.mem_map.mpr ⟨_, mem_successors_iff.mpr hl, rfl⟩
  case mpr =>
    intro hm
    have ⟨⟨label, _⟩, hs, he⟩ := List.mem_map.mp hm
    subst he
    exact ⟨label, mem_successors_iff.mp hs⟩

theorem nodup_explore (h : seen.Nodup) : (g.explore seen queue).Nodup := by
  fun_induction g.explore seen queue
  case case1       => exact h
  case case2 ih    => exact ih h
  case case3 hs _ _ ih =>
    refine ih (List.nodup_append.mpr ⟨h, by simp, ?_⟩)
    intro a ha b hb he
    cases List.mem_singleton.mp hb
    exact hs (he ▸ ha)

theorem explore_spreads (hP : g.Spreads P) (hs : ∀ a ∈ seen, P a) (hq : ∀ a ∈ queue, P a) :
    ∀ a ∈ g.explore seen queue, P a := by
  fun_induction g.explore seen queue
  case case1    => exact hs
  case case2 ih => exact ih hs fun a ha => hq a (.tail _ ha)
  case case3 ih =>
    have ⟨hi, hr⟩ := List.forall_mem_cons.mp hq
    refine ih (List.forall_mem_append.mpr ⟨hs, List.forall_mem_singleton.mpr hi⟩)
      (List.forall_mem_append.mpr ⟨hr, fun a ha => ?_⟩)
    exact hP (step_iff.mpr (List.mem_filter.mp ha).1) hi

-- What is found is closed under edges, if what was found before leads to it or to the queue.
theorem explore_closed (g : Graph) (seen queue : List NodeId)
    (hc : ∀ a ∈ seen, ∀ b, g.Step a b → b ∈ seen ++ queue) :
    (∀ a ∈ seen ++ queue, a ∈ g.explore seen queue) ∧
    ∀ a ∈ g.explore seen queue, ∀ b, g.Step a b → b ∈ g.explore seen queue := by
  fun_induction g.explore seen queue
  case case1 =>
    simp only [List.append_nil] at hc ⊢
    exact ⟨fun _ ha => ha, hc⟩
  case case2 hs ih =>
    have ⟨hm, hl⟩ := ih fun a ha b hb => by
      have hb' := hc a ha b hb
      grind
    exact ⟨fun a ha => hm a (by grind), hl⟩
  case case3 hs _ _ ih =>
    have ⟨hm, hl⟩ := ih fun a ha b hb => by
      have hb' := hc a
      have hn := step_iff.mp hb
      grind
    exact ⟨fun a ha => hm a (by grind), hl⟩

theorem nodup_ids (g : Graph) : g.ids.Nodup :=
  List.Pairwise.map NodeId.mk (fun _ _ hn he => hn (congrArg NodeId.index he)) List.nodup_range

theorem mem_traverse_iff : b ∈ g.traverse a ↔ g.Reaches a b := by
  constructor
  case mp =>
    exact explore_spreads (fun _ _ hs hr => hr.snoc hs) nofun
      (List.forall_mem_singleton.mpr .refl) b
  case mpr =>
    intro hr
    have ⟨hm, hc⟩ := g.explore_closed [] [a] nofun
    exact hr.preserves (fun hs ha => hc _ ha _ hs) (hm a (.head _))

theorem mem_predecessors_iff : a ∈ g.predecessors b ↔ g.Step a b := by
  have hs : (g.successors a).any (·.2 = b) ↔ g.Step a b := by
    rw [step_iff]
    simp
  rw [predecessors, List.mem_filter, hs]
  refine ⟨And.right, fun h => ⟨?_, h⟩⟩
  have ⟨_, hl⟩ := h
  have ⟨_, hn, _⟩ := Option.bind_eq_some_iff.mp hl
  exact mem_ids_iff.mpr (lt_size_of_node? hn)

end Graph

namespace Summary

structure Connected (s : Summary) : Prop where
  fromStart    : ∀ {id}, id.index < s.nodeCount → s.graph.Reaches s.start id
  toFinish     : ∀ {id}, id.index < s.nodeCount → s.graph.Reaches id s.finish
  traverse     : s.traverse.Perm s.graph.ids
  predecessors : s.graph.predecessors s.finish ≠ []

-- A property of the start node, the end node and all nodes between them.
theorem Draws.forall_node (h : s.Draws t scope) (h₀ : P s.start) (hb : Between P 1 s.finish.index)
    (hf : P s.finish) (hi : id.index < s.nodeCount) : P id := by
  have hl : s.finish.index + 1 = s.nodeCount := h.last
  rcases id with ⟨_ | i⟩
  case zero => rwa [h.start] at h₀
  case succ =>
    by_cases he : i + 1 = s.finish.index
    case pos => exact (NodeId.ext he : ⟨i + 1⟩ = s.finish) ▸ hf
    case neg => exact hb (i + 1) (Nat.le_add_left 1 i) (by simp at hi; omega)

theorem Draws.start_lt (h : s.Draws t scope) : s.start.index < s.nodeCount := by
  have hl : s.finish.index + 1 = s.nodeCount := h.last
  rw [h.start, ← hl]
  exact Nat.succ_pos _

theorem Draws.toFinish (hw : t.WellShaped) (h : s.Draws t scope) (hi : id.index < s.nodeCount) :
    s.graph.Reaches id s.finish := by
  let Q := (s.graph.Reaches · s.finish)
  have hQ : s.graph.Drains Q := fun _ _ hs hr => .step hs hr
  have ⟨ends, left, hl, ha⟩ := h.laid
  have hf : s.graph.AllFollow Q (ends ++ left) := fun e hm => (ha e hm).follows .refl
  have ⟨he, hj⟩ := List.forall_mem_append.mp hf
  have ⟨h₁, hb⟩ := hl.drains hw hQ he hj
  have h₀ : Q ⟨0⟩ := (h₁ _ (.head _)).at_node hQ
  exact h.forall_node (P := Q) (h.start ▸ h₀) hb .refl hi

theorem Draws.fromStart (hw : t.WellShaped) (h : s.Draws t scope) (hi : id.index < s.nodeCount) :
    s.graph.Reaches s.start id := by
  have hP : s.graph.Spreads (s.graph.Reaches s.start) := fun _ _ hs hr => hr.snoc hs
  have ⟨_, _, hl, _⟩ := h.laid
  have ⟨hb, _⟩ := hl.spreads hP (List.forall_mem_singleton.mpr (h.start ▸ .refl))
  exact h.forall_node .refl hb (h.toFinish hw h.start_lt) hi

theorem Draws.reaches_lt (h : s.Draws t scope) (hr : s.graph.Reaches s.start id) :
    id.index < s.nodeCount :=
  hr.preserves (P := (·.index < s.nodeCount)) (fun ⟨_, hl⟩ _ => (h.underway.targets hl).2) h.start_lt

end Summary

open Summary

theorem analyze_connected (hw : t.WellShaped) (h : analyze t settings scope = .ok s) :
    s.Connected := by
  have hd := draws_of_analyze h
  refine ⟨hd.fromStart hw, hd.toFinish hw, ?_, ?_⟩
  · have ht : s.traverse.Nodup := Graph.nodup_explore .nil
    refine (List.perm_ext_iff_of_nodup ht s.graph.nodup_ids).mpr fun id => ?_
    rw [Summary.traverse, Graph.mem_traverse_iff, Graph.mem_ids_iff]
    exact ⟨hd.reaches_lt, hd.fromStart hw⟩
  · have hn : s.start ≠ s.finish := by
      intro he
      have hs := hd.underway.start.mpr ⟨hd.start, rfl⟩
      rw [he, hd.finish] at hs
      cases hs
    cases (hd.toFinish hw hd.start_lt).exists_last
    case inl he => exact absurd he hn
    case inr hs =>
      have ⟨a, hs⟩ := hs
      exact List.ne_nil_of_mem (Graph.mem_predecessors_iff.mpr hs)

theorem analyze_connected_searching :
    searching.2.WellShaped ∧
    ∃ s, analyze searching.2 {} searching.1 = .ok s ∧ s.Connected := by
  have hw : searching.2.WellShaped := by decide +kernel
  have ⟨s, h⟩ : ∃ s, analyze searching.2 {} searching.1 = .ok s :=
    exists_of_isSome (by decide +kernel)
  exact ⟨hw, s, h, analyze_connected hw h⟩

end RoutineFlow.Flow
