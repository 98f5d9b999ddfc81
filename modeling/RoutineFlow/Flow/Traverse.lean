import RoutineFlow.Flow.Graph

-- Breadth-first traversal of a flow graph. A node is marked when it leaves the queue, so the queue
-- may hold a node twice; the second time it is passed over.

namespace RoutineFlow.Flow.Graph

theorem mem_ids_iff {g : Graph} {id : NodeId} : id ∈ g.ids ↔ id.index < g.size := by
  constructor
  · intro h
    obtain ⟨i, hi, rfl⟩ := List.mem_map.1 h
    exact List.mem_range.1 hi
  · exact fun h => List.mem_map.2 ⟨id.index, List.mem_range.2 h, rfl⟩

theorem successors_eq_nil {g : Graph} {id : NodeId} (h : id ∉ g.ids) : g.successors id = [] := by
  have : g.nodes[id.index]? = none := by
    simpa [mem_ids_iff, size] using h
  simp [successors, node?, this]

-- How many nodes of the graph are not in `seen`.
def countUnseen (g : Graph) (seen : List NodeId) : Nat :=
  (g.ids.filter (· ∉ seen)).length

theorem countUnseen_le (g : Graph) (seen : List NodeId) (id : NodeId) :
    g.countUnseen (seen ++ [id]) ≤ g.countUnseen seen := by
  simp only [countUnseen, ← List.countP_eq_length_filter]
  exact List.countP_mono_left (by simp_all)

theorem countUnseen_lt {g : Graph} {seen : List NodeId} {id : NodeId} (h : id ∈ g.ids)
    (hs : id ∉ seen) : g.countUnseen (seen ++ [id]) < g.countUnseen seen := by
  simp only [countUnseen]
  have hf : (g.ids.filter (· ∉ seen ++ [id])) = ((g.ids.filter (· ∉ seen)).filter (· ≠ id)) := by
    simp only [List.filter_filter]
    congr 1
    funext x
    simp [not_or, and_comm]
  rw [hf]
  apply List.length_filter_lt_length_iff_exists.2
  exact ⟨id, by simp [h, hs], by simp⟩

-- What is found from `queue` when `seen` is found already, in the order in which it is found.
def explore (g : Graph) (seen queue : List NodeId) : List NodeId :=
  match queue with
  | []         => seen
  | id :: rest =>
    if hs : id ∈ seen then
      g.explore seen rest
    else
      have : g.countUnseen (seen ++ [id]) < g.countUnseen seen ∨
          g.countUnseen (seen ++ [id]) = g.countUnseen seen ∧ g.successors id = [] := by
        by_cases h : id ∈ g.ids
        · exact .inl (countUnseen_lt h hs)
        · have hle := countUnseen_le g seen id
          rcases Nat.lt_or_eq_of_le hle with hlt | heq
          · exact .inl hlt
          · exact .inr ⟨heq, successors_eq_nil h⟩
      let found := seen ++ [id]
      g.explore found (rest ++ ((g.successors id).map (·.2)).filter (· ∉ found))
termination_by (g.countUnseen seen, queue.length)
decreasing_by
  · simp [Prod.lex_def]
  · rcases this with h | ⟨h, hs⟩
    · exact .left _ _ h
    · simp [Prod.lex_def, h, hs]

-- All nodes that can be reached from `start`, nearest first; among the successors of one node the
-- truthy one comes before the falsy one.
def traverse (g : Graph) (start : NodeId) : List NodeId :=
  g.explore [] [start]

end RoutineFlow.Flow.Graph
