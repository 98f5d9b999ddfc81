import Mathlib.Order.Lattice.Nat
import RoutineFlow.Proofs.Arena
import RoutineFlow.Proofs.Connected

-- Traversals are breadth-first searches. A node is marked when it leaves the queue, but the order
-- is that of the search that marks nodes when it puts them there. So each node comes once, and none
-- before a nearer one.

namespace RoutineFlow.Flow

namespace Graph

-- The ways along edges, by their lengths.
inductive Way (g : Graph) (a : NodeId) : Nat → NodeId → Prop
  | refl : Way g a 0 a
  | snoc : Way g a n b → g.Step b c → Way g a (n + 1) c

variable {g : Graph} {start a b x y id : NodeId} {n : Nat} {seen marked rest xs : List NodeId}

-- The length of the shortest way from one node to another.
noncomputable def distance (g : Graph) (a b : NodeId) : Nat :=
  sInf { n | g.Way a n b }

theorem Way.distance_le (h : g.Way a n b) : g.distance a b ≤ n :=
  Nat.sInf_le h

theorem Reaches.exists_way (h : g.Reaches a b) : ∃ n, g.Way a n b :=
  h.preserves (P := fun b => ∃ n, g.Way a n b) (fun hs ⟨n, hw⟩ => ⟨n + 1, hw.snoc hs⟩) ⟨0, .refl⟩

theorem Reaches.way_distance (h : g.Reaches a b) : g.Way a (g.distance a b) b :=
  Nat.sInf_mem h.exists_way

theorem Reaches.distance_snoc_le (h : g.Reaches a b) (hs : g.Step b x) :
    g.distance a x ≤ g.distance a b + 1 :=
  (h.way_distance.snoc hs).distance_le

-- The entries that are not among `seen`, each where it comes first.
def fresh (seen : List NodeId) : List NodeId → List NodeId
  | []        => []
  | id :: ids => if id ∈ seen then fresh seen ids else id :: fresh (seen ++ [id]) ids

theorem fresh_of_mem (h : id ∈ seen) : fresh seen (id :: xs) = fresh seen xs :=
  if_pos h

theorem fresh_of_not_mem (h : id ∉ seen) :
    fresh seen (id :: xs) = id :: fresh (seen ++ [id]) xs :=
  if_neg h

theorem mem_of_mem_fresh (h : x ∈ fresh seen xs) : x ∈ xs ∧ x ∉ seen := by
  induction xs generalizing seen
  case nil            => cases h
  case cons id ids ih =>
    rw [fresh] at h
    split at h
    case isTrue       =>
      have ⟨hx, hn⟩ := ih h
      exact ⟨.tail _ hx, hn⟩
    case isFalse hs   =>
      cases h
      case head      => exact ⟨.head _, hs⟩
      case tail h    =>
        have ⟨hx, hn⟩ := ih h
        exact ⟨.tail _ hx, fun hm => hn (List.mem_append_left _ hm)⟩

theorem mem_append_fresh (h : x ∈ xs) : x ∈ seen ++ fresh seen xs := by
  induction xs generalizing seen
  case nil            => cases h
  case cons id ids ih =>
    rw [fresh]
    split
    case isTrue hs  =>
      cases h
      case head   => exact List.mem_append_left _ hs
      case tail h => exact ih h
    case isFalse    =>
      rw [List.append_cons]
      cases h
      case head   => exact List.mem_append_left _ (List.mem_append_right _ (.head _))
      case tail h => exact ih h

theorem fresh_append (seen xs ys : List NodeId) :
    fresh seen (xs ++ ys) = fresh seen xs ++ fresh (seen ++ fresh seen xs) ys := by
  induction xs generalizing seen
  case nil            => rw [fresh, List.append_nil]; rfl
  case cons id ids ih =>
    rw [List.cons_append, fresh, fresh]
    split
    case isTrue  => exact ih seen
    case isFalse => rw [ih, List.cons_append, ← List.append_cons]

-- To pass over entries that were seen before changes nothing.
theorem fresh_filter (h : seen ⊆ marked) :
    fresh marked (xs.filter (· ∉ seen)) = fresh marked xs := by
  induction xs generalizing marked
  case nil            => rfl
  case cons id ids ih =>
    rw [List.filter_cons]
    split
    case isTrue       =>
      rw [fresh, fresh]
      split
      case isTrue  => exact ih h
      case isFalse => rw [ih (List.subset_append_of_subset_left _ h)]
    case isFalse hs   =>
      rw [ih h, fresh_of_mem (h (by simpa using hs))]

-- What a traversal has found, and what is still to be looked at.
structure Traversal where
  found : List NodeId
  queue : List NodeId

-- Takes one node from the queue. It is passed over if it was found before.
def Traversal.next? (g : Graph) : Traversal → Option Traversal
  | ⟨_, []⟩              => none
  | ⟨found, id :: rest⟩ =>
    if id ∈ found then
      some ⟨found, rest⟩
    else
      let found := found ++ [id]
      some ⟨found, rest ++ ((g.successors id).map (·.2)).filter (· ∉ found)⟩

theorem explore_trail (g : Graph) (seen queue : List NodeId) :
    ∃ rounds, Trail (Traversal.next? g) ⟨seen, queue⟩ rounds ⟨g.explore seen queue, []⟩ := by
  fun_induction g.explore seen queue
  case case1 seen                  => exact ⟨_, .last rfl⟩
  case case2 hs ih                 =>
    obtain ⟨_, h⟩ := ih
    exact ⟨_, .next (if_pos hs) h⟩
  case case3 hs _ _ ih             =>
    obtain ⟨_, h⟩ := ih
    exact ⟨_, .next (if_neg hs) h⟩

structure Search where
  marked : List NodeId
  queue  : List NodeId
  order  : List NodeId

namespace Search

def begin (start : NodeId) : Search where
  marked := [start]
  queue  := [start]
  order  := []

def enqueue (s : Search) (id : NodeId) : Search :=
  if id ∈ s.marked then
    s
  else
    { s with marked := s.marked ++ [id], queue := s.queue ++ [id] }

-- Takes the first node from the queue and puts in its successors, the truthy one before the falsy.
def next? (g : Graph) (s : Search) : Option Search :=
  match s.queue with
  | []         => none
  | id :: rest =>
    some <| ((g.successors id).map (·.2)).foldl enqueue
      { s with queue := rest, order := s.order ++ [id] }

theorem foldl_enqueue (s : Search) (ids : List NodeId) :
    ids.foldl enqueue s =
      { s with
        marked := s.marked ++ fresh s.marked ids
        queue  := s.queue ++ fresh s.marked ids } := by
  induction ids generalizing s
  case nil            => simp [fresh]
  case cons id ids ih =>
    rw [List.foldl_cons, ih, fresh, enqueue]
    split
    case isTrue  => rfl
    case isFalse => simp

theorem next?_eq_some {s s' : Search} (h : s.next? g = some s') :
    ∃ id rest, s.queue = id :: rest ∧
      let found := fresh s.marked ((g.successors id).map (·.2))
      s' = ⟨s.marked ++ found, rest ++ found, s.order ++ [id]⟩ := by
  unfold next? at h
  split at h
  case h_1             => cases h
  case h_2 id rest hq  =>
    rw [foldl_enqueue, Option.some.injEq] at h
    exact ⟨id, rest, hq, h.symm⟩

end Search

-- Both loops find the same nodes in the same order: what is marked when it is put into the queue is
-- what the other queue holds for the first time.
theorem explore_searches (g : Graph) (seen queue : List NodeId) :
    ∃ rounds, Trail (Search.next? g) ⟨seen ++ fresh seen queue, fresh seen queue, seen⟩ rounds
      ⟨g.explore seen queue, [], g.explore seen queue⟩ := by
  fun_induction g.explore seen queue
  case case1 seen =>
    rw [fresh, List.append_nil]
    exact ⟨_, .last rfl⟩
  case case2 hs ih =>
    rwa [fresh_of_mem hs]
  case case3 seen id rest hs _ found ih =>
    obtain ⟨rounds, h⟩ := ih
    have hf : seen ++ id :: fresh found rest = found ++ fresh found rest := List.append_cons ..
    rw [fresh_append, fresh_filter (List.subset_append_left _ _), ← List.append_assoc] at h
    rw [fresh_of_not_mem hs, hf]
    exact ⟨_, .next (congrArg some (Search.foldl_enqueue ..)) h⟩

-- What is marked has left the queue or is in it (1), begins with the start (2) and can be reached
-- from there (3). All that follows a node that has left the queue is marked (4). Marks are put on
-- nearer nodes first (5), and no node in the queue is more than an edge further than the first (6).
structure Search.Sound (g : Graph) (start : NodeId) (s : Search) : Prop where
  marked  : s.marked = s.order ++ s.queue                                            -- (1)
  first   : s.marked.head? = some start                                              -- (2)
  reached : ∀ x ∈ s.marked, g.Reaches start x                                        -- (3)
  closed  : ∀ x ∈ s.order, ∀ y, g.Step x y → y ∈ s.marked                            -- (4)
  sorted  : s.marked.Pairwise fun x y => g.distance start x ≤ g.distance start y     -- (5)
  near    : ∀ x ∈ s.queue.head?, ∀ y ∈ s.queue,                                      -- (6)
    g.distance start y ≤ g.distance start x + 1

namespace Search.Sound

variable {s s' : Search}

theorem begin (g : Graph) (start : NodeId) : Search.Sound g start (.begin start) where
  marked  := rfl
  first   := rfl
  reached := List.forall_mem_singleton.mpr .refl
  closed  := nofun
  sorted  := List.pairwise_singleton ..
  near    := by simp [Search.begin]

-- A way out of what has left the queue leads through the queue.
theorem through_queue (h : s.Sound g start) (hw : g.Way start n x) :
    x ∈ s.order ∨ ∃ y ∈ s.queue, g.distance start y ≤ n := by
  have hm {n y} (hy : y ∈ s.marked) (hw : g.Way start n y) :
      y ∈ s.order ∨ ∃ z ∈ s.queue, g.distance start z ≤ n := by
    rw [h.marked] at hy
    exact (List.mem_append.mp hy).imp_right fun hq => ⟨y, hq, hw.distance_le⟩
  induction hw
  case refl          => exact hm (List.mem_of_head? h.first) .refl
  case snoc hw hs ih =>
    cases ih
    case inl ho => exact hm (h.closed _ ho _ hs) (hw.snoc hs)
    case inr hq =>
      have ⟨y, hy, hd⟩ := hq
      exact .inr ⟨y, hy, Nat.le_succ_of_le hd⟩

-- No node in the queue is nearer than the first.
theorem head_le (h : s.Sound g start) (hq : s.queue = id :: rest) (hy : y ∈ s.queue) :
    g.distance start id ≤ g.distance start y := by
  have hs := h.sorted
  rw [h.marked, List.pairwise_append, hq, List.pairwise_cons] at hs
  rw [hq] at hy
  cases hy
  case head    => exact Nat.le_refl _
  case tail hy => exact hs.2.1.1 y hy

-- What is not marked yet is further away than the first node in the queue.
theorem head_lt (h : s.Sound g start) (hq : s.queue = id :: rest) (hr : g.Reaches start y)
    (hy : y ∉ s.marked) : g.distance start id < g.distance start y := by
  cases hn : g.distance start y
  all_goals
    have hw := hr.way_distance
    rw [hn] at hw
    cases hw
  case zero.refl         => exact absurd (List.mem_of_head? h.first) hy
  case succ.snoc x hw hs =>
    cases h.through_queue hw
    case inl ho => exact absurd (h.closed _ ho _ hs) hy
    case inr hx =>
      have ⟨z, hz, hd⟩ := hx
      exact Nat.lt_succ_of_le (Nat.le_trans (h.head_le hq hz) hd)

-- What is found is just one edge further away than the node it was found from.
theorem distance_found (h : s.Sound g start) (hq : s.queue = id :: rest)
    (hy : y ∈ fresh s.marked ((g.successors id).map (·.2))) :
    g.Reaches start y ∧ g.distance start y = g.distance start id + 1 := by
  have ⟨hs, hn⟩ := mem_of_mem_fresh hy
  have hs : g.Step id y := step_iff.mpr hs
  have hid : g.Reaches start id := h.reached id (by simp [h.marked, hq])
  have hr : g.Reaches start y := hid.snoc hs
  exact ⟨hr, Nat.le_antisymm (hid.distance_snoc_le hs) (h.head_lt hq hr hn)⟩

theorem next (h : s.Sound g start) (hs : s.next? g = some s') : s'.Sound g start := by
  obtain ⟨id, rest, hq, rfl⟩ := next?_eq_some hs
  set found := fresh s.marked ((g.successors id).map (·.2))
  have hreach : ∀ y ∈ found, g.Reaches start y := fun _ hy => (h.distance_found hq hy).1
  have hdist : ∀ y ∈ found, g.distance start y = g.distance start id + 1 := fun _ hy =>
    (h.distance_found hq hy).2
  have hnear : ∀ y ∈ s.queue, g.distance start y ≤ g.distance start id + 1 :=
    h.near id (by rw [hq]; rfl)
  refine ⟨?marked, ?first, ?reached, ?closed, ?sorted, ?near⟩
  case marked  => simp [h.marked, hq]
  case first   => simp [List.head?_append, h.first]
  case reached => exact List.forall_mem_append.mpr ⟨h.reached, hreach⟩
  case closed  =>
    refine List.forall_mem_append.mpr ⟨fun x hx y hy => ?_, ?_⟩
    · exact List.mem_append_left _ (h.closed x hx y hy)
    · exact List.forall_mem_singleton.mpr fun y hy => mem_append_fresh (step_iff.mp hy)
  case sorted  =>
    refine List.pairwise_append.mpr ⟨h.sorted, ?_, fun x hx y hy => ?_⟩
    · exact List.pairwise_of_forall_mem_list fun x hx y hy => by rw [hdist x hx, hdist y hy]
    · rw [hdist y hy]
      have hs := h.sorted
      rw [h.marked] at hx hs
      cases List.mem_append.mp hx
      case inl ho =>
        have hle := (List.pairwise_append.mp hs).2.2 x ho id (hq ▸ .head _)
        exact Nat.le_succ_of_le hle
      case inr hx => exact hnear x hx
  case near    =>
    have hall : ∀ y ∈ rest ++ found,
        g.distance start id ≤ g.distance start y ∧
        g.distance start y ≤ g.distance start id + 1 := by
      refine List.forall_mem_append.mpr ⟨fun y hy => ?_, fun y hy => ?_⟩
      · have hy : y ∈ s.queue := hq ▸ .tail _ hy
        exact ⟨h.head_le hq hy, hnear y hy⟩
      · rw [hdist y hy]
        exact ⟨Nat.le_succ _, Nat.le_refl _⟩
    intro x hx y hy
    have hx := (hall x (List.mem_of_head? hx)).1
    exact Nat.le_trans (hall y hy).2 (Nat.succ_le_succ hx)

end Search.Sound

-- The loop comes to an end (1), with all nodes that can be reached (2), once each (3), the start
-- before all others (4) and nearer nodes before further ones (5), in the order of the search that
-- marks nodes when it puts them into the queue (6).
structure BreadthFirst (g : Graph) (start : NodeId) (order : List NodeId) : Prop where
  ends     : ∃ rounds, Trail (Traversal.next? g) ⟨[], [start]⟩ rounds ⟨order, []⟩     -- (1)
  reached  : ∀ id, id ∈ order ↔ g.Reaches start id                                   -- (2)
  once     : order.Nodup                                                             -- (3)
  first    : order.head? = some start                                                -- (4)
  sorted   : order.Pairwise fun x y => g.distance start x ≤ g.distance start y       -- (5)
  textbook : ∃ rounds marked,                                                        -- (6)
    Trail (Search.next? g) (.begin start) rounds ⟨marked, [], order⟩

end Graph

open Graph

theorem Summary.traverse_breadthFirst (s : Summary) : s.graph.BreadthFirst s.start s.traverse := by
  have ⟨rounds, hs⟩ := s.graph.explore_searches [] [s.start]
  have hs : Trail (Search.next? s.graph) (.begin s.start) rounds ⟨s.traverse, [], s.traverse⟩ := hs
  have h := hs.preserves (P := Search.Sound s.graph s.start) (fun hn h => h.next hn) (.begin ..)
  exact {
    ends      := s.graph.explore_trail [] [s.start]
    reached _ := mem_traverse_iff
    once      := nodup_explore .nil
    first     := h.first
    sorted    := h.sorted
    textbook  := ⟨_, _, hs⟩
  }

end RoutineFlow.Flow
