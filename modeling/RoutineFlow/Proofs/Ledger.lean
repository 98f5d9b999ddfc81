import Mathlib.Algebra.Order.Group.Multiset
import Mathlib.Data.Multiset.UnionInter
import Mathlib.Logic.Relation
import RoutineFlow.Proofs.Promotion

-- A graph under construction and those of its open slots that are at hand. A step takes a slot at
-- hand and wires it, writes to a block whose slot is at hand, or makes a node and puts its slots at
-- hand. The open slots that are not at hand stay the same through any run of such steps, and so
-- does every node that has none at hand.

namespace RoutineFlow.Flow

open Relation (ReflTransGen)

namespace Exit

def slots (exits : List Exit) : Multiset Slot :=
  exits.map Exit.slot

@[simp]
theorem slots_nil : slots [] = 0 :=
  rfl

@[simp]
theorem slots_cons (x : Exit) (exits : List Exit) : slots (x :: exits) = x.slot ::ₘ slots exits :=
  rfl

@[simp]
theorem slots_append (exits exits' : List Exit) :
    slots (exits ++ exits') = slots exits + slots exits' := by
  rw [slots, List.map_append, ← Multiset.coe_add]
  rfl

theorem slots_singleton (x : Exit) : slots [x] = {x.slot} :=
  rfl

theorem slots_eq_sum (exits : List Exit) : slots exits = (exits.map fun x => {x.slot}).sum := by
  induction exits
  case nil          => rfl
  case cons x xs ih => rw [slots_cons, ih, List.map_cons, List.sum_cons, Multiset.singleton_add]

theorem slots_flatten (lists : List (List Exit)) : slots lists.flatten = (lists.map slots).sum := by
  induction lists
  case nil         => rfl
  case cons _ _ ih => rw [List.flatten_cons, slots_append, ih, List.map_cons, List.sum_cons]

theorem slots_partition (exits : List Exit) (f : Exit → Bool) :
    slots (exits.partition f).1 + slots (exits.partition f).2 = slots exits := by
  rw [List.partition_eq_filter_filter, ← slots_append]
  exact Multiset.coe_eq_coe.mpr ((List.filter_append_perm f exits).map _)

end Exit

theorem Graph.slot?_set_block {g : Graph} {id : NodeId}
    (h : g.node? id = some (.block ps follower? inverted)) (ps' : List Syntax.Id)
    (inverted' : Bool) (s : Slot) :
    (g.set id (.block ps' follower? inverted')).slot? s = g.slot? s :=
  slot?_set_of_eq h _ (by rintro (_ | _ | _) <;> rfl) s

-- An open slot that is no side of a condition belongs to a start node or a block.
theorem Graph.IsOpen.next_cases {g : Graph} {i : NodeId} (h : g.IsOpen (i, .next)) :
    g.node? i = some (.start none) ∨
      ∃ ps inverted, g.node? i = some (.block ps none inverted) := by
  have ⟨node, hn, hs⟩ := exists_node?_of_isOpen h
  cases node <;> simp only [Node.slot?, Option.some.injEq, reduceCtorEq] at hs <;> subst hs
  case start => exact .inl hn
  case block => exact .inr ⟨_, _, hn⟩

structure Ledger where
  graph : Graph
  slots : Multiset Slot

namespace Ledger

inductive Step : Ledger → Ledger → Prop
  -- A slot at hand is wired, and with that given away.
  | wire (h : g.IsOpen s) (ht : target.index < g.size) : Step ⟨g, s ::ₘ m⟩ ⟨g.fill s target, m⟩
  -- A block that is not wired yet gets positions at its end, or its flag is set.
  | write (h : g.node? i = some (.block ps none inverted)) (hp : ps <+: ps') (inverted' : Bool) :
    Step ⟨g, (i, .next) ::ₘ m⟩ ⟨g.set i (.block ps' none inverted'), (i, .next) ::ₘ m⟩
  -- A new node comes with all its slots, and each of them is open.
  | push (ho : ∀ s, s ∈ n ↔ s.1 = g.nextId ∧ node.slot? s.2 = some none) (hn : n.Nodup)
    (hl : ∀ label target, node.slot? label ≠ some (some target)) :
    Step ⟨g, m⟩ ⟨g.push node, n + m⟩

abbrev Run : Ledger → Ledger → Prop :=
  ReflTransGen Step

-- The slots at hand are open, and none of them is there twice.
structure Valid (l : Ledger) : Prop where
  nodup : l.slots.Nodup
  opens : ∀ s ∈ l.slots, l.graph.IsOpen s

-- An open slot that is not at hand.
def Aside (l : Ledger) (s : Slot) : Prop :=
  l.graph.IsOpen s ∧ s ∉ l.slots

-- The same with more slots at hand.
def add (l : Ledger) (r : Multiset Slot) : Ledger :=
  ⟨l.graph, l.slots + r⟩

variable {l l' : Ledger} {s : Slot} {id : NodeId}

theorem Valid.of_add (h : (l.add r).Valid) : l.Valid where
  nodup := (Multiset.nodup_add.mp h.nodup).1
  opens _ hs := h.opens _ (Multiset.mem_add.mpr (.inl hs))

theorem Valid.next_cases {g : Graph} {i : NodeId} (h : Valid ⟨g, {(i, .next)}⟩) :
    g.node? i = some (.start none) ∨ ∃ ps inverted, g.node? i = some (.block ps none inverted) :=
  (h.opens _ (Multiset.mem_singleton_self _)).next_cases

namespace Step

theorem frame (h : Step l l') (r : Multiset Slot) : Step (l.add r) (l'.add r) := by
  cases h
  case wire h ht    => rw [add, Multiset.cons_add]; exact .wire h ht
  case write h hp _ => rw [add, add, Multiset.cons_add]; exact .write h hp _
  case push ho hn hl => rw [add, add, Multiset.add_assoc]; exact .push ho hn hl

theorem grows (h : Step l l') : l.graph.Grows l'.graph := by
  cases h
  case wire h _     => exact .of_fill h _
  case write h hp _ => exact .of_set h (.block hp)
  case push         => exact .of_push ..

theorem mem_of_lt (h : Step l l') (hs : s ∈ l'.slots) (hi : s.1.index < l.graph.size) :
    s ∈ l.slots := by
  cases h
  case wire       => exact Multiset.mem_cons_of_mem hs
  case write      => exact hs
  case push ho _ _ =>
    refine (Multiset.mem_add.mp hs).resolve_left fun hn => ?_
    rw [((ho s).mp hn).1] at hi
    exact absurd hi (Nat.lt_irrefl _)

theorem aside_iff (h : Step l l') (s : Slot) : l'.Aside s ↔ l.Aside s := by
  cases h
  case wire s₀ _ _ h _ =>
    simp only [Aside, Graph.IsOpen, Graph.slot?_fill h, Multiset.mem_cons]
    by_cases he : s = s₀ <;> simp [he]
  case write h _ _ => simp only [Aside, Graph.IsOpen, Graph.slot?_set_block h]
  case push g _ _ ho _ _ =>
    rcases s with ⟨i, label⟩
    simp only [Aside, Graph.IsOpen, Graph.slot?_push, Multiset.mem_add, ho]
    by_cases hi : i = g.nextId
    case pos =>
      subst hi
      simp only [↓reduceIte, true_and, Graph.slot?_nextId, reduceCtorEq, false_and, iff_false]
      exact fun ⟨ho, hn⟩ => hn (.inl ho)
    case neg => simp [hi]

theorem valid (h : Step l l') (hv : l.Valid) : l'.Valid := by
  cases h
  case wire s₀ _ _ h _ =>
    obtain ⟨hs, hn⟩ := Multiset.nodup_cons.mp hv.nodup
    refine ⟨hn, fun s hm => ?_⟩
    have hne : s ≠ s₀ := by rintro rfl; exact hs hm
    rw [Graph.IsOpen, Graph.slot?_fill h, if_neg hne]
    exact hv.opens s (Multiset.mem_cons_of_mem hm)
  case write h _ _ =>
    refine ⟨hv.nodup, fun s hm => ?_⟩
    rw [Graph.IsOpen, Graph.slot?_set_block h]
    exact hv.opens s hm
  case push g _ _ ho hn _ =>
    have hne {s : Slot} (hm : g.IsOpen s) : s.1 ≠ g.nextId := by
      obtain ⟨_, hn, _⟩ := Graph.exists_node?_of_isOpen hm
      exact Graph.ne_nextId hn
    refine ⟨Multiset.nodup_add.mpr ⟨hn, hv.nodup, ?_⟩, fun s hm => ?_⟩
    · refine Multiset.disjoint_left.mpr ?_
      intro s hs hm
      exact hne (hv.opens s hm) ((ho s).mp hs).1
    · rw [Graph.IsOpen, Graph.slot?_push]
      cases Multiset.mem_add.mp hm
      case inl hs => rw [if_pos ((ho s).mp hs).1, ((ho s).mp hs).2]
      case inr hs => rw [if_neg (hne (hv.opens s hs))]; exact hv.opens s hs

theorem slot?_eq (h : Step l l') (hs : s ∉ l.slots) (hi : s.1.index < l.graph.size) :
    l'.graph.slot? s = l.graph.slot? s := by
  cases h
  case wire h _ =>
    rw [Graph.slot?_fill h, if_neg]
    rintro rfl
    exact hs (Multiset.mem_cons_self ..)
  case write h _ _ => rw [Graph.slot?_set_block h]
  case push        => rw [Graph.slot?_push, if_neg (fun he => by simp [he, Graph.nextId] at hi)]

theorem node?_eq (h : Step l l') (hs : ∀ label, (id, label) ∉ l.slots)
    (hi : id.index < l.graph.size) : l'.graph.node? id = l.graph.node? id := by
  cases h
  case wire s₀ _ _ h _ =>
    have ⟨_, hn, _⟩ := Graph.exists_node?_of_isOpen h
    rw [Graph.node?_fill hn, if_neg]
    rintro rfl
    exact hs s₀.2 (Multiset.mem_cons_self ..)
  case write =>
    rw [Graph.node?_set, if_neg]
    rintro ⟨rfl, -⟩
    exact hs .next (Multiset.mem_cons_self ..)
  case push => rw [Graph.node?_push, if_neg (fun he => by simp [he, Graph.nextId] at hi)]

end Step

namespace Run

theorem frame (h : Run l l') (r : Multiset Slot) : Run (l.add r) (l'.add r) :=
  h.lift (·.add r) fun _ _ hs => hs.frame r

theorem grows (h : Run l l') : l.graph.Grows l'.graph := by
  induction h
  case refl         => exact .refl _
  case tail _ hs ih => exact ih.trans hs.grows

theorem valid (h : Run l l') (hv : l.Valid) : l'.Valid := by
  induction h
  case refl         => exact hv
  case tail _ hs ih => exact hs.valid ih

theorem aside_iff (h : Run l l') (s : Slot) : l'.Aside s ↔ l.Aside s := by
  induction h
  case refl         => rfl
  case tail _ hs ih => exact (hs.aside_iff s).trans ih

theorem mem_of_lt (h : Run l l') (hs : s ∈ l'.slots) (hi : s.1.index < l.graph.size) :
    s ∈ l.slots := by
  induction h
  case refl             => exact hs
  case tail hr hstep ih => exact ih (hstep.mem_of_lt hs (hi.trans_le (grows hr).size_le))

-- A slot of an old node is wired only if it is at hand (1), and an old node that has none at hand
-- is not touched (2).
theorem slot?_eq (h : Run l l') (hs : s ∉ l.slots) (hi : s.1.index < l.graph.size) :
    l'.graph.slot? s = l.graph.slot? s := by
  induction h
  case refl => rfl
  case tail hr hstep ih =>
    have hs' : s ∉ _ := fun hm => hs (mem_of_lt hr hm hi)
    exact (hstep.slot?_eq hs' (hi.trans_le (grows hr).size_le)).trans ih

theorem node?_eq (h : Run l l') (hs : ∀ label, (id, label) ∉ l.slots)
    (hi : id.index < l.graph.size) : l'.graph.node? id = l.graph.node? id := by
  induction h
  case refl => rfl
  case tail hr hstep ih =>
    have hs' label : (id, label) ∉ _ := fun hm => hs label (mem_of_lt hr hm hi)
    exact (hstep.node?_eq hs' (hi.trans_le (grows hr).size_le)).trans ih

end Run

theorem run_promoted {g : Graph} (hn : g.node? i = some (.block ps none inverted))
    (label? : Option Syntax.Id) (first : Bool) :
    Run ⟨g, {(i, .next)}⟩ ⟨g.promoted i ps label? first,
      {(g.nextId, .branch .truthy), (g.nextId, .branch .falsy)}⟩ := by
  let g₁ := g.set i (.block ps none false)
  let node := Node.condition label? none none first
  let sides : Multiset Slot := {(g₁.nextId, .branch .truthy), (g₁.nextId, .branch .falsy)}
  have hx : g₁.nextId = g.nextId := by simp [g₁, Graph.nextId]
  have hw : Step ⟨g, {(i, .next)}⟩ ⟨g₁, {(i, .next)}⟩ := .write hn List.prefix_rfl false
  have hp : Step ⟨g₁, {(i, .next)}⟩ ⟨g₁.push node, sides + {(i, .next)}⟩ := by
    refine .push ?_ (by simp [sides]) ?_
    · rintro ⟨_, _ | _ | _⟩ <;> simp [sides, node, Node.slot?]
    · rintro (_ | _ | _) <;> simp [node, Node.slot?]
  have ho : (g₁.push node).IsOpen (i, .next) := by
    rw [Graph.IsOpen, Graph.slot?_push, if_neg (hx ▸ Graph.ne_nextId hn), Graph.slot?_set hn,
      if_pos rfl]
    rfl
  have hf : Step ⟨g₁.push node, (i, .next) ::ₘ sides⟩
      ⟨(g₁.push node).fill (i, .next) g₁.nextId, sides⟩ := .wire ho (by simp [Graph.nextId])
  rw [add_comm, Multiset.singleton_add] at hp
  rw [Graph.promoted, ← hx]
  exact .tail (.tail (.single hw) hp) hf

end Ledger
end RoutineFlow.Flow
