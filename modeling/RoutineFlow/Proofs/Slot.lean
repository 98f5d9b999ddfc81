import RoutineFlow.Flow.Traverse
import RoutineFlow.Flow.Walk

-- The slots of a flow graph: the places from which an edge may lead. A graph grows by new nodes, by
-- filled slots and by positions at the end of open blocks; what is wired stays as it is.

namespace RoutineFlow.Flow

abbrev Slot := NodeId × EdgeLabel

def Exit.slot : Exit → Slot
  | next node          => (node, .next)
  | branch node side _ => (node, .branch side)

namespace Node

variable {node n n' : Node} {label : EdgeLabel}

-- What a slot holds, if the node has it.
def slot? : Node → EdgeLabel → Option (Option NodeId)
  | start next?, .next                        => some next?
  | block _ next? _, .next                    => some next?
  | condition _ truthy? _ _, .branch .truthy  => some truthy?
  | condition _ _ falsy? _, .branch .falsy    => some falsy?
  | _, _                                      => none

def fill (target : NodeId) : Node → EdgeLabel → Node
  | start _, .next                                => start (some target)
  | block positions _ inverted, .next             => block positions (some target) inverted
  | condition on? _ falsy? first, .branch .truthy => condition on? (some target) falsy? first
  | condition on? truthy? _ first, .branch .falsy => condition on? truthy? (some target) first
  | node, _                                       => node

theorem slot?_fill (h : (node.slot? label).isSome) (target : NodeId)
    (label' : EdgeLabel) :
    (node.fill target label).slot? label' =
      if label' = label then some (some target) else node.slot? label' := by
  cases node <;> rcases label with _ | _ | _ <;> simp [slot?] at h <;>
    rcases label' with _ | _ | _ <;> rfl

theorem mem_successors_iff :
    (label, target) ∈ node.successors ↔ node.slot? label = some (some target) := by
  cases node <;> rcases label with _ | _ | _ <;>
    simp [successors, slot?, eq_comm]

-- Two open slots of one node without a decision are the same.
theorem label_eq_of_slot?_next (h : (node.slot? .next).isSome)
    (h' : (node.slot? label).isSome) : label = .next := by
  cases node <;> rcases label with _ | _ | _ <;> simp_all [slot?]

-- How a node may change while the graph grows.
inductive Grows : Node → Node → Prop
  | same      : Grows m m
  | start     : Grows (.start none) (.start next?)
  | block (h : ps <+: ps') : Grows (.block ps none inverted) (.block ps' next? inverted')
  | condition (ht : truthy? = none ∨ truthy?' = truthy?) (hf : falsy? = none ∨ falsy?' = falsy?) :
    Grows (.condition on? truthy? falsy? first) (.condition on? truthy?' falsy?' first)

namespace Grows

theorem trans {n₁ n₂ n₃ : Node} (h₁ : n₁.Grows n₂) (h₂ : n₂.Grows n₃) : n₁.Grows n₃ := by
  cases h₁
  case same => exact h₂
  case start => cases h₂ <;> exact .start
  case block h =>
    cases h₂
    case same => exact .block h
    case block h' => exact .block (h.trans h')
  case condition ht hf =>
    cases h₂
    case same => exact .condition ht hf
    case condition ht' hf' => exact .condition (by grind) (by grind)

theorem slot?_eq_some (h : n.Grows n') (hs : n.slot? label = some (some target)) :
    n'.slot? label = some (some target) := by
  cases h <;> rcases label with _ | _ | _ <;> simp_all [slot?]

theorem eq_of_next (h : n.Grows n') (hs : n.slot? .next = some (some target)) : n' = n := by
  cases h <;> first | rfl | simp [slot?] at hs

theorem of_fill (h : node.slot? label = some none) (target : NodeId) :
    node.Grows (node.fill target label) := by
  cases node <;> rcases label with _ | _ | _ <;> simp [slot?] at h <;> subst h
  case start.next => exact .start
  case block.next ps _ => exact .block List.prefix_rfl
  case condition.branch.truthy => exact .condition (.inl rfl) (.inr rfl)
  case condition.branch.falsy => exact .condition (.inr rfl) (.inl rfl)

end Grows
end Node

namespace Graph

variable {g g' : Graph} {id : NodeId} {s : Slot}

def slot? (g : Graph) (s : Slot) : Option (Option NodeId) :=
  (g.node? s.1).bind (·.slot? s.2)

abbrev IsOpen (g : Graph) (s : Slot) : Prop :=
  g.slot? s = some none

abbrev Leads (g : Graph) (s : Slot) (target : NodeId) : Prop :=
  g.slot? s = some (some target)

theorem mem_successors_iff {label : EdgeLabel} :
    (label, target) ∈ g.successors id ↔ g.Leads (id, label) target := by
  cases hn : g.node? id
  case none      => simp [successors, Leads, slot?, hn]
  case some node => simp [successors, Leads, slot?, hn, Node.mem_successors_iff]

theorem mem_edges_iff {e : Edge} : e ∈ g.edges ↔ g.Leads (e.source, e.label) e.target := by
  constructor
  case mp =>
    intro h
    have ⟨_, _, hm⟩ := List.mem_flatMap.mp h
    have ⟨_, hs, he⟩ := List.mem_map.mp hm
    subst he
    exact mem_successors_iff.mp hs
  case mpr =>
    intro h
    have ⟨_, hn, _⟩ := Option.bind_eq_some_iff.mp h
    have hi : e.source ∈ g.ids := mem_ids_iff.mpr (Array.getElem?_eq_some_iff.mp hn).1
    exact List.mem_flatMap.mpr ⟨_, hi, List.mem_map.mpr ⟨_, mem_successors_iff.mpr h, rfl⟩⟩

def fill (g : Graph) (s : Slot) (target : NodeId) : Graph :=
  (g.node? s.1).elim g fun node => g.set s.1 (node.fill target s.2)

theorem ext_node? (h : ∀ id, g.node? id = g'.node? id) : g = g' := by
  have hn : g.nodes = g'.nodes := Array.ext_getElem? fun i => h ⟨i⟩
  cases g; cases g'; exact congrArg _ hn

theorem lt_size_of_node? (h : g.node? id = some node) : id.index < g.size :=
  (Array.getElem?_eq_some_iff.mp h).1

theorem node?_isSome_iff : (g.node? id).isSome ↔ id.index < g.size := by
  simp [node?, size]

theorem exists_node?_of_isOpen (h : g.IsOpen s) :
    ∃ node, g.node? s.1 = some node ∧ node.slot? s.2 = some none :=
  Option.bind_eq_some_iff.mp h

theorem slot?_push (g : Graph) (node : Node) (s : Slot) :
    (g.push node).slot? s = if s.1 = g.nextId then node.slot? s.2 else g.slot? s := by
  simp only [slot?, node?_push]
  split <;> rfl

theorem slot?_set (h : g.node? id = some old) (node : Node) (s : Slot) :
    (g.set id node).slot? s = if s.1 = id then node.slot? s.2 else g.slot? s := by
  simp only [slot?, node?_set, lt_size_of_node? h, and_true, eq_comm (a := id)]
  split <;> rfl

theorem slot?_set_of_eq (h : g.node? id = some old) (node : Node)
    (hs : ∀ label, node.slot? label = old.slot? label) (s : Slot) :
    (g.set id node).slot? s = g.slot? s := by
  rw [slot?_set h]
  split
  case isTrue he => rw [hs, slot?, he, h, Option.bind_some]
  case isFalse   => rfl

theorem slot?_nextId (g : Graph) (label : EdgeLabel) : g.slot? (g.nextId, label) = none := by
  simp [slot?, node?, nextId, size]

@[simp]
theorem size_fill (g : Graph) (s : Slot) (target : NodeId) : (g.fill s target).size = g.size := by
  cases h : g.node? s.1 <;> simp [fill, h]

theorem node?_fill (h : g.node? s.1 = some node) (target : NodeId)
    (id : NodeId) :
    (g.fill s target).node? id = if id = s.1 then some (node.fill target s.2) else g.node? id := by
  simp only [fill, h, Option.elim_some, node?_set, lt_size_of_node? h, and_true,
    eq_comm (a := id)]

theorem slot?_fill (h : g.IsOpen s) (target : NodeId) (s' : Slot) :
    (g.fill s target).slot? s' = if s' = s then some (some target) else g.slot? s' := by
  have ⟨node, hn, hs⟩ := exists_node?_of_isOpen h
  simp only [slot?, node?_fill hn]
  by_cases he : s'.1 = s.1
  · rw [if_pos he, Option.bind_some, Node.slot?_fill (by simp [hs]), he, hn, Option.bind_some]
    congr 1
    simp [Prod.ext_iff, he]
  · rw [if_neg he, if_neg (fun h => he (congrArg Prod.fst h))]

def Grows (g g' : Graph) : Prop :=
  ∀ ⦃id node⦄, g.node? id = some node → ∃ node', g'.node? id = some node' ∧ node.Grows node'

namespace Grows

theorem refl (g : Graph) : g.Grows g :=
  fun _ _ h => ⟨_, h, .same⟩

theorem trans {g₁ g₂ g₃ : Graph} (h₁ : g₁.Grows g₂) (h₂ : g₂.Grows g₃) : g₁.Grows g₃ := by
  intro id node hn
  have ⟨_, hn', h⟩ := h₁ hn
  have ⟨node'', hn'', h'⟩ := h₂ hn'
  exact ⟨node'', hn'', h.trans h'⟩

theorem leads (h : g.Grows g') (hl : g.Leads s target) : g'.Leads s target := by
  have ⟨_, hn, hs⟩ := Option.bind_eq_some_iff.mp hl
  have ⟨_, hn', hg⟩ := h hn
  exact Option.bind_eq_some_iff.mpr ⟨_, hn', hg.slot?_eq_some hs⟩

theorem node?_of_next (h : g.Grows g') (hl : g.Leads (id, .next) target) :
    g'.node? id = g.node? id := by
  have ⟨_, hn, hs⟩ := Option.bind_eq_some_iff.mp hl
  have ⟨_, hn', hg⟩ := h hn
  rw [hn', hg.eq_of_next hs, ← hn]

theorem size_le (h : g.Grows g') : g.size ≤ g'.size := by
  refine Nat.not_lt.mp fun hlt => ?_
  have hs : (g.node? g'.nextId).isSome := node?_isSome_iff.mpr hlt
  have ⟨_, hn⟩ := Option.isSome_iff_exists.mp hs
  have ⟨_, hn', _⟩ := h hn
  exact absurd (lt_size_of_node? hn') (Nat.lt_irrefl _)

theorem of_push (g : Graph) (node : Node) : g.Grows (g.push node) := by
  intro id node' h
  refine ⟨node', ?_, .same⟩
  rw [node?_push, if_neg, h]
  rintro rfl
  exact absurd (lt_size_of_node? h) (Nat.lt_irrefl _)

theorem of_set (h : g.node? id = some old) (hg : old.Grows node) :
    g.Grows (g.set id node) := by
  intro id' node' h'
  simp only [node?_set, lt_size_of_node? h, and_true]
  split
  case isTrue he => subst he; exact ⟨node, rfl, Option.some.inj (h ▸ h') ▸ hg⟩
  case isFalse   => exact ⟨node', h', .same⟩

theorem of_fill (h : g.IsOpen s) (target : NodeId) :
    g.Grows (g.fill s target) := by
  have ⟨node, hn, hs⟩ := exists_node?_of_isOpen h
  simpa only [fill, hn, Option.elim_some] using of_set hn (.of_fill hs target)

end Grows
end Graph
end RoutineFlow.Flow
