import RoutineFlow.Proofs.Slot

-- A flow graph under construction has exactly as many open slots as there are exits at hand, each
-- named once. This is what keeps every step of a walk from failing for an internal reason.

namespace RoutineFlow.Flow

namespace Graph

variable {g g' g₁ g₂ : Graph} {id target : NodeId} {exits exits' parked : List Exit} {x : Exit}

structure Underway (g : Graph) (exits : List Exit) : Prop where
  start   {id : NodeId} {next? : Option NodeId} :
    g.node? id = some (.start next?) ↔ id = ⟨0⟩ ∧ next? = some ⟨1⟩
  targets {s : Slot} {target : NodeId} : g.Leads s target → target ≠ ⟨0⟩ ∧ target.index < g.size
  opens   (s : Slot) : (exits.map Exit.slot).count s = if g.slot? s = some none then 1 else 0

-- What a step leaves alone: nodes only grow, and the blocks of exits put aside stay as they are.
structure Keeps (parked : List Exit) (g g' : Graph) : Prop where
  grows : g.Grows g'
  same  {id : NodeId} : .next id ∈ parked → g'.node? id = g.node? id

namespace Keeps

theorem refl : Keeps parked g g :=
  ⟨.refl g, fun _ => rfl⟩

theorem trans (h₁ : Keeps parked g g₁) (h₂ : Keeps parked g₁ g₂) : Keeps parked g g₂ :=
  ⟨h₁.grows.trans h₂.grows, fun h => (h₂.same h).trans (h₁.same h)⟩

theorem mono (h : Keeps parked g g') (hs : exits ⊆ parked) : Keeps exits g g' :=
  ⟨h.grows, fun hx => h.same (hs hx)⟩

theorem drop (h : Keeps (exits ++ parked) g g') : Keeps parked g g' :=
  h.mono (List.subset_append_right _ _)

end Keeps

namespace Underway

theorem reorder (h : Underway g exits) (exits' : List Exit)
    (hc : ∀ s, (exits'.map Exit.slot).count s = (exits.map Exit.slot).count s) :
    Underway g exits' :=
  ⟨h.start, h.targets, fun s => (hc s).trans (h.opens s)⟩

theorem isOpen (h : Underway g exits) (hx : x ∈ exits) : g.IsOpen x.slot := by
  have hc := h.opens x.slot
  have hp : 0 < (exits.map Exit.slot).count x.slot :=
    List.count_pos_iff.mpr (List.mem_map_of_mem hx)
  split at hc
  case isTrue ho => exact ho
  case isFalse   => omega

theorem exists_block (h : Underway g exits) (hx : .next id ∈ exits) :
    ∃ ps inverted, g.node? id = some (.block ps none inverted) := by
  obtain ⟨node, hn, hs⟩ := exists_node?_of_isOpen (h.isOpen hx)
  cases node <;> simp [Exit.slot, Node.slot?] at hs <;> subst hs
  case start => cases (h.start.mp hn).2
  case block => exact ⟨_, _, hn⟩

theorem nextId_ne_zero (h : Underway g exits) : g.nextId ≠ ⟨0⟩ := by
  have hs := lt_size_of_node? (h.start.mpr ⟨rfl, rfl⟩)
  intro he
  exact absurd (congrArg NodeId.index he) (Nat.ne_of_gt hs)

-- The node of an exit is not the block of another one.
theorem next_not_mem (h : Underway g (x :: exits)) : .next x.slot.1 ∉ exits := by
  intro hm
  have ⟨ps, inverted, hb⟩ := h.exists_block (.tail x hm)
  have ⟨node, hn, hs⟩ := exists_node?_of_isOpen (h.isOpen (.head exits))
  obtain rfl := Option.some.inj (hn ▸ hb)
  have hl : x.slot.2 = .next :=
    Node.label_eq_of_slot?_next (show ((Node.block ps none inverted).slot? .next).isSome from rfl)
      (by rw [hs]; rfl)
  have he : (Exit.next x.slot.1).slot = x.slot := Prod.ext rfl hl.symm
  have hp : 0 < (exits.map Exit.slot).count x.slot :=
    List.count_pos_iff.mpr (he ▸ List.mem_map_of_mem hm)
  have hc := h.opens x.slot
  rw [List.map_cons, List.count_cons_self] at hc
  split at hc <;> omega

theorem fill (h : Underway g (x :: exits)) (h₀ : target ≠ ⟨0⟩) (ht : target.index < g.size) :
    Underway (g.fill x.slot target) exits where
  start {id next?} := by
    have ⟨node, hn, hs⟩ := exists_node?_of_isOpen (h.isOpen (.head exits))
    rw [node?_fill hn, ← h.start]
    split
    case isFalse  => rfl
    case isTrue he =>
      subst he
      rw [hn]
      cases node
      case start =>
        exact absurd (h.start.mp hn).2 (by cases x <;> simp_all [Exit.slot, Node.slot?])
      all_goals rcases x.slot.2 with _ | _ | _ <;> simp [Node.fill]
  targets {s t} hl := by
    rw [Leads, slot?_fill (h.isOpen (.head exits))] at hl
    split at hl
    case isTrue  => cases hl; exact ⟨h₀, by simpa using ht⟩
    case isFalse => simpa using h.targets hl
  opens s := by
    have hc := h.opens s
    rw [slot?_fill (h.isOpen (.head exits))]
    rw [List.map_cons, List.count_cons] at hc
    by_cases he : s = x.slot
    · subst he
      simp [h.isOpen (.head exits)] at hc ⊢
      omega
    · simpa [he, eq_comm (a := x.slot)] using hc

theorem keeps_fill (h : Underway g (x :: exits)) (target : NodeId) :
    Keeps exits g (g.fill x.slot target) where
  grows := .of_fill (h.isOpen (.head exits)) target
  same {id} hm := by
    have ⟨node, hn, hs⟩ := exists_node?_of_isOpen (h.isOpen (.head exits))
    rw [node?_fill hn, if_neg]
    rintro rfl
    exact h.next_not_mem hm

-- A new node brings its own slots, all of them open.
theorem push {node : Node} (h : Underway g exits) (exits' : List Exit)
    (hs : ∀ next?, node ≠ .start next?)
    (hl : ∀ label target, node.slot? label ≠ some (some target))
    (ho : ∀ s, (exits'.map Exit.slot).count s =
      if s.1 = g.nextId ∧ node.slot? s.2 = some none then 1 else 0) :
    Underway (g.push node) (exits' ++ exits) where
  start {id next?} := by
    rw [node?_push, ← h.start]
    split
    case isFalse  => rfl
    case isTrue he =>
      subst he
      simp [node?, nextId, size, hs]
  targets {s t} hl' := by
    rw [Leads, slot?_push] at hl'
    split at hl'
    case isTrue  => exact absurd hl' (hl _ _)
    case isFalse => have ht := h.targets hl'; exact ⟨ht.1, by simp; omega⟩
  opens s := by
    rw [List.map_append, List.count_append, ho, h.opens, slot?_push]
    by_cases he : s.1 = g.nextId
    · have hn : g.slot? s = none := by rw [← slot?_nextId g s.2, ← he]
      simp [he, hn]
    · simp [he]

theorem keeps_push (h : Underway g exits) (node : Node) : Keeps exits g (g.push node) where
  grows := .of_push g node
  same {id} hm := by
    have ⟨_, _, hb⟩ := h.exists_block hm
    have := lt_size_of_node? hb
    rw [node?_push, if_neg]
    rintro rfl
    exact absurd this (Nat.lt_irrefl _)

theorem pushBlock (h : Underway g exits) :
    Underway (g.push (.block [] none false)) (.next g.nextId :: exits) := by
  refine h.push [.next g.nextId] nofun ?_ ?_
  · rintro (_ | _ | _) <;> simp [Node.slot?]
  · rintro ⟨id, _ | _ | _⟩ <;> by_cases he : g.nextId = id <;>
      simp [Exit.slot, Node.slot?, he, eq_comm (a := id)]

theorem pushCondition (h : Underway g exits) (on? : Option Syntax.Id)
    (first sense sense' : Bool) :
    Underway (g.push (.condition on? none none first))
      (.branch g.nextId .truthy sense :: .branch g.nextId .falsy sense' :: exits) := by
  refine h.push [.branch g.nextId .truthy sense, .branch g.nextId .falsy sense'] nofun ?_ ?_
  · rintro (_ | _ | _) <;> simp [Node.slot?]
  · rintro ⟨id, _ | _ | _⟩ <;> by_cases he : g.nextId = id <;>
      simp [Exit.slot, Node.slot?, he, eq_comm (a := id)]

-- The positions and the flag of a block have no part in the accounting.
theorem setBlock (h : Underway g exits) (hb : g.node? id = some (.block ps follower? inverted))
    (ps' : List Syntax.Id) (inverted' : Bool) :
    Underway (g.set id (.block ps' follower? inverted')) exits := by
  have hs := slot?_set_of_eq hb (.block ps' follower? inverted')
    (by rintro (_ | _ | _) <;> rfl)
  refine ⟨@fun i _ => ?_, fun hl => ?_, fun s => ?_⟩
  case refine_1 =>
    rw [node?_set, ← h.start]
    split
    case isTrue he => obtain ⟨rfl, -⟩ := he; simp [hb]
    case isFalse   => rfl
  case refine_2 => rw [size_set]; exact h.targets ((hs _).symm.trans hl)
  case refine_3 => exact hs s ▸ h.opens s

theorem keeps_setBlock (h : Underway g (.next id :: exits))
    (hb : g.node? id = some (.block ps none inverted)) (hp : ps <+: ps') (inverted' : Bool) :
    Keeps exits g (g.set id (.block ps' none inverted')) where
  grows := .of_set hb (.block hp)
  same {i} hm := by
    rw [node?_set, if_neg]
    rintro ⟨rfl, -⟩
    exact h.next_not_mem hm

end Underway
end Graph
end RoutineFlow.Flow
