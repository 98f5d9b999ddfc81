import Mathlib.Data.List.Basic
import Mathlib.Logic.Relation
import RoutineFlow.Proofs.Promotion

-- Flow graphs built step by step from outside. Whichever steps are taken, and whether they fail or
-- not, edges are written once; and a step that fails leaves next to nothing behind.

namespace RoutineFlow.Flow

open Relation (ReflTransGen)

namespace Node

variable {node : Node} {label : EdgeLabel} {on? : Option Syntax.Id} {truthy? falsy? : Option NodeId}
  {first : Bool}

-- A node as it was made: without its edges, and with its flag down.
def bare : Node → Node
  | start _                 => start none
  | finish                  => finish
  | block positions _ _     => block positions none false
  | condition on? _ _ first => condition on? none none first

theorem bare_fill (node : Node) (target : NodeId) (label : EdgeLabel) :
    (node.fill target label).bare = node.bare := by
  cases node <;> rcases label with _ | _ | _ <;> rfl

theorem slot?_ne_some_of_bare (h : node.bare = node) (target : NodeId) :
    node.slot? label ≠ some (some target) := by
  rw [← h]
  cases node <;> rcases label with _ | _ | _ <;> simp [bare, slot?]

theorem successors_eq_nil_of_bare (h : node.bare = node) : node.successors = [] := by
  rw [← h]
  cases node <;> rfl

theorem length_successors_le (node : Node) : node.successors.length ≤ node.quota := by
  cases node
  case finish    => exact Nat.le_refl 0
  case start n?  => cases n? <;> simp [successors, quota]
  case block n? _ => cases n? <;> simp [successors, quota]
  case condition t? f? _ => cases t? <;> cases f? <;> simp [successors, quota]

end Node

namespace Graph

-- One change of a graph: a node as it is made, an edge in an open slot, or the flag of a block.
inductive Move : Graph → Graph → Prop
  | push (h : node.bare = node) : Move g (g.push node)
  | fill (h : g.IsOpen s) (ht : target.index < g.size) : Move g (g.fill s target)
  | flag (h : g.node? i = some (.block ps follower? inverted)) (inverted' : Bool) :
    Move g (g.set i (.block ps follower? inverted'))

abbrev Moves : Graph → Graph → Prop :=
  ReflTransGen Move

-- Every edge leads to a node of the graph (1), and no node has more edges than it may have (2).
structure Bounded (g : Graph) : Prop where
  targets : ∀ e ∈ g.edges, e.target ∈ g.ids                                            -- (1)
  quotas  : ∀ id node, g.node? id = some node → node.successors.length ≤ node.quota    -- (2)

-- What a graph keeps when it becomes another: the variants, labels and orders of its nodes (1) and
-- its edges (2), next to which there is none from the same slot (3).
structure Retains (g g' : Graph) : Prop where
  nodes : ∀ id node, g.node? id = some node →                                          -- (1)
    ∃ node', g'.node? id = some node' ∧ node'.bare = node.bare
  edges : ∀ e ∈ g.edges, e ∈ g'.edges                                                  -- (2)
  once  : ∀ e ∈ g.edges, ∀ e' ∈ g'.edges,                                              -- (3)
    e'.source = e.source → e'.label = e.label → e' = e

variable {g g' : Graph} {id source target : NodeId} {old new : Node} {s : Slot} {branch : Branch}
  {e : Edge} {label : EdgeLabel}

theorem ids_push (g : Graph) (node : Node) : (g.push node).ids = g.ids ++ [g.nextId] := by
  simp [ids, nextId, List.range_succ]

theorem successors_push (g : Graph) (node : Node) (id : NodeId) :
    (g.push node).successors id = if id = g.nextId then node.successors else g.successors id := by
  rw [successors, node?_push]
  split <;> rfl

theorem successors_set (hn : g.node? id = some old) (hs : new.successors = old.successors)
    (id' : NodeId) : (g.set id new).successors id' = g.successors id' := by
  rw [successors, node?_set]
  split
  case isTrue he => rw [← he.1, successors, hn, Option.elim_some, Option.elim_some, hs]
  case isFalse   => rfl

theorem edges_push (g : Graph) (h : new.successors = []) : (g.push new).edges = g.edges := by
  have hl : (g.push new).successors g.nextId = [] := by rw [successors_push, if_pos rfl, h]
  rw [edges, ids_push, List.flatMap_append, List.flatMap_singleton, hl, List.map_nil,
    List.append_nil]
  refine List.flatMap_congr fun id hi => ?_
  have hne : id ≠ g.nextId := by
    rintro rfl
    exact absurd (mem_ids_iff.mp hi) (Nat.lt_irrefl _)
  rw [successors_push, if_neg hne]

theorem edges_set (hn : g.node? id = some old) (hs : new.successors = old.successors) :
    (g.set id new).edges = g.edges := by
  have hi : (g.set id new).ids = g.ids := by simp [ids]
  rw [edges, hi]
  exact List.flatMap_congr fun id' _ => by rw [successors_set hn hs]

theorem predecessors_eq_nil (h : ∀ e ∈ g.edges, e.target ≠ id) : g.predecessors id = [] := by
  refine List.filter_eq_nil_iff.mpr fun source _ ha => ?_
  have ⟨⟨label, target⟩, hs, ht⟩ := List.any_eq_true.mp ha
  exact h ⟨source, label, target⟩ (mem_edges_iff.mpr (mem_successors_iff.mp hs))
    (of_decide_eq_true ht)

namespace Move

theorem leads (h : g.Move g') (hl : g.Leads s target) : g'.Leads s target := by
  cases h
  case push node hb =>
    rw [Leads, slot?_push, if_neg]
    · exact hl
    · intro he
      obtain ⟨_, hn, _⟩ := Option.bind_eq_some_iff.mp hl
      exact ne_nextId hn he
  case fill ho _ =>
    rw [Leads, slot?_fill ho, if_neg]
    · exact hl
    · rintro rfl
      rw [Leads, ho] at hl
      cases hl
  case flag inverted' hn =>
    rw [Leads, slot?_set_of_eq hn _ (by rintro (_ | _ | _) <;> rfl)]
    exact hl

theorem target_lt (h : g.Move g') (ht : ∀ s target, g.Leads s target → target.index < g.size) :
    ∀ s target, g'.Leads s target → target.index < g'.size := by
  intro s target hl
  cases h
  case push node hb =>
    rw [Leads, slot?_push] at hl
    split at hl
    case isTrue  => exact absurd hl (Node.slot?_ne_some_of_bare hb target)
    case isFalse => rw [size_push]; exact Nat.lt_succ_of_lt (ht s target hl)
  case fill ho hi =>
    rw [Leads, slot?_fill ho] at hl
    rw [size_fill]
    split at hl
    case isTrue  => cases hl; exact hi
    case isFalse => exact ht s target hl
  case flag inverted' hn =>
    rw [Leads, slot?_set_of_eq hn _ (by rintro (_ | _ | _) <;> rfl)] at hl
    rw [size_set]
    exact ht s target hl

theorem node? (h : g.Move g') (hn : g.node? id = some old) :
    ∃ new, g'.node? id = some new ∧ new.bare = old.bare := by
  cases h
  case push       => exact ⟨old, by rw [node?_push, if_neg (ne_nextId hn), hn], rfl⟩
  case fill s t ho _ =>
    have ⟨_, ho, _⟩ := exists_node?_of_isOpen ho
    rw [node?_fill ho]
    split
    case isTrue he =>
      subst he
      cases hn.symm.trans ho
      exact ⟨_, rfl, Node.bare_fill ..⟩
    case isFalse => exact ⟨old, hn, rfl⟩
  case flag inverted' hb =>
    rw [node?_set]
    split
    case isTrue he =>
      rw [← he.1, hb] at hn
      cases hn
      exact ⟨_, rfl, rfl⟩
    case isFalse => exact ⟨old, hn, rfl⟩

end Move

namespace Moves

theorem leads (h : g.Moves g') (hl : g.Leads s target) : g'.Leads s target := by
  induction h
  case refl         => exact hl
  case tail _ hm ih => exact hm.leads ih

theorem node? (h : g.Moves g') (hn : g.node? id = some old) :
    ∃ new, g'.node? id = some new ∧ new.bare = old.bare := by
  induction h
  case refl => exact ⟨old, hn, rfl⟩
  case tail _ hm ih =>
    have ⟨_, hn₁, he₁⟩ := ih
    have ⟨new, hn₂, he₂⟩ := hm.node? hn₁
    exact ⟨new, hn₂, he₂.trans he₁⟩

theorem retains (h : g.Moves g') : g.Retains g' where
  nodes _ _ hn := h.node? hn
  edges _ he   := mem_edges_iff.mpr (h.leads (mem_edges_iff.mp he))
  once e he e' he' hs hl := by
    have hk := h.leads (mem_edges_iff.mp he)
    have hk' := mem_edges_iff.mp he'
    rw [hs, hl, Leads, hk] at hk'
    obtain ⟨_, _, _⟩ := e
    obtain ⟨_, _, _⟩ := e'
    simp_all

theorem bounded (h : Moves {} g) : g.Bounded := by
  have ht : ∀ s target, g.Leads s target → target.index < g.size := by
    induction h
    case refl         => exact fun s target hl => absurd hl (by simp [slot?, Graph.node?])
    case tail _ hm ih => exact hm.target_lt ih
  exact ⟨fun e he => mem_ids_iff.mpr (ht _ _ (mem_edges_iff.mp he)),
    fun _ node _ => node.length_successors_le⟩

end Moves

theorem wireBranch_eq_ok (h : g.wireBranch source branch target = .ok g') :
    g.IsOpen (source, .branch branch) ∧ target.index < g.size ∧
      g' = g.fill (source, .branch branch) target := by
  unfold wireBranch at h
  split at h
  case h_3 node ht hn =>
    have hl := lt_size_of_node? ht
    split at h
    case h_3 => cases h
    all_goals
      cases h
      exact ⟨by simp [IsOpen, slot?, hn, Node.slot?], hl, by simp [fill, hn, Node.fill]⟩
  all_goals cases h

theorem wire_eq_ok (h : g.wire source target = .ok g') :
    ∃ label, g.IsOpen (source, label) ∧ target.index < g.size ∧
      g' = g.fill (source, label) target := by
  unfold wire at h
  split at h
  case h_3 node ht hn =>
    have hl := lt_size_of_node? ht
    split at h
    case h_3 => exact ⟨_, wireBranch_eq_ok h⟩
    case h_4 => cases h
    all_goals
      cases h
      exact ⟨.next, by simp [IsOpen, slot?, hn, Node.slot?], hl, by simp [fill, hn, Node.fill]⟩
  all_goals cases h

-- A plain edge from a condition takes the side that comes first, if it is free, or else the other.
theorem wire_condition (hn : g.node? id = some (.condition on? truthy? falsy? first))
    (ht : target.index < g.size) :
    g.wire id target =
      if g.IsOpen (id, .branch (.ofValue first)) then
        .ok (g.fill (id, .branch (.ofValue first)) target)
      else if g.IsOpen (id, .branch (.ofValue !first)) then
        .ok (g.fill (id, .branch (.ofValue !first)) target)
      else
        .error (.edgeQuotaExceeded id 2) := by
  have ⟨_, ht'⟩ := Option.isSome_iff_exists.mp (node?_isSome_iff.mpr ht)
  have hw (side : Branch) (ho : g.IsOpen (id, .branch side)) := wireBranch_eq ho ht
  cases first <;> cases truthy? <;> cases falsy? <;>
    simp_all [wire, IsOpen, slot?, Node.slot?, Branch.ofValue, Node.immediate?, Node.target?,
      Branch.other, Node.quota]

namespace Build

theorem step_apply (f : Graph → Except Error Graph) (g : Graph) :
    step f g = (match f g with
      | .ok g'   => (.ok (), g')
      | .error e => (.error e, g)) :=
  rfl

theorem map_apply (f : α → β) (build : Build α) (g : Graph) :
    (f <$> build) g = ((build g).1.map f, (build g).2) := by
  change (ExceptT.map f build) g = _
  unfold ExceptT.map
  change ((build >>= fun a => _) : StateM Graph _) g = _
  simp only [bind, StateT.bind]
  rcases build g with ⟨_ | _, _⟩ <;> rfl

theorem fails_map {f : α → β} {build : Build α} {e : Error}
    (h : ((f <$> build) g).1 = .error e) : (build g).1 = .error e := by
  rw [map_apply] at h
  cases hb : (build g).1
  case ok    => rw [hb] at h; cases h
  case error => rw [hb] at h; cases h; rfl

theorem block_apply (source : NodeId) (g : Graph) :
    block source g = (match (g.push (.block [] none false)).wire source g.nextId with
      | .ok g'   => (.ok g.nextId, g')
      | .error e => (.error e, g.push (.block [] none false))) := by
  change (wire source g.nextId >>= fun _ => pure g.nextId : Build NodeId) _ = _
  split
  case h_1 hw => exact wire_bind hw
  case h_2 hw => exact wire_bind_error hw

theorem promote_apply (hn : g.node? source = some (.block ps follower? inverted)) (first : Bool) :
    promote source first g =
      let g₁ := g.set source (.block ps follower? false)
      let g₂ := g₁.push (.condition ps.getLast? none none (first != inverted))
      match g₂.wire source g.nextId with
      | .ok g'   => (.ok g.nextId, g')
      | .error e => (.error e, g₂) := by
  have hx : (g.set source (.block ps follower? false)).nextId = g.nextId := by simp [nextId]
  rw [promote, get_bind, hn, ← hx]
  let target := (g.set source (.block ps follower? false)).nextId
  change (wire source target >>= fun _ => pure target : Build NodeId) _ = _
  dsimp only
  split
  case h_1 hw => exact wire_bind hw
  case h_2 hw => exact wire_bind_error hw

end Build
end Graph

open Graph

inductive Command
  | start
  | finish
  | block      (source : NodeId)
  | promote    (source : NodeId) (truthFirst : Bool)
  | wire       (source target : NodeId)
  | wireBranch (source : NodeId) (branch : Branch) (target : NodeId)
  | invert     (id : NodeId)
deriving DecidableEq

namespace Command

-- The ids may be any. A step that makes or finds a node answers its id.
def build : Command → Build (Option NodeId)
  | start                           => some <$> Build.start
  | finish                          => some <$> Build.finish
  | block source                    => some <$> Build.block source
  | promote source truthFirst       => some <$> Build.promote source truthFirst
  | wire source target              => (fun _ => none) <$> Build.wire source target
  | wireBranch source branch target => (fun _ => none) <$> Build.wireBranch source branch target
  | invert id                       => (fun _ => none) <$> Build.step (·.invert id)

def result (command : Command) (g : Graph) : Except Error (Option NodeId) :=
  (command.build g).1

def after (command : Command) (g : Graph) : Graph :=
  (command.build g).2

-- The graph after some steps. A step that fails does not keep the others from being taken.
def run (commands : List Command) (g : Graph := {}) : Graph :=
  commands.foldl (fun g command => command.after g) g

variable {command : Command} {g : Graph} {e : Error} {id : NodeId}

theorem moves_step {f : Graph → Except Error Graph} (h : ∀ {g'}, f g = .ok g' → g.Moves g') :
    g.Moves (Build.step f g).2 := by
  rw [Build.step_apply]
  split
  case h_1 hf => exact h hf
  case h_2    => exact .refl

theorem moves_wire (source target : NodeId) {g' : Graph} (h : g.wire source target = .ok g') :
    g.Moves g' := by
  have ⟨_, ho, ht, he⟩ := wire_eq_ok h
  exact he ▸ .single (.fill ho ht)

theorem moves_after (command : Command) (g : Graph) : g.Moves (command.after g) := by
  unfold after
  cases command
  all_goals rw [build, Build.map_apply]
  case start  => exact .single (.push rfl)
  case finish => exact .single (.push rfl)
  case block source =>
    have hp : g.Moves (g.push (.block [] none false)) := .single (.push rfl)
    rw [Build.block_apply]
    split
    case h_1 hw => exact hp.trans (moves_wire _ _ hw)
    case h_2    => exact hp
  case promote source first =>
    cases hn : g.node? source
    case none      => rw [Build.promote, Build.get_bind, hn]; exact .refl
    case some node =>
      cases node
      case block ps follower? inverted =>
        have hf : g.Moves (g.set source (.block ps follower? false)) := .single (.flag hn false)
        have hp : g.Moves ((g.set source (.block ps follower? false)).push
            (.condition ps.getLast? none none (first != inverted))) := hf.tail (.push rfl)
        rw [Build.promote_apply hn]
        dsimp only
        split
        case h_1 hw => exact hp.trans (moves_wire _ _ hw)
        case h_2    => exact hp
      all_goals rw [Build.promote, Build.get_bind, hn]; exact .refl
  case wire source target => exact moves_step (moves_wire source target)
  case wireBranch source branch target =>
    refine moves_step fun h => ?_
    obtain ⟨ho, ht, he⟩ := wireBranch_eq_ok h
    exact he ▸ .single (.fill ho ht)
  case invert id =>
    refine moves_step fun h => ?_
    unfold Graph.invert at h
    split at h
    case h_1    => cases h
    case h_2 hn => cases h; exact .single (.flag hn _)
    case h_3    => cases h; exact .refl

theorem moves_run (commands : List Command) (g : Graph) : g.Moves (run commands g) := by
  induction commands generalizing g
  case nil            => exact .refl
  case cons c cs ih   => exact (moves_after c g).trans (ih (c.after g))

-- What a failed step may leave behind: no edge (1), a flag taken down from the block that it was to
-- promote (2), and one new node, which no edge leaves or enters (3).
structure Fails (command : Command) (g g' : Graph) : Prop where
  edges : g'.edges = g.edges                                                           -- (1)
  nodes : ∀ id ∈ g.ids, g'.node? id = g.node? id ∨                                     -- (2)
    ∃ first ps follower? inverted, command = .promote id first ∧
      g.node? id = some (.block ps follower? inverted) ∧
      g'.node? id = some (.block ps follower? false)
  size  : g'.size = g.size ∨ g'.size = g.size + 1 ∧                                    -- (3)
    g'.successors g.nextId = [] ∧ g'.predecessors g.nextId = []

namespace Fails

theorem unchanged (command : Command) (g : Graph) : command.Fails g g :=
  ⟨rfl, fun _ _ => .inl rfl, .inl rfl⟩

-- A node that was made before the step failed.
theorem push {g₁ : Graph} {new : Node} (hg : g.Bounded) (hb : new.bare = new)
    (he : g₁.edges = g.edges) (hs : g₁.size = g.size)
    (hn : ∀ id ∈ g.ids, g₁.node? id = g.node? id ∨
      ∃ first ps follower? inverted, command = .promote id first ∧
        g.node? id = some (.block ps follower? inverted) ∧
        g₁.node? id = some (.block ps follower? false)) :
    command.Fails g (g₁.push new) := by
  have hx : g₁.nextId = g.nextId := by rw [nextId, nextId, hs]
  have hl := Node.successors_eq_nil_of_bare hb
  have hi {id} (h : id ∈ g.ids) : id ≠ g.nextId := by
    rintro rfl
    exact absurd (mem_ids_iff.mp h) (Nat.lt_irrefl _)
  have he' : (g₁.push new).edges = g.edges := (edges_push g₁ hl).trans he
  refine ⟨he', fun id h => ?_, .inr ⟨by rw [size_push, hs], ?_, ?_⟩⟩
  · rw [node?_push, hx, if_neg (hi h)]
    exact hn id h
  · rw [successors_push, hx, if_pos rfl, hl]
  · refine predecessors_eq_nil fun e hm => hi (hg.targets e ?_)
    rwa [he'] at hm

end Fails

theorem fails_step {f : Graph → Except Error Graph} (h : (Build.step f g).1 = .error e) :
    command.Fails g (Build.step f g).2 := by
  rw [Build.step_apply] at h ⊢
  split at h
  case h_1    => cases h
  case h_2 hf => simpa only [hf] using .unchanged command g

theorem fails_after (hg : g.Bounded) (h : command.result g = .error e) :
    command.Fails g (command.after g) := by
  unfold result at h
  unfold after
  cases command
  all_goals
    rw [build, Build.map_apply]
    replace h := Build.fails_map h
  case start  => cases h
  case finish => cases h
  case block source =>
    rw [Build.block_apply] at h ⊢
    split at h
    case h_1    => cases h
    case h_2 => exact .push hg rfl rfl rfl fun _ _ => .inl rfl
  case promote source first =>
    cases hn : g.node? source
    case none =>
      rw [Build.promote, Build.get_bind, hn]
      exact .unchanged _ g
    case some node =>
      cases node
      case block ps follower? inverted =>
        rw [Build.promote_apply hn] at h ⊢
        dsimp only at h ⊢
        split at h
        case h_1    => cases h
        case h_2 =>
          refine .push hg rfl (edges_set hn rfl) (size_set ..) fun id hi => ?_
          rw [node?_set]
          split
          case isTrue he  =>
            obtain ⟨rfl, _⟩ := he
            exact .inr ⟨first, ps, follower?, inverted, rfl, hn, rfl⟩
          case isFalse    => exact .inl rfl
      all_goals
        rw [Build.promote, Build.get_bind, hn]
        exact .unchanged _ g
  all_goals exact fails_step h

-- In which order a condition takes plain edges (1), and that it is its own condition (2).
structure Decides (g : Graph) (id : NodeId) (first : Bool) : Prop where
  plain   : ∀ target ∈ g.ids, (wire id target).build g =                               -- (1)
    if g.IsOpen (id, .branch (.ofValue first)) then
      (.ok none, g.fill (id, .branch (.ofValue first)) target)
    else if g.IsOpen (id, .branch (.ofValue !first)) then
      (.ok none, g.fill (id, .branch (.ofValue !first)) target)
    else
      (.error (.edgeQuotaExceeded id 2), g)
  promote : ∀ first', (promote id first').build g = (.ok (some id), g)                 -- (2)

theorem decides (hn : g.node? id = some (.condition on? truthy? falsy? first)) :
    Decides g id first where
  plain target ht := by
    rw [build, Build.map_apply, Build.wire, Build.step_apply,
      wire_condition hn (mem_ids_iff.mp ht)]
    by_cases ho : g.IsOpen (id, .branch (.ofValue first))
    case pos => simp only [if_pos ho]; rfl
    case neg =>
      by_cases ho' : g.IsOpen (id, .branch (.ofValue !first))
      case pos => simp only [if_neg ho, if_pos ho']; rfl
      case neg => simp only [if_neg ho, if_neg ho']; rfl
  promote _ := by
    rw [build, Build.map_apply, Build.promote, Build.get_bind, hn]
    rfl

-- Whatever was done before: edges stay within the graph and its quotas, what is done afterwards
-- changes none of them, conditions keep their order, and a failed step does next to nothing.
theorem run_writeOnce (earlier later : List Command) :
    (run earlier).Bounded ∧ (run earlier).Retains (run later (run earlier)) ∧
    (∀ id on? truthy? falsy? first,
      (run earlier).node? id = some (.condition on? truthy? falsy? first) →
      Decides (run later (run earlier)) id first) ∧
    ∀ (command : Command) (e : Error), command.result (run earlier) = .error e →
      command.Fails (run earlier) (command.after (run earlier)) := by
  have hg : (run earlier).Bounded := (moves_run earlier {}).bounded
  have hm := moves_run later (run earlier)
  refine ⟨hg, hm.retains, fun id on? truthy? falsy? first hn => ?_, fun _ _ => fails_after hg⟩
  have ⟨new, hn', hb⟩ := hm.node? hn
  cases new
  case condition => cases hb; exact decides hn'
  all_goals cases hb

end Command
end RoutineFlow.Flow
