import RoutineFlow.Proofs.Analysis

-- The graph of an analysis is well formed, whatever the tree, the scope and the settings: one start
-- node, one end node, and every slot of every node wired to a node other than the start. An
-- analysis that fails does so because of the program or its limits.

namespace RoutineFlow.Flow

open Syntax (Tree)

variable {g : Graph} {t : Tree} {task : Task} {id : NodeId} {node : Node} {lo mid hi : Nat}
  {ends ends' left : List LooseEnd} {e : LooseEnd} {dead : List Syntax.Id}

def Node.IsInner : Node → Prop
  | block .. | condition .. => True
  | start _ | finish        => False

namespace Graph

def IsInner (g : Graph) (id : NodeId) : Prop :=
  ∃ node, g.node? id = some node ∧ node.IsInner

theorem HasBlock.isInner (h : g.HasBlock id) : g.IsInner id :=
  have ⟨_, _, _, hn⟩ := h
  ⟨_, hn, trivial⟩

theorem Gathers.isInner (h : g.Gathers lo ends hi e) : Between g.IsInner lo hi := by
  cases h
  case sole          => exact .nil
  case join hb _ _ _ => exact .one hb.isInner

theorem Places.isInner (h : g.Places i lo ends hi e) : Between g.IsInner lo hi := by
  cases h
  case intro hg _ => exact hg.isInner

theorem Forks.isInner (h : g.Forks labelled lo ends hi sides) : Between g.IsInner lo hi := by
  induction h
  case nil           => exact .nil
  case side ih       => exact ih
  case block hn _ ih => exact .append (.one ⟨_, hn, trivial⟩) ih

end Graph

theorem Laid.isInner (h : Laid g t task lo ends hi ends' left dead) : Between g.IsInner lo hi := by
  induction h
  case skipped | nil                                 => exact .nil
  case cons ih₁ ih₂                                  => exact ih₁.append ih₂
  case strict hp ih                                  => exact ih.append hp.isInner
  case jump hp ih                                    => exact ih.append hp.isInner
  case block hp _ ih                                 => exact hp.isInner.append ih
  case parens hp _ ih                                => exact hp.isInner.append ih
  case negation hp _ ih                              => exact hp.isInner.append ih
  case passing ih                                    => exact ih
  case shortCircuit hf _ ih₁ ih₂                     => exact (ih₁.append hf.isInner).append ih₂
  case branchingOne hp _ hf _ ih₁ ih₂                =>
    exact ((hp.isInner.append ih₁).append hf.isInner).append ih₂
  case branchingTwo hp _ hf _ _ ih₁ ih₂ ih₃          =>
    exact (((hp.isInner.append ih₁).append hf.isInner).append ih₂).append ih₃
  case whileLoop hp _ hf _ _ _ ih₁ ih₂               =>
    exact ((hp.isInner.append ih₁).append hf.isInner).append ih₂
  case doWhileLoop hp _ hb _ _ hf _ ih₁ ih₂          =>
    have hn := Between.one hb.isInner
    exact (((hp.isInner.append hn).append ih₁).append ih₂).append hf.isInner
  case forLoop hp _ hg _ hf _ _ _ _ ih₁ ih₂ ih₃ ih₄  =>
    have hc := (hp.isInner.append ih₁).append (hg.isInner.append ih₂)
    exact ((hc.append hf.isInner).append ih₃).append ih₄

namespace Summary

structure WellFormed (s : Summary) : Prop where
  start     : s.start = ⟨0⟩
  finish    : s.finish.index + 1 = s.nodeCount
  isStart   : ∀ {id}, (∃ next?, s.graph.node? id = some (.start next?)) ↔ id = s.start
  isFinish  : ∀ {id}, s.graph.node? id = some .finish ↔ id = s.finish
  targets   : ∀ {e}, e ∈ s.graph.edges → e.target ≠ s.start ∧ e.target.index < s.nodeCount
  wired     : ∀ {id node}, s.graph.node? id = some node → node.isFullyWired
  branches  : ∀ {id on? truthy? falsy? first},
    s.graph.node? id = some (.condition on? truthy? falsy? first) → truthy?.isSome ∧ falsy?.isSome

variable {s : Summary}

theorem Draws.not_isOpen (h : s.Draws t scope) (slot : Slot) : ¬s.graph.IsOpen slot := by
  intro ho
  have hc := h.underway.opens slot
  rw [if_pos ho] at hc
  cases hc

theorem Draws.exists_target (h : s.Draws t scope) (hn : s.graph.node? id = some node)
    (label : EdgeLabel) (hs : (node.slot? label).isSome) :
    ∃ target, node.slot? label = some (some target) := by
  have ⟨target?, ht⟩ := Option.isSome_iff_exists.mp hs
  cases target?
  case some target => exact ⟨target, ht⟩
  case none =>
    refine absurd ?_ (h.not_isOpen (id, label))
    rw [Graph.IsOpen, Graph.slot?, hn]
    exact ht

theorem Draws.isFinish (h : s.Draws t scope) : s.graph.node? id = some .finish ↔ id = s.finish := by
  constructor
  case mpr => rintro rfl; exact h.finish
  case mp =>
    intro hn
    have ⟨_, _, hl, _⟩ := h.laid
    have hlt := Graph.lt_size_of_node? hn
    have hsz := h.last
    rcases Nat.lt_trichotomy id.index s.finish.index with hlt | heq | hgt
    case inr.inl => exact NodeId.ext heq
    case inr.inr => omega
    case inl =>
      rcases id with ⟨_ | i⟩
      case zero =>
        have h₀ := h.underway.start.mpr ⟨rfl, rfl⟩
        rw [hn] at h₀
        cases h₀
      case succ =>
        have ⟨node, hn', hi⟩ := hl.isInner (i + 1) (Nat.le_add_left 1 i) hlt
        rw [hn] at hn'
        cases hn'
        exact hi.elim

theorem Draws.branches (h : s.Draws t scope)
    (hn : s.graph.node? id = some (.condition on? truthy? falsy? first)) :
    truthy?.isSome ∧ falsy?.isSome := by
  have ⟨_, ht⟩ := h.exists_target hn (.branch .truthy) rfl
  have ⟨_, hf⟩ := h.exists_target hn (.branch .falsy) rfl
  simp_all [Node.slot?]

theorem Draws.wellFormed (h : s.Draws t scope) : s.WellFormed where
  start    := h.start
  finish   := h.last
  isFinish := h.isFinish
  branches := h.branches
  isStart {id} := by
    rw [h.start]
    constructor
    case mp  => rintro ⟨_, hn⟩; exact (h.underway.start.mp hn).1
    case mpr => rintro rfl; exact ⟨_, h.underway.start.mpr ⟨rfl, rfl⟩⟩
  targets he := by
    rw [h.start]
    exact h.underway.targets (Graph.mem_edges_iff.mp he)
  wired {id node} hn := by
    cases node
    case start     =>
      simp [(h.underway.start.mp hn).2, Node.isFullyWired, Node.successors, Node.quota]
    case finish    => rfl
    case block     =>
      obtain ⟨_, hb⟩ := h.exists_target hn .next rfl
      simp_all [Node.slot?, Node.isFullyWired, Node.successors, Node.quota]
    case condition =>
      obtain ⟨ht, hf⟩ := h.branches hn
      obtain ⟨_, ht⟩ := Option.isSome_iff_exists.mp ht
      obtain ⟨_, hf⟩ := Option.isSome_iff_exists.mp hf
      simp [ht, hf, Node.isFullyWired, Node.successors, Node.quota]

end Summary

theorem analyze_wellFormed (t : Tree) (settings : Settings) (scope : Syntax.Id) :
    match analyze t settings scope with
    | .ok s    => s.WellFormed
    | .error e => ¬e.IsInternal := by
  have h := analyze_draws t settings scope
  split
  case h_1 he => rw [he] at h; exact h.wellFormed
  case h_2 he => rw [he] at h; exact h

end RoutineFlow.Flow
