import Mathlib.Algebra.GroupWithZero.Nat
import RoutineFlow.Proofs.Connected
import RoutineFlow.Proofs.Policies
import RoutineFlow.Proofs.WellFormed

-- The cyclomatic complexity counts decisions. In any graph it is one more than the number of
-- conditions, since every other node but the end has one way out; and where nothing is left out,
-- the conditions are those that can be read off the syntax.

namespace RoutineFlow

namespace Syntax

-- How many decisions a construct takes: where it is run, and where its truth is asked for.
structure Cost where
  run  : Nat
  test : Nat

namespace Form

variable (cost : Id → Cost)

def runs (ids : List Id) : Nat :=
  (ids.map fun id => (cost id).run).sum

def tests (ids : List Id) : Nat :=
  (ids.map fun id => (cost id).test).sum

-- A loop without a condition decides once all the same.
def run : Form → Nat
  | strict parts | block parts | jump parts | passing parts => runs cost parts
  | parens inner                          => (cost inner).run
  | negation operand                      => (cost operand).run
  | shortCircuit _ left right             => (cost left).test + (cost right).run
  | branching condition yes no?           =>
    (cost condition).test + runs cost (yes :: no?.toList)
  | whileLoop condition body              => (cost condition).test + (cost body).run
  | doWhileLoop body condition            => (cost body).run + (cost condition).test
  | forLoop init condition? update body   =>
    runs cost init + condition?.elim 1 (fun c => (cost c).test) + (cost body).run + runs cost update

-- The truth of a position is one more decision, that of what only leads to its parts is theirs.
def test : Form → Nat
  | parens inner                => (cost inner).test
  | negation operand            => (cost operand).test
  | shortCircuit _ left right   => (cost left).test + (cost right).test
  | branching condition yes no? => (cost condition).test + tests cost (yes :: no?.toList)
  | form                        => form.run cost + 1

variable {cost} {cost' : Id → Cost} {form : Form}

theorem runs_congr (h : ∀ id ∈ ids, cost id = cost' id) : runs cost ids = runs cost' ids :=
  congrArg List.sum (List.map_congr_left fun id hm => congrArg Cost.run (h id hm))

theorem tests_congr (h : ∀ id ∈ ids, cost id = cost' id) : tests cost ids = tests cost' ids :=
  congrArg List.sum (List.map_congr_left fun id hm => congrArg Cost.test (h id hm))

theorem run_congr (h : ∀ part ∈ form.parts, cost part = cost' part) :
    form.run cost = form.run cost' := by
  cases form
  case forLoop init condition? update body =>
    have hi : runs cost init = runs cost' init := runs_congr fun id hm => h id (by simp [parts, hm])
    have hu : runs cost update = runs cost' update :=
      runs_congr fun id hm => h id (by simp [parts, hm])
    have hb : cost body = cost' body := h body (by simp [parts])
    cases condition?
    case none   => simp only [run, hi, hu, hb, Option.elim_none]
    case some c =>
      have hc : cost c = cost' c := h c (by simp [parts])
      simp only [run, hi, hu, hb, hc, Option.elim_some]
  case branching condition yes no? =>
    obtain ⟨hc, hp⟩ := List.forall_mem_cons.mp h
    simp only [run, hc, runs_congr hp]
  case strict | block | jump | passing => exact runs_congr h
  all_goals simp_all [run, parts]

theorem test_congr (h : ∀ part ∈ form.parts, cost part = cost' part) :
    form.test cost = form.test cost' := by
  have hr := run_congr h
  cases form
  case branching condition yes no? =>
    have ⟨hc, hp⟩ := List.forall_mem_cons.mp h
    simp only [test, hc, tests_congr hp]
  all_goals simp_all [test, parts]

end Form

namespace Tree

variable {t : Tree} {id : Id} {form : Form}

def costing : Scheme Cost where
  missing _     := ⟨0, 1⟩
  make _ kind v := ⟨kind.form.run v, kind.form.test v⟩
  congr h       := by rw [Form.run_congr h, Form.test_congr h]

def cost (t : Tree) : Id → Cost :=
  t.fold costing

theorem WellShaped.cost_eq (hw : t.WellShaped) (hf : t.form? id = some form) :
    t.cost id = ⟨form.run t.cost, form.test t.cost⟩ := by
  have ⟨kind, hk, he⟩ := Option.map_eq_some_iff.mp hf
  subst he
  exact hw.fold_eq costing hk

end Tree
end Syntax

namespace Flow

open Syntax (Tree Form fetching)

variable {g : Graph} {t : Tree} {task : Task} {lo mid hi : Nat} {i : Syntax.Id} {id : NodeId}
  {ends ends' left sides : List LooseEnd} {e : LooseEnd} {dead : List Syntax.Id} {s : Summary}
  {settings : Settings} {scope : Syntax.Id} {form : Form} {labelled : Bool}

def LooseEnd.isBlock : LooseEnd → Bool
  | block .. => true
  | side ..  => false

@[simp]
theorem LooseEnd.isBlock_negate (e : LooseEnd) : e.negate.isBlock = e.isBlock := by
  cases e <;> rfl

namespace Graph

def isCondition (g : Graph) (id : NodeId) : Bool :=
  (g.node? id).any Node.isCondition

-- The number of conditions among the nodes that are numbered below `n`.
def conditionsBelow (g : Graph) (n : Nat) : Nat :=
  (List.range n).countP fun i => g.isCondition ⟨i⟩

-- The ends that become a condition where the flow is told apart.
def untold (ends : List LooseEnd) : Nat :=
  ends.countP (·.isBlock)

theorem untold_append (ends ends' : List LooseEnd) :
    untold (ends ++ ends') = untold ends + untold ends' :=
  List.countP_append

theorem untold_join (on : Bool) (ends ends' : List LooseEnd) :
    untold (if on then ends ++ ends' else ends' ++ ends) = untold ends + untold ends' := by
  cases on
  case true  => exact untold_append ends ends'
  case false => exact (untold_append ends' ends).trans (Nat.add_comm _ _)

theorem conditionsBelow_succ (g : Graph) (n : Nat) :
    g.conditionsBelow (n + 1) = g.conditionsBelow n + if g.isCondition ⟨n⟩ then 1 else 0 := by
  simp [conditionsBelow, List.range_succ, List.countP_append, List.countP_singleton]

theorem HasBlock.isCondition_eq (h : g.HasBlock id) : g.isCondition id = false := by
  obtain ⟨_, _, _, hn⟩ := h
  simp [isCondition, hn, Node.isCondition]

theorem Gathers.conditions (h : g.Gathers lo ends hi e) :
    g.conditionsBelow hi = g.conditionsBelow lo := by
  cases h
  case sole          => rfl
  case join hb _ _ _ => simp [conditionsBelow_succ, hb.isCondition_eq]

theorem Gathers.untold (h : g.Gathers lo ends hi e) : untold [e] = 1 := by
  cases h <;> rfl

theorem Places.conditions (h : g.Places i lo ends hi e) :
    g.conditionsBelow hi = g.conditionsBelow lo := by
  cases h
  case intro hg _ => exact hg.conditions

theorem Places.untold (h : g.Places i lo ends hi e) : untold [e] = 1 := by
  cases h
  rfl

theorem Forks.conditions (h : g.Forks labelled lo ends hi sides) :
    g.conditionsBelow hi = g.conditionsBelow lo + untold ends := by
  induction h
  case nil     => rfl
  case side ih => simpa [Graph.untold, LooseEnd.isBlock] using ih
  case block hn _ ih =>
    rw [ih, conditionsBelow_succ]
    simp [isCondition, hn, Node.isCondition, Graph.untold, LooseEnd.isBlock]
    omega

theorem Forks.untold (h : g.Forks labelled lo ends hi sides) (p : LooseEnd → Bool) :
    untold (sides.filter p) = 0 := by
  have hs : ∀ e ∈ sides, e.isBlock = false := by
    induction h
    case nil      => exact nofun
    case side ih  => exact List.forall_mem_cons.mpr ⟨rfl, ih⟩
    case block ih => exact List.forall_mem_cons.mpr ⟨rfl, List.forall_mem_cons.mpr ⟨rfl, ih⟩⟩
  refine List.countP_eq_zero.mpr fun e he => ?_
  simp [hs e (List.mem_filter.mp he).1]

end Graph

open Graph

-- Where the truth of an expression is asked for, each block at its end is one more decision.
theorem Laid.test_cost (hw : t.WellShaped) (h : Laid g t task lo ends hi ends' left dead)
    (hv : task.Valued t true) (hd : dead = []) :
    ∀ i ∈ task.ids, (t.cost i).run + untold ends' = (t.cost i).test := by
  induction h
  case skipped => cases hd
  case nil  => cases hv.1
  case cons => cases hv.1
  case strict hf _ hp _ =>
    simp [hw.cost_eq hf, Form.test, hp.untold]
  case passing hf _ _ => cases (Tree.Valued.parts hv hf).1
  case parens hf _ _ ih =>
    have hi := ih (Tree.Valued.parts hv hf) hd _ (.head _)
    simpa [hw.cost_eq hf, Form.run, Form.test] using hi
  case negation hf _ _ ih =>
    have hi := ih (Tree.Valued.parts hv hf) hd _ (.head _)
    simpa [hw.cost_eq hf, Form.run, Form.test, untold, List.countP_map, Function.comp_def] using hi
  case shortCircuit hf _ hk _ ih₁ ih₂ =>
    have ⟨hl, hr⟩ := Tree.Valued.parts hv hf
    have h₂ := ih₂ hr (List.append_eq_nil_iff.mp hd).2 _ (.head _)
    have hs := hk.untold
    refine List.forall_mem_singleton.mpr ?_
    rw [hw.cost_eq hf, untold_join, hs]
    simp only [Form.run, Form.test]
    omega
  case branchingTwo hf _ _ _ _ _ ih₁ ih₂ ih₃ =>
    have ⟨_, hy, hn⟩ := Tree.Valued.parts hv hf
    have ⟨hd₁₂, hd₃⟩ := List.append_eq_nil_iff.mp hd
    have h₂ := ih₂ hy (List.append_eq_nil_iff.mp hd₁₂).2 _ (.head _)
    have h₃ := ih₃ hn hd₃ _ (.head _)
    refine List.forall_mem_singleton.mpr ?_
    rw [hw.cost_eq hf, untold_append]
    simp [Form.run, Form.test, Form.runs, Form.tests]
    omega
  case block hf _ _ _              => exact (Tree.Valued.parts hv hf).elim
  case branchingOne hf _ _ _ _ _ _ => exact (Tree.Valued.parts hv hf).elim
  case whileLoop hf _ _ _ _ _ _ _ _ => exact (Tree.Valued.parts hv hf).elim
  case doWhileLoop hf _ _ _ _ _ _ _ _ _ => exact (Tree.Valued.parts hv hf).elim
  case forLoop hf _ _ _ _ _ _ _ _ _ _ _ _ _ => exact (Tree.Valued.parts hv hf).elim
  case jump hf _ _ _ => exact (Tree.Valued.parts hv hf).elim

theorem Laid.test_conditions (hw : t.WellShaped) (hv : t.Valued true condition)
    (h : Laid g t (.node condition) lo ends mid ends' left dead) (hd : dead = [])
    (hk : g.Forks labelled mid ends' hi sides)
    (hc : g.conditionsBelow mid = g.conditionsBelow lo + Form.runs t.cost [condition]) :
    g.conditionsBelow hi = g.conditionsBelow lo + (t.cost condition).test := by
  have ht := h.test_cost hw hv hd condition (.head _)
  rw [hk.conditions, hc, ← ht, Nat.add_assoc]
  rfl

theorem Laid.test_conditions? {condition? : Option Syntax.Id} (hw : t.WellShaped)
    (hv : ∀ c ∈ condition?.toList, t.Valued true c)
    (h : Laid g t (.parts condition?.toList) lo [e] mid ends left dead) (hd : dead = [])
    (he : untold [e] = 1) (hk : g.Forks labelled mid ends hi sides)
    (hc : g.conditionsBelow mid = g.conditionsBelow lo + Form.runs t.cost condition?.toList) :
    g.conditionsBelow hi =
      g.conditionsBelow lo + condition?.elim 1 fun c => (t.cost c).test := by
  cases condition?
  case none =>
    cases h
    rw [hk.conditions, he]
    rfl
  case some c =>
    cases h
    case cons hl hn =>
      cases hn
      exact hl.test_conditions hw (hv c (.head _)) (List.append_eq_nil_iff.mp hd).1 hk hc

theorem Laid.conditions (hw : t.WellShaped) (h : Laid g t task lo ends hi ends' left dead)
    (hd : dead = []) :
    g.conditionsBelow hi = g.conditionsBelow lo + Form.runs t.cost task.ids := by
  induction h
  case skipped => cases hd
  case nil     => rfl
  case cons ih₁ ih₂ =>
    have ⟨hd₁, hd₂⟩ := List.append_eq_nil_iff.mp hd
    rw [ih₂ hd₂, ih₁ hd₁]
    simp [Form.runs]
    omega
  case strict hf _ hp ih =>
    rw [hp.conditions, ih hd]
    simp [Form.runs, hw.cost_eq hf, Form.run]
  case passing hf _ ih =>
    rw [ih hd]
    simp [Form.runs, hw.cost_eq hf, Form.run]
  case jump hf _ hp ih =>
    rw [hp.conditions, ih hd]
    simp [Form.runs, hw.cost_eq hf, Form.run]
  case block hf hp _ ih =>
    rw [ih hd, hp.conditions]
    simp [Form.runs, hw.cost_eq hf, Form.run]
  case parens hf hp _ ih =>
    rw [ih hd, hp.conditions]
    simp [Form.runs, hw.cost_eq hf, Form.run]
  case negation hf hp _ ih =>
    rw [ih hd, hp.conditions]
    simp [Form.runs, hw.cost_eq hf, Form.run]
  case shortCircuit hf hl hk _ ih₁ ih₂ =>
    have ⟨hd₁, hd₂⟩ := List.append_eq_nil_iff.mp hd
    have hc := hl.test_conditions hw (hw.valued_of_tested hf (.head _)) hd₁ hk (ih₁ hd₁)
    rw [ih₂ hd₂, hc]
    simp [Form.runs, hw.cost_eq hf, Form.run]
    omega
  case branchingOne hf hp hl hk _ ih₁ ih₂ =>
    have ⟨hd₁, hd₂⟩ := List.append_eq_nil_iff.mp hd
    have hc := hl.test_conditions hw (hw.valued_of_tested hf (.head _)) hd₁ hk (ih₁ hd₁)
    rw [ih₂ hd₂, hc, hp.conditions]
    simp [Form.runs, hw.cost_eq hf, Form.run]
    omega
  case branchingTwo hf hp hl hk _ _ ih₁ ih₂ ih₃ =>
    have ⟨hd₁₂, hd₃⟩ := List.append_eq_nil_iff.mp hd
    have ⟨hd₁, hd₂⟩ := List.append_eq_nil_iff.mp hd₁₂
    have hc := hl.test_conditions hw (hw.valued_of_tested hf (.head _)) hd₁ hk (ih₁ hd₁)
    rw [ih₃ hd₃, ih₂ hd₂, hc, hp.conditions]
    simp [Form.runs, hw.cost_eq hf, Form.run]
    omega
  case whileLoop hf hp hl hk _ _ _ ih₁ ih₂ =>
    have ⟨hd₁, hd₂⟩ := List.append_eq_nil_iff.mp hd
    have hc := hl.test_conditions hw (hw.valued_of_tested hf (.head _)) hd₁ hk (ih₁ hd₁)
    rw [ih₂ hd₂, hc, hp.conditions]
    simp [Form.runs, hw.cost_eq hf, Form.run]
    omega
  case doWhileLoop hf hp _ hb _ hl hk _ ih₁ ih₂ =>
    have ⟨hd₁, hd₂⟩ := List.append_eq_nil_iff.mp hd
    have hc := hl.test_conditions hw (hw.valued_of_tested hf (.head _)) hd₂ hk (ih₂ hd₂)
    rw [hc, ih₁ hd₁, conditionsBelow_succ, hb.isCondition_eq, hp.conditions]
    simp [Form.runs, hw.cost_eq hf, Form.run]
    omega
  case forLoop hf hp _ hg hl hk _ _ _ _ ih₁ ih₂ ih₃ ih₄ =>
    have ⟨hd₁₃, hd₄⟩ := List.append_eq_nil_iff.mp hd
    have ⟨hd₁₂, hd₃⟩ := List.append_eq_nil_iff.mp hd₁₃
    have ⟨hd₁, hd₂⟩ := List.append_eq_nil_iff.mp hd₁₂
    have hv c (hm : c ∈ _) := hw.valued_of_tested hf hm
    have hc := hl.test_conditions? hw hv hd₂ hg.untold hk (ih₂ hd₂)
    rw [ih₄ hd₄, ih₃ hd₃, hc, hg.conditions, ih₁ hd₁, hp.conditions]
    simp [Form.runs, hw.cost_eq hf, Form.run]
    omega

namespace Summary

theorem length_conditions (s : Summary) :
    s.conditions.length = s.graph.conditionsBelow s.nodeCount := by
  simp [conditions, nodesThat, Graph.ids, conditionsBelow, nodeCount, isCondition,
    ← List.countP_eq_length_filter, List.countP_map, Function.comp_def]

namespace WellFormed

-- Each node has one way out, but for the end, which has none, and for conditions, which have two.
theorem length_successors (h : s.WellFormed) (hi : id ∈ s.graph.ids) :
    (s.graph.successors id).length + (if id = s.finish then 1 else 0) =
      1 + if s.graph.isCondition id then 1 else 0 := by
  have hs := Graph.node?_isSome_iff.mpr (Graph.mem_ids_iff.mp hi)
  have ⟨node, hn⟩ := Option.isSome_iff_exists.mp hs
  have hf : s.graph.node? id = some .finish ↔ id = s.finish := h.isFinish
  have hw := h.wired hn
  rw [hn] at hf
  simp only [Node.isFullyWired, decide_eq_true_eq] at hw
  simp only [successors, hn, Option.elim_some, hw, ← hf, isCondition, Option.any_some]
  cases node <;> simp [Node.quota, Node.isCondition]

theorem length_edges (h : s.WellFormed) {ids : List NodeId} (hi : ids ⊆ s.graph.ids) :
    (ids.flatMap s.graph.successors).length + ids.count s.finish =
      ids.length + ids.countP s.graph.isCondition := by
  induction ids
  case nil => rfl
  case cons id ids ih =>
    have ⟨hm, hi⟩ := List.cons_subset.mp hi
    have hs := h.length_successors hm
    have hc := ih hi
    simp only [List.flatMap_cons, List.length_append, List.count_cons, List.countP_cons,
      List.length_cons, beq_iff_eq]
    omega

theorem edgeCount_eq (h : s.WellFormed) : s.edgeCount + 1 = s.nodeCount + s.conditions.length := by
  have hi : s.finish ∈ s.graph.ids :=
    Graph.mem_ids_iff.mpr (Nat.lt_of_succ_le (Nat.le_of_eq h.finish))
  have hc := h.length_edges (List.Subset.refl _)
  rw [List.count_eq_one_of_mem s.graph.nodup_ids hi] at hc
  have he : s.edgeCount = (s.graph.ids.flatMap s.graph.successors).length := by
    simp [edgeCount, Graph.edges, List.length_flatMap]
  have hn : s.graph.ids.length = s.nodeCount := by simp [Graph.ids, nodeCount]
  have hk : s.graph.ids.countP s.graph.isCondition = s.conditions.length :=
    List.countP_eq_length_filter
  rw [he, hc, hn, hk]

end WellFormed

theorem Draws.conditions_eq (hw : t.WellShaped) (h : s.Draws t scope) (hd : s.unreachable = []) :
    s.conditions.length = (t.cost scope).run := by
  have ⟨_, _, hl, _⟩ := h.laid
  have hs : s.graph.isCondition ⟨0⟩ = false := by
    simp [isCondition, h.underway.start.mpr ⟨rfl, rfl⟩, Node.isCondition]
  have hf : s.graph.isCondition ⟨s.finish.index⟩ = false := by
    simp [isCondition, h.finish, Node.isCondition]
  have hc := hl.conditions hw hd
  have hl : s.nodeCount = s.finish.index + 1 := h.last.symm
  rw [s.length_conditions, hl, conditionsBelow_succ, hf, hc, conditionsBelow_succ, hs]
  simp [conditionsBelow, Form.runs]

end Summary

theorem analyze_complexity (h : analyze t settings scope = .ok s) :
    s.nodeCount ≤ s.edgeCount + 2 ∧ s.cyclomaticComplexity = s.conditions.length + 1 ∧
    (t.WellShaped → settings.unreachable = .reject →
      s.cyclomaticComplexity = 1 + (t.cost scope).run) := by
  have hd := draws_of_analyze h
  have he := hd.wellFormed.edgeCount_eq
  have hc : s.cyclomaticComplexity = s.conditions.length + 1 := by
    rw [Summary.cyclomaticComplexity]
    omega
  refine ⟨by omega, hc, fun hw hr => ?_⟩
  obtain ⟨_, maxDepth⟩ := settings
  subst hr
  rw [hc, hd.conditions_eq hw ((analyze_reject_iff hw maxDepth scope).mp h).2, Nat.add_comm]

theorem analyze_complexity_fetching :
    fetching.2.WellShaped ∧
    ∃ s, analyze fetching.2 {} fetching.1 = .ok s ∧ s.cyclomaticComplexity = 5 ∧
      s.cyclomaticComplexity = 1 + (fetching.2.cost fetching.1).run := by
  have hw : fetching.2.WellShaped := by decide +kernel
  have hc : (analyze fetching.2 {} fetching.1).toOption.map (·.cyclomaticComplexity) = some 5 := by
    decide +kernel
  have ⟨s, h⟩ : ∃ s, analyze fetching.2 {} fetching.1 = .ok s :=
    exists_of_isSome (by decide +kernel)
  rw [h] at hc
  exact ⟨hw, s, h, Option.some.inj hc, (analyze_complexity h).2.2 hw rfl⟩

end Flow
end RoutineFlow
