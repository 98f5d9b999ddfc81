import RoutineFlow.Proofs.Simulation

-- A construct that is laid out in a graph is simulated there: a walk that comes in at one of its
-- ends does what the construct means and leaves at another one.

namespace RoutineFlow.Flow

open Syntax (Tree Form)
open Meaning

namespace Task

def run (t : Tree) : Task → Script Unit
  | node i   => (ofNode t i).run
  | parts is => runAll (ofNode t) is

end Task

-- A walk that stands at one of `ends` runs the task and gets to one of `ends'`. Where the truth of
-- a single construct is asked for, the walk gets to a side that has it.
structure Simulates (g : Graph) (t : Tree) (list : Bool) (task : Task)
    (ends ends' left : List LooseEnd) : Prop where
  run   : ∀ {s}, AtEnd ends s →
    Sim g list s (task.run t) (fun _ _ => AtEnd ends') (AtEnd left)
  truth : ∀ {i lo hi sides}, task.ids = [i] → t.Valued true i → g.Forks true lo ends' hi sides →
    ∀ {s}, AtEnd ends s → Sim g list s (ofNode t i).truth (Told sides) (AtEnd left)

variable {g : Graph} {t : Tree} {task : Task} {lo mid mid' hi m₁ m₂ m₃ : Nat} {list on : Bool}
  {ends ends₁ ends₂ ends₃ ends₄ ends' left left' left₁ left₂ left₃ left₄ sides : List LooseEnd}
  {e header : LooseEnd} {entry : NodeId} {i inner operand l r condition yes no body : Syntax.Id}
  {is operands statements parts init update : List Syntax.Id} {script : Script Unit}
  {jumped : Spot → Prop}

theorem Sim.bind_told {s : Spot} {script : Script α} {f : α → Script Bool}
    {post : α → List Event → Spot → Prop} (h : Sim g list s script post jumped)
    (hf : ∀ a es s', post a es s' → Sim g list s' (f a) (Told sides) jumped) :
    Sim g list s (script >>= f) (Told sides) jumped :=
  h.bind fun a es s' hp => (hf a es s' hp).imp fun _ _ _ ht => ht.after es

namespace Simulates

theorem nil : Simulates g t list (.parts []) ends ends [] where
  run hs     := .pure hs
  truth      := nofun

theorem cons (h : Simulates g t list (.node i) ends ends₁ left)
    (h' : Simulates g t list (.parts is) ends₁ ends₂ left') (he : is = [] → ends₂ = ends₁) :
    Simulates g t list (.parts (i :: is)) ends ends₂ (left ++ left') where
  run hs :=
    ((h.run hs).leaving (List.subset_append_left ..)).bind fun _ _ _ hs =>
      (h'.run hs).leaving (List.subset_append_right ..)
  truth hi hv hk _ hs := by
    cases hi
    cases he rfl
    exact (h.truth rfl hv hk hs).leaving (List.subset_append_left ..)

-- Where a construct decides on nothing inside, its truth is asked for behind its own position.
theorem asking (ho : ofNode t i = Meaning.asking i script)
    (hr : ∀ {s}, AtEnd ends s → Sim g list s script (fun _ _ => AtEnd ends') (AtEnd left))
    (hp : t.Valued true i → ∃ lo es hi e, ends' = [e] ∧ g.Places i lo es hi e) :
    Simulates g t list (.node i) ends ends' left where
  run hs := by
    rw [Task.run, ho]
    exact hr hs
  truth hi hv hk _ hs := by
    cases hi
    rw [ho]
    obtain ⟨_, _, _, e, he, hp'⟩ := hp hv
    subst he
    refine (hr hs).bind_told fun _ _ _ hs => ?_
    obtain ⟨_, hm, he⟩ := hs
    cases List.mem_singleton.mp hm
    subst he
    exact hp'.asks hk

section

variable (hw : t.WellShaped)
include hw

theorem strict (hf : t.form? i = some (.strict operands))
    (h : Simulates g t list (.parts operands) ends ends₁ left) (hp : g.Places i mid ends₁ hi e) :
    Simulates g t list (.node i) ends [e] left :=
  asking (ofNode_eq hw hf) (fun hs => (h.run hs).bind fun _ _ _ hs => hp.sim hs)
    fun _ => ⟨_, _, _, _, rfl, hp⟩

theorem block (hf : t.form? i = some (.block statements)) (hp : g.Places i lo ends mid e)
    (h : Simulates g t list (.parts statements) [e] ends' left) :
    Simulates g t list (.node i) ends ends' left :=
  asking (ofNode_eq hw hf) (fun hs => (hp.sim hs).bind fun _ _ _ hs => h.run hs)
    fun hv => (hv.parts hf).elim

theorem parens (hf : t.form? i = some (.parens inner)) (hp : g.Places i lo ends mid e)
    (h : Simulates g t list (.node inner) [e] ends' left) :
    Simulates g t list (.node i) ends ends' left where
  run hs := by
    rw [Task.run, ofNode_eq hw hf]
    exact (hp.sim hs).bind fun _ _ _ hs => h.run hs
  truth hi hv hk _ hs := by
    cases hi
    rw [ofNode_eq hw hf]
    exact (hp.sim hs).bind_told fun _ _ _ hs => h.truth rfl (hv.parts hf) hk hs

theorem negation (hf : t.form? i = some (.negation operand)) (hp : g.Places i lo ends mid e)
    (h : Simulates g t list (.node operand) [e] ends' left) :
    Simulates g t list (.node i) ends (ends'.map .negate) left where
  run hs := by
    rw [Task.run, ofNode_eq hw hf]
    refine (hp.sim hs).bind fun _ _ _ hs => (h.run hs).imp fun _ _ _ hs => ?_
    obtain ⟨e', hm, he⟩ := hs
    exact ⟨e'.negate, List.mem_map_of_mem hm, by rw [he, LooseEnd.spot_negate]⟩
  truth hi hv hk _ hs := by
    cases hi
    rw [ofNode_eq hw hf]
    obtain ⟨sides', he, hk'⟩ := hk.of_negate
    subst he
    refine (hp.sim hs).bind_told fun _ _ _ hs => ?_
    refine (h.truth rfl (hv.parts hf) hk' hs).bind fun _ es _ ht => .pure ?_
    rw [List.append_nil]
    exact ht.of_negate

theorem shortCircuit (hf : t.form? i = some (.shortCircuit on l r))
    (h : Simulates g t list (.node l) ends ends₁ left) (hk : g.Forks true mid ends₁ mid' sides)
    (h' : Simulates g t list (.node r) (sides.filter (·.hasSense on)) ends₂ left') :
    Simulates g t list (.node i) ends
      (if on then ends₂ ++ sides.filter (!·.hasSense on) else sides.filter (!·.hasSense on) ++ ends₂)
      (left ++ left') where
  run hs := by
    rw [Task.run, ofNode_eq hw hf]
    have hl := hw.valued_of_tested hf (.head _)
    refine ((h.truth rfl hl hk hs).leaving (List.subset_append_left ..)).bind fun b es s ht => ?_
    split
    case isTrue hb =>
      refine ((h'.run (ht.2.atEnd hb)).imp fun _ _ _ hs => ?_).leaving (List.subset_append_right ..)
      obtain ⟨e, hm, he⟩ := hs
      exact ⟨e, LooseEnd.mem_join.mpr (.inl hm), he⟩
    case isFalse hb =>
      obtain ⟨e, hm, he⟩ := ht.2.atEnd_not hb
      exact .pure ⟨e, LooseEnd.mem_join.mpr (.inr hm), he⟩
  truth hi hv hk' _ hs := by
    cases hi
    rw [ofNode_eq hw hf]
    obtain ⟨hl, hr⟩ := hv.parts hf
    refine ((h.truth rfl hl hk hs).leaving (List.subset_append_left ..)).bind fun b es s ht => ?_
    split
    case isTrue hb =>
      obtain ⟨_, _, _, hs, hk₂⟩ := hk'.exists_join
      refine ((h'.truth rfl hr hk₂ (ht.2.atEnd hb)).imp fun _ _ _ ht => ?_).leaving
        (List.subset_append_right ..)
      exact (ht.mono hs).after es
    case isFalse hb =>
      apply Sim.pure
      rw [List.append_nil, ← Bool.eq_not.mpr hb]
      exact ht.settles hb (fun _ hm => LooseEnd.mem_join.mpr (.inr hm)) hk'

theorem branchingOne (hf : t.form? i = some (.branching condition yes none))
    (hp : g.Places i lo ends m₁ e) (h₁ : Simulates g t list (.node condition) [e] ends₁ left₁)
    (hk : g.Forks true mid ends₁ mid' sides)
    (h₂ : Simulates g t list (.node yes) (sides.filter (·.hasSense true)) ends₂ left₂) :
    Simulates g t list (.node i) ends (ends₂ ++ sides.filter (!·.hasSense true))
      (left₁ ++ left₂) := by
  refine asking (ofNode_eq hw hf) (fun hs => ?_) fun hv => (hv.parts hf).elim
  have hc := hw.valued_of_tested hf (.head _)
  refine (hp.sim hs).bind fun _ _ _ hs => ?_
  refine ((h₁.truth rfl hc hk hs).leaving (List.subset_append_left ..)).bind fun b es s ht => ?_
  split
  case isTrue hb =>
    refine ((h₂.run (ht.2.atEnd hb)).imp fun _ _ _ hs => ?_).leaving (List.subset_append_right ..)
    exact hs.mono (List.subset_append_left ..)
  case isFalse hb => exact .pure ((ht.2.atEnd_not hb).mono (List.subset_append_right ..))

theorem branchingTwo (hf : t.form? i = some (.branching condition yes (some no)))
    (hp : g.Places i lo ends m₁ e) (h₁ : Simulates g t list (.node condition) [e] ends₁ left₁)
    (hk : g.Forks true mid ends₁ mid' sides)
    (h₂ : Simulates g t list (.node yes) (sides.filter (·.hasSense true)) ends₂ left₂)
    (h₃ : Simulates g t list (.node no) (sides.filter (!·.hasSense true)) ends₃ left₃) :
    Simulates g t list (.node i) ends (ends₂ ++ ends₃) (left₁ ++ left₂ ++ left₃) where
  run hs := by
    rw [Task.run, ofNode_eq hw hf]
    have hc := hw.valued_of_tested hf (.head _)
    refine (hp.sim hs).bind fun _ _ _ hs => ?_
    refine ((h₁.truth rfl hc hk hs).leaving (by simp)).bind fun b es s ht => ?_
    split
    case isTrue hb =>
      refine ((h₂.run (ht.2.atEnd hb)).imp fun _ _ _ hs => ?_).leaving (by simp)
      exact hs.mono (List.subset_append_left ..)
    case isFalse hb =>
      refine ((h₃.run (ht.2.atEnd_not hb)).imp fun _ _ _ hs => ?_).leaving (by simp)
      exact hs.mono (List.subset_append_right ..)
  truth hi hv hk' _ hs := by
    cases hi
    rw [ofNode_eq hw hf]
    obtain ⟨hc, hy, hn⟩ := hv.parts hf
    obtain ⟨_, _, _, he, hk₂, hk₃⟩ := hk'.split
    subst he
    refine (hp.sim hs).bind_told fun _ _ _ hs => ?_
    refine ((h₁.truth rfl hc hk hs).leaving (by simp)).bind_told fun b es s ht => ?_
    split
    case isTrue hb =>
      refine ((h₂.truth rfl hy hk₂ (ht.2.atEnd hb)).imp fun _ _ _ ht => ?_).leaving (by simp)
      exact ht.mono (List.subset_append_left ..)
    case isFalse hb =>
      refine ((h₃.truth rfl hn hk₃ (ht.2.atEnd_not hb)).imp fun _ _ _ ht => ?_).leaving (by simp)
      exact ht.mono (List.subset_append_right ..)

theorem jump (hf : t.form? i = some (.jump operands))
    (h : Simulates g t list (.parts operands) ends ends₁ left) (hp : g.Places i mid ends₁ hi e) :
    Simulates g t list (.node i) ends [] (left ++ [e]) := by
  refine asking (ofNode_eq hw hf) (fun hs => ?_) fun hv => (hv.parts hf).elim
  refine ((h.run hs).leaving (List.subset_append_left ..)).bind fun _ _ _ hs => ?_
  refine (hp.sim hs).bind fun _ _ _ hs => ?_
  exact .jump (hs.mono (List.subset_append_right ..))

theorem passing (hf : t.form? i = some (.passing parts))
    (h : Simulates g t list (.parts parts) ends ends' left) :
    Simulates g t list (.node i) ends ends' left := by
  refine asking (ofNode_eq hw hf) h.run fun hv => ?_
  cases (hv.parts hf).1

theorem whileLoop (hf : t.form? i = some (.whileLoop condition body))
    (hp : g.Places i lo ends m₁ e) (h₁ : Simulates g t true (.node condition) [e] ends₁ [])
    (hk : g.Forks true mid ends₁ mid' sides)
    (h₂ : Simulates g t true (.node body) (sides.filter (·.hasSense true)) ends₂ left)
    (hn : g.Leads e.slot entry) (ha : ∀ e ∈ ends₂, g.Arrives entry e) :
    Simulates g t true (.node i) ends (sides.filter (!·.hasSense true)) left := by
  refine asking (ofNode_eq hw hf) (fun hs => ?_) fun hv => (hv.parts hf).elim
  have hc := hw.valued_of_tested hf (.head _)
  have ⟨_, _, _, _, he, hb⟩ := hp.exists_block
  subst he
  refine (hp.sim hs).bind fun _ _ _ ⟨_, hm, he⟩ => ?_
  cases List.mem_singleton.mp hm
  subst he
  exact .loop_header hb hn (h₁.truth rfl hc hk ⟨_, .head _, rfl⟩) h₂.run ha

theorem doWhileLoop (hf : t.form? i = some (.doWhileLoop body condition))
    (hp : g.Places i lo ends m₁ e) (ha : g.Arrives ⟨m₁⟩ e)
    (h₁ : Simulates g t true (.node body) [.block ⟨m₁⟩ 0 none false] ends₁ left₁)
    (h₂ : Simulates g t true (.node condition) ends₁ ends₂ left₂)
    (hk : g.Forks true mid ends₂ hi sides)
    (ha' : ∀ e ∈ sides.filter (·.hasSense true), g.Arrives ⟨m₁⟩ e) :
    Simulates g t true (.node i) ends (sides.filter (!·.hasSense true)) (left₁ ++ left₂) := by
  refine asking (ofNode_eq hw hf) (fun hs => ?_) fun hv => (hv.parts hf).elim
  have hc := hw.valued_of_tested hf (.head _)
  have hr {es s} (hs : AtEnd es s) (ha : ∀ e ∈ es, g.Arrives ⟨m₁⟩ e) :
      Sim g true s (ofNode t body).run (fun _ _ => AtEnd ends₁) (AtEnd (left₁ ++ left₂)) := by
    have ⟨e, hm, he⟩ := hs
    subst he
    apply Sim.behind (ha e hm).silent
    exact (h₁.run ⟨_, .head _, rfl⟩).leaving (List.subset_append_left ..)
  refine (hp.sim hs).bind fun _ _ _ hs => ?_
  refine (hr hs (List.forall_mem_singleton.mpr ha)).bind fun _ _ _ hs => ?_
  refine (Sim.loop (I := AtEnd ends₁) (T := AtSide sides) (fun _ hs => ?_) (fun _ hs => ?_) hs).imp
    fun _ _ _ hs => hs.atEnd_not Bool.false_ne_true
  · exact (h₂.truth rfl hc hk hs).leaving (List.subset_append_right ..)
  · exact hr (hs.atEnd rfl) ha'

theorem forLoop (hf : t.form? i = some (.forLoop init (some condition) update body))
    (hp : g.Places i lo ends m₁ e) (h₁ : Simulates g t true (.parts init) [e] ends₁ left₁)
    (hg : g.Gathers m₂ ends₁ m₃ header)
    (h₂ : Simulates g t true (.parts [condition]) [header] ends₂ [])
    (hk : g.Forks true mid ends₂ mid' sides)
    (h₃ : Simulates g t true (.node body) (sides.filter (·.hasSense true)) ends₃ left₃)
    (h₄ : Simulates g t true (.parts update) ends₃ ends₄ left₄) (hn : g.Leads header.slot entry)
    (ha : ∀ e ∈ ends₄, g.Arrives entry e) :
    Simulates g t true (.node i) ends (sides.filter (!·.hasSense true))
      (left₁ ++ (left₃ ++ left₄)) := by
  refine asking (ofNode_eq hw hf) (fun hs => ?_) fun hv => (hv.parts hf).elim
  have hc := hw.valued_of_tested hf (.head _)
  have ⟨_, _, _, _, he, hb⟩ := hg.exists_block
  subst he
  have hr {s} (hs : AtEnd (sides.filter (·.hasSense true)) s) :
      Sim g true s ((ofNode t body).run >>= fun _ => runAll (ofNode t) update)
        (fun _ _ => AtEnd ends₄) (AtEnd (left₃ ++ left₄)) :=
    ((h₃.run hs).leaving (List.subset_append_left ..)).bind fun _ _ _ hs =>
      (h₄.run hs).leaving (List.subset_append_right ..)
  refine (hp.sim hs).bind fun _ _ _ hs => ?_
  refine ((h₁.run hs).leaving (List.subset_append_left ..)).bind fun _ _ _ hs => ?_
  refine .behind (hg.silent hs) (.leaving ?_ (List.subset_append_right ..))
  exact .loop_header hb hn (h₂.truth rfl hc hk ⟨_, .head _, rfl⟩) hr ha

end

end Simulates

theorem Laid.eq_of_nil (h : Laid g t (.parts []) lo ends hi ends' left dead) : ends' = ends := by
  cases h
  rfl

-- With an assignment there are no loops, and no loop is without a condition.
theorem Laid.simulates (hw : t.WellShaped) (hc : t.Throughout scope (!·.isUntested))
    (hn : list = false → t.Throughout scope (!·.isLoop))
    (h : Laid g t task lo ends hi ends' left dead) (hv : ∀ i ∈ task.ids, t.Visited scope i) :
    Simulates g t list task ends ends' left := by
  have hi {i} (h : ∀ j ∈ [i], t.Visited scope j) : t.Visited scope i := h i (.head _)
  have hs {i} (h : t.Visited scope i) : ∀ j ∈ (Task.node i).ids, t.Visited scope j :=
    List.forall_mem_singleton.mpr h
  have hloop {i form} (hv : t.Visited scope i) (hf : t.form? i = some form) (hl : form.isLoop) :
      list = true := by
    cases list
    case true  => rfl
    case false => cases hl.symm.trans (hv.isLoop_eq_false (hn rfl) hf)
  induction h
  case skipped =>
    have ha {s} (h : AtEnd [] s) : False := List.not_mem_nil h.choose_spec.1
    exact ⟨fun h => (ha h).elim, fun _ _ _ _ h => (ha h).elim⟩
  case nil => exact .nil
  case cons h₂ ih₁ ih₂ =>
    obtain ⟨hi, his⟩ := List.forall_mem_cons.mp hv
    refine .cons (ih₁ (hs hi)) (ih₂ his) fun he => ?_
    subst he
    exact h₂.eq_of_nil
  case strict hf _ hp ih =>
    exact .strict hw hf (ih ((hi hv).parts hf)) hp
  case block hf hp _ ih =>
    exact .block hw hf hp (ih ((hi hv).parts hf))
  case parens hf hp _ ih =>
    exact .parens hw hf hp (ih ((hi hv).parts hf))
  case negation hf hp _ ih =>
    exact .negation hw hf hp (ih ((hi hv).parts hf))
  case passing hf _ ih =>
    exact .passing hw hf (ih ((hi hv).parts hf))
  case jump hf _ hp ih =>
    exact .jump hw hf (ih ((hi hv).parts hf)) hp
  case shortCircuit hf _ hk _ ih₁ ih₂ =>
    obtain ⟨hl, hr⟩ := List.forall_mem_cons.mp ((hi hv).parts hf)
    exact .shortCircuit hw hf (ih₁ (hs hl)) hk (ih₂ hr)
  case branchingOne hf hp _ hk _ ih₁ ih₂ =>
    obtain ⟨hl, hr⟩ := List.forall_mem_cons.mp ((hi hv).parts hf)
    exact .branchingOne hw hf hp (ih₁ (hs hl)) hk (ih₂ hr)
  case branchingTwo hf hp _ hk _ _ ih₁ ih₂ ih₃ =>
    obtain ⟨hl, hr⟩ := List.forall_mem_cons.mp ((hi hv).parts hf)
    obtain ⟨hy, hn⟩ := List.forall_mem_cons.mp hr
    exact .branchingTwo hw hf hp (ih₁ (hs hl)) hk
      (ih₂ (hs hy)) (ih₃ hn)
  case whileLoop hf hp h₁ hk _ he ha ih₁ ih₂ =>
    obtain ⟨hl, hr⟩ := List.forall_mem_cons.mp ((hi hv).parts hf)
    cases hloop (hi hv) hf rfl
    cases h₁.left_eq_nil (hw.valued_of_tested hf (.head _))
    exact .whileLoop hw hf hp (ih₁ (hs hl)) hk (ih₂ hr) he ha
  case doWhileLoop hf hp ha _ _ _ hk ha' ih₁ ih₂ =>
    obtain ⟨hl, hr⟩ := List.forall_mem_cons.mp ((hi hv).parts hf)
    cases hloop (hi hv) hf rfl
    exact .doWhileLoop hw hf hp ha (ih₁ (hs hl)) (ih₂ hr) hk ha'
  case forLoop hf hp _ hg h₂ hk _ _ he ha ih₁ ih₂ ih₃ ih₄ =>
    cases hloop (hi hv) hf rfl
    obtain ⟨c, hc⟩ := Option.isSome_iff_exists.mp ((hi hv).isSome_condition hc hf)
    subst hc
    have hp' := (hi hv).parts hf
    simp only [Form.parts, List.forall_mem_append] at hp'
    obtain ⟨⟨⟨hi, hc⟩, hu⟩, hb⟩ := hp'
    cases h₂.left_eq_nil ⟨rfl, fun _ hm => (hw.valued_of_tested hf hm).weaken⟩
    rw [List.append_nil, List.append_assoc]
    exact .forLoop hw hf hp (ih₁ hi) hg (ih₂ hc) hk (ih₃ hb) (ih₄ hu) he ha

end RoutineFlow.Flow
