import Mathlib.Tactic.Abel
import RoutineFlow.Flow.Analysis
import RoutineFlow.Proofs.Ledger
import RoutineFlow.Proofs.Plain
import RoutineFlow.Syntax.Builder

-- What a visit does to the open slots of a graph, wherever it starts: it takes over those that the
-- frontier names and hands back others, of which the outflow names each once. No other node is
-- touched. Each step and each rule is shown to keep to a ledger, in which only the slots it was
-- given are at hand.

namespace RoutineFlow.Flow

open Syntax (Tree)
open Exit (slots)

variable {m m' r : Multiset Slot} {exits : List Exit} {out : Outflow} {id : Syntax.Id}

namespace Walk

-- A step that takes over the open slots of `m`, whatever graph they are in. If it succeeds, it
-- hands back others, which the answer tells.
def Relays (m : Multiset Slot) (step : Walk α) (post : α → Multiset Slot → Prop) : Prop :=
  ∀ ⦃p a p'⦄, Ledger.Valid ⟨p.graph, m⟩ → step p = .ok (a, p') →
    ∃ m', post a m' ∧ Ledger.Run ⟨p.graph, m⟩ ⟨p'.graph, m'⟩

namespace Relays

variable {step : Walk α} {post : α → Multiset Slot → Prop}

theorem pure {a : α} (h : post a m) : Relays m (pure a) post := by
  intro p _ _ _ he
  cases he
  exact ⟨m, h, .refl⟩

theorem throw {e : Error} : Relays m (throw e) post := by
  intro p _ _ _ he
  cases he

theorem mono {post' : α → Multiset Slot → Prop} (h : Relays m step post)
    (hp : ∀ a m', post a m' → post' a m') : Relays m step post' := by
  intro p a p' hv he
  have ⟨m', hm, hr⟩ := h hv he
  exact ⟨m', hp a m' hm, hr⟩

theorem get_bind {f : Progress → Walk α} (h : ∀ p, Relays m (f p) post) :
    Relays m (get >>= f) post := by
  intro p a p' hv he
  exact h p hv he

theorem bind {f : α → Walk β} {post' : β → Multiset Slot → Prop} (h : Relays m step post)
    (hf : ∀ a m', post a m' → Relays m' (f a) post') : Relays m (step >>= f) post' := by
  intro p b p' hv he
  have ⟨a, p₁, h₁, h₂⟩ := bind_eq_ok_iff.mp he
  have ⟨m₁, hm, hr⟩ := h hv h₁
  have ⟨m', hp, hr'⟩ := hf a m₁ hm (hr.valid hv) h₂
  exact ⟨m', hp, hr.trans hr'⟩

-- Slots put aside stay as they are.
theorem frame (h : Relays m step post) (r : Multiset Slot) :
    Relays (m + r) step fun a m' => ∃ m₁, post a m₁ ∧ m' = m₁ + r := by
  intro p a p' hv he
  have hv' : (Ledger.add ⟨p.graph, m⟩ r).Valid := hv
  have ⟨m₁, hm, hr⟩ := h hv'.of_add he
  exact ⟨m₁ + r, ⟨m₁, hm, rfl⟩, hr.frame r⟩

-- A step that takes over some of the slots at hand, while the others wait for what follows.
theorem bind_frame {f : α → Walk β} {post' : β → Multiset Slot → Prop} (h : Relays m step post)
    (hm : m' = m + r) (hf : ∀ a m₁, post a m₁ → Relays (m₁ + r) (f a) post') :
    Relays m' (step >>= f) post' :=
  hm ▸ (h.frame r).bind fun a _ ⟨m₁, hp, he⟩ => he ▸ hf a m₁ hp

theorem update {f : Graph → Except Error Graph}
    (h : ∀ {g g'}, Ledger.Valid ⟨g, m⟩ → f g = .ok g' → Ledger.Run ⟨g, m⟩ ⟨g', m⟩) :
    Relays m (update f) fun _ m' => m' = m := by
  intro p _ _ hv he
  unfold Walk.update at he
  split at he
  case h_1 hf => cases he; exact ⟨m, rfl, h hv hf⟩
  case h_2    => cases he

theorem forM {f : Exit → Walk Unit} (h : ∀ x, Relays {x.slot} (f x) fun _ m => m = 0)
    (exits : List Exit) : Relays (slots exits) (exits.forM f) fun _ m => m = 0 := by
  induction exits
  case nil => exact .pure rfl
  case cons x xs ih =>
    refine (h x).bind_frame (r := slots xs) rfl fun _ m hm => ?_
    rw [hm, zero_add]
    exact ih

theorem mapM {f : Exit → Walk α} (given : α → Multiset Slot)
    (h : ∀ x, Relays {x.slot} (f x) fun a m => m = given a) (exits : List Exit) :
    Relays (slots exits) (exits.mapM f) fun as m =>
      as.length = exits.length ∧ m = (as.map given).sum := by
  induction exits
  case nil => exact .pure ⟨rfl, rfl⟩
  case cons x xs ih =>
    rw [List.mapM_cons]
    refine (h x).bind_frame (r := slots xs) rfl fun a m hm => ?_
    refine ih.bind_frame (r := m) (add_comm ..) fun as m' ⟨hl, hm'⟩ => .pure ?_
    rw [hm, hm', List.length_cons, List.length_cons, hl, List.map_cons, List.sum_cons]
    exact ⟨rfl, add_comm ..⟩

end Relays

theorem target_lt_of_connect (h : connect target x p = .ok (u, p')) :
    target.index < p.graph.size := by
  rw [← Graph.node?_isSome_iff]
  cases hn : p.graph.node? target
  case none => cases x <;> simp [connect, update, Graph.wire, Graph.wireBranch, hn] at h
  case some => rfl

theorem connectAll_relays (exits : List Exit) (target : NodeId) :
    Relays (slots exits) (connectAll exits target) fun _ m => m = 0 := by
  refine .forM (fun x p _ _ hv he => ?_) exits
  have ho := hv.opens x.slot (Multiset.mem_singleton_self _)
  have ht := target_lt_of_connect he
  rw [connect_eq ho ht] at he
  cases he
  exact ⟨0, rfl, .single (.wire ho ht)⟩

-- The exits are put aside while the block is made. It comes with a slot of its own, which is what
-- is left in the end.
theorem join_relays (exits : List Exit) :
    Relays (slots exits) (do let block ← grow .freshBlock; connectAll exits block; return block)
      fun id m => m = slots [.next id] := by
  have hb : Relays 0 (grow .freshBlock) fun id m => m = slots [.next id] := by
    intro p _ _ _ he
    cases he
    refine ⟨_, rfl, .single (.push ?_ (Multiset.nodup_singleton _) ?_)⟩
    · rintro ⟨_, _ | _⟩ <;> simp [Node.slot?, Exit.slot]
    · rintro (_ | _) <;> simp [Node.slot?]
  refine hb.bind_frame (zero_add _).symm fun id m hm => ?_
  refine (connectAll_relays exits id).bind_frame (add_comm ..) fun _ m' hm' => .pure ?_
  rw [hm', hm, zero_add]

theorem gather_relays (position : Syntax.Id) (exits : List Exit) :
    Relays (slots exits) (gather position exits) fun id m => m = slots [.next id] := by
  refine .get_bind fun p => ?_
  split
  case h_1 hs =>
    obtain ⟨rfl, _⟩ := soleBlock?_eq_some_iff.mp hs
    exact .pure rfl
  case h_2 =>
    split
    case isTrue  => exact .throw
    case isFalse => exact join_relays exits

theorem record_relays (position : Syntax.Id) (i : NodeId) :
    Relays (slots [.next i]) (update (·.record i position)) fun _ m => m = slots [.next i] := by
  rw [Exit.slots_singleton]
  refine .update fun hv he => ?_
  unfold Graph.record at he
  rcases hv.next_cases with hn | ⟨ps, inverted, hn⟩ <;> rw [hn] at he <;> cases he
  exact .single (.write hn (List.prefix_append ..) false)

theorem invert_relays (i : NodeId) :
    Relays (slots [.next i]) (update (·.invert i)) fun _ m => m = slots [.next i] := by
  rw [Exit.slots_singleton]
  refine .update fun hv he => ?_
  unfold Graph.invert at he
  rcases hv.next_cases with hn | ⟨ps, inverted, hn⟩ <;> rw [hn] at he <;> cases he
  case inl => exact .refl
  case inr => exact .single (.write hn List.prefix_rfl _)

theorem sides_start_eq (hn : p.graph.node? i = some (.start none)) (wanted : Bool) :
    sides wanted (.next i) p = .error (.notPromotable i) := by
  change (grow (.promote i wanted) >>= fun condition => pure
    [Exit.branch condition .truthy !(p.graph.isInverted i),
      Exit.branch condition .falsy (p.graph.isInverted i)]) p = _
  rw [bind_apply, grow, Graph.Build.promote, Graph.Build.get_bind, hn]
  rfl

theorem fork_start_eq (hn : p.graph.node? i = some (.start none)) (wanted : Bool) :
    fork wanted [.next i] p = .error (.notPromotable i) := by
  rw [fork, List.mapM_cons, bind_apply, bind_apply, sides_start_eq hn]
  rfl

theorem sides_relays (wanted : Bool) (x : Exit) :
    Relays {x.slot} (sides wanted x) fun exits m => m = slots exits := by
  cases x
  case branch => exact .pure rfl
  case next i =>
    intro p _ _ hv he
    rcases hv.next_cases with hn | ⟨ps, inverted, hn⟩
    case inl => rw [sides_start_eq hn] at he; cases he
    case inr =>
      rw [sides_eq hn] at he
      cases he
      exact ⟨_, rfl, Ledger.run_promoted hn ..⟩

theorem fork_relays (wanted : Bool) (exits : List Exit) :
    Relays (slots exits) (fork wanted exits) fun told m => m = slots told.1 + slots told.2 := by
  refine (Relays.mapM slots (sides_relays wanted) exits).bind fun lists m ⟨_, hm⟩ => .pure ?_
  rw [hm, Exit.slots_partition, Exit.slots_flatten]

theorem negate_relays (exits : List Exit) :
    Relays (slots exits) (exits.mapM negate) fun exits' m =>
      exits'.length = exits.length ∧ m = slots exits' := by
  refine (Relays.mapM (fun x => {x.slot}) (fun x => ?_) exits).mono
    fun exits' m ⟨hl, hm⟩ => ⟨hl, ?_⟩
  · cases x
    case branch => exact .pure rfl
    case next i => exact (invert_relays i).bind fun _ _ hm => .pure hm
  · rw [hm, Exit.slots_eq_sum]

-- A fork whose condition is made to forget what it decides on. That condition is new, so this is as
-- if it had been made without.
theorem fork_forget_relays {rest : List Exit × List Exit → Walk α} {post : α → Multiset Slot → Prop}
    (hm : m = slots [.next i] + r)
    (hr : ∀ told, Relays (slots told.1 + slots told.2 + r) (rest told) post) :
    Relays m (do
      let told ← fork true [.next i]
      (told.1 ++ told.2).forM fun exit => update (·.forget exit.node)
      rest told) post := by
  intro p a p' hv he
  subst hm
  have hv' : (Ledger.add ⟨p.graph, slots [.next i]⟩ r).Valid := hv
  rcases hv'.of_add.next_cases with hn | ⟨ps, inverted, hn⟩
  case inl => rw [bind_apply, fork_start_eq hn] at he; cases he
  case inr =>
    let sides : List Exit :=
      [.branch p.graph.nextId .truthy !inverted, .branch p.graph.nextId .falsy inverted]
    have hs := Exit.slots_partition sides (·.hasSense true)
    have hr₁ := (Ledger.run_promoted hn none (true != inverted)).frame r
    rw [fork_forget_apply hn] at he
    have ⟨m', hm, hr₂⟩ := hr _ (p := { p with graph := _ }) (hs ▸ hr₁.valid hv) he
    rw [hs] at hr₂
    exact ⟨m', hm, hr₁.trans hr₂⟩

theorem loopEntry_relays (header : NodeId) :
    Relays m (Visitor.loopEntry header) fun _ m' => m' = m := by
  refine .get_bind fun p => ?_
  split
  case h_1 => exact .pure rfl
  case h_2 => exact .throw

-- At the end of a round the exits lead back to where the loop tests again.
theorem back_relays {header : NodeId} {rest : Walk α} {post : α → Multiset Slot → Prop}
    (hm : m = slots exits + r) (hr : Relays r rest post) :
    Relays m (do
      connectAll exits (← Visitor.loopEntry header)
      rest) post := by
  refine (loopEntry_relays header).bind fun entry _ he => ?_
  rw [he]
  refine (connectAll_relays exits entry).bind_frame hm fun _ _ h₀ => ?_
  rw [h₀, zero_add]
  exact hr

theorem skip_relays (position : Syntax.Id) : Relays m (skip position) fun _ m' => m' = m := by
  intro p _ _ _ he
  cases he
  exact ⟨m, rfl, .refl⟩

end Walk

-- What a visit hands back: the slots of the frontier and of the exits that it added to those of
-- jumps.
def Outflow.Gains (out out' : Outflow) (m : Multiset Slot) : Prop :=
  ∃ added, out'.leaving = out.leaving ++ added ∧
    ((out.terminates → out.frontier = []) → out'.terminates → out'.frontier = []) ∧
    m = slots (out'.frontier ++ added)

namespace Walk

def Accounted (step : Outflow → Walk Outflow) : Prop :=
  ∀ out, Relays (slots out.frontier) (step out) out.Gains

namespace Accounted

variable {step step' : Outflow → Walk Outflow}

theorem pure : Accounted pure :=
  fun _ => .pure ⟨[], by simp⟩

theorem bind (h : Accounted step) (h' : Accounted step') :
    Accounted fun out => step out >>= step' := by
  refine fun out => (h out).bind fun out₁ m ⟨added, hl, ht, hm⟩ => ?_
  rw [hm, Exit.slots_append]
  refine ((h' out₁).frame (slots added)).mono fun out₂ _ ⟨m₂, ⟨added', hl', ht', hm'⟩, he⟩ => ?_
  refine ⟨added ++ added', by rw [hl', hl, List.append_assoc], ht' ∘ ht, ?_⟩
  simp only [he, hm', Exit.slots_append]
  abel

theorem foldlM {step : α → Outflow → Walk Outflow} (h : ∀ a, Accounted (step a)) (as : List α) :
    Accounted (as.foldlM fun out a => step a out) := by
  induction as
  case nil         => exact pure
  case cons a _ ih => exact (h a).bind ih

-- A step that is taken from some exits on their own.
theorem fresh (h : Accounted step) (exits : List Exit) :
    Relays (slots exits) (step { frontier := exits }) fun out m =>
      (out.terminates → out.frontier = []) ∧ m = slots out.frontier + slots out.leaving := by
  refine (h { frontier := exits }).mono fun out m ⟨added, hl, ht, hm⟩ => ⟨ht nofun, ?_⟩
  rw [hm, hl, Exit.slots_append]
  rfl

end Accounted

theorem place_accounted (position : Syntax.Id) : Accounted (place position) := by
  refine fun out => (gather_relays position out.frontier).bind fun block _ hm => ?_
  rw [hm]
  exact (record_relays position block).bind fun _ _ hm => .pure ⟨[], by simp, nofun, hm⟩

end Walk

namespace Visitor

open Walk

section

variable {visit : Visitor} (hv : ∀ id, Accounted (visit id))
include hv

theorem sequence_accounted (parts : List Syntax.Id) : Accounted (sequence visit parts) :=
  .foldlM hv parts

theorem strict_accounted (id : Syntax.Id) (operands : List Syntax.Id) :
    Accounted (strict visit id operands) :=
  (sequence_accounted hv operands).bind (place_accounted id)

theorem jump_accounted (id : Syntax.Id) (operand? : Option Syntax.Id) :
    Accounted (jump visit id operand?) := by
  refine fun out => (strict_accounted hv id operand?.toList out).bind
    fun out' _ ⟨added, hl, _, hm⟩ => .pure ?_
  refine ⟨added ++ out'.frontier, by simp [hl], fun _ _ => rfl, ?_⟩
  simp only [hm, Exit.slots_append, Exit.slots_nil]
  abel

theorem negation_accounted (id operand : Syntax.Id) : Accounted (negation visit id operand) := by
  refine (place_accounted id).bind fun out => ?_
  refine (hv operand out).bind fun out' _ ⟨added, hl, ht, hm⟩ => ?_
  rw [Exit.slots_append] at hm
  refine (negate_relays out'.frontier).bind_frame hm fun exits _ ⟨hn, he⟩ => .pure ?_
  refine ⟨added, hl, fun h h' => ?_, by rw [he, Exit.slots_append]⟩
  rwa [ht h h', List.length_nil, List.length_eq_zero_iff] at hn

-- A condition is visited on its own, and what it leads to is told apart.
theorem test_relays {condition : Syntax.Id} {rest : Outflow → List Exit × List Exit → Walk α}
    {post : α → Multiset Slot → Prop} (hm : m = slots exits + r)
    (hr : ∀ tested told, Relays (slots told.1 + (slots told.2 + slots tested.leaving + r))
      (rest tested told) post) :
    Relays m (do
      let tested ← visit condition { frontier := exits }
      let told ← fork true tested.frontier
      rest tested told) post := by
  refine ((hv condition).fresh exits).bind_frame hm fun tested m₁ ⟨_, hm₁⟩ => ?_
  rw [hm₁, add_assoc]
  refine (fork_relays true tested.frontier).bind_frame rfl fun told m₂ hm₂ => ?_
  rw [hm₂, add_assoc, ← add_assoc (slots told.2)]
  exact hr tested told

theorem branching_accounted (id condition truePart : Syntax.Id) (falsePart? : Option Syntax.Id) :
    Accounted (branching visit id condition truePart falsePart?) := by
  refine (place_accounted id).bind fun out => ?_
  refine test_relays hv (add_zero _).symm fun tested (truthy, falsy) => ?_
  refine ((hv truePart).fresh truthy).bind_frame rfl fun yes _ ⟨hy, hm⟩ => ?_
  cases falsePart?
  case none =>
    refine .pure ⟨tested.leaving ++ yes.leaving, by simp [Outflow.absorb], nofun, ?_⟩
    simp only [hm, Exit.slots_append]
    abel
  case some falsePart =>
    -- The falsy side was put aside while the other part was visited; now its turn comes.
    refine ((hv falsePart).fresh falsy).bind_frame
      (r := slots yes.frontier + slots yes.leaving + slots tested.leaving) (by rw [hm]; abel)
      fun no _ ⟨hn, hm'⟩ => .pure ?_
    refine ⟨tested.leaving ++ yes.leaving ++ no.leaving, by simp [Outflow.absorb],
      fun _ h => ?_, ?_⟩
    · have ⟨h₁, h₂⟩ := Bool.and_eq_true_iff.mp h
      exact List.append_eq_nil_iff.mpr ⟨hy h₁, hn h₂⟩
    · simp only [hm', Exit.slots_append]
      abel

theorem shortCircuit_accounted (on : Bool) (right : Syntax.Id) :
    Accounted (shortCircuit visit on right) := by
  refine fun out => (fork_relays on out.frontier).bind fun (evaluate, skip) _ hm => ?_
  refine ((hv right).fresh evaluate).bind_frame hm fun visited _ ⟨_, hm'⟩ => .pure ?_
  refine ⟨visited.leaving, rfl, nofun, ?_⟩
  cases on <;> simp only [hm', Exit.slots_append, ↓reduceIte, Bool.false_eq_true] <;> abel

theorem operator_accounted (link : Link) : Accounted (operator visit link) := by
  intro out
  unfold operator
  split
  case h_1 => exact shortCircuit_accounted hv true link.right out
  case h_2 => exact shortCircuit_accounted hv false link.right out
  case h_3 => exact strict_accounted hv link.node [link.right] out

theorem binary_accounted (t : Tree) (id : Syntax.Id) : Accounted (binary visit t id) := by
  intro out
  unfold binary
  split
  case h_1                  => exact .throw
  case h_2 leftmost links _ => exact (hv leftmost).bind (.foldlM (operator_accounted hv) links) out

theorem whileLoop_accounted (id condition body : Syntax.Id) :
    Accounted (whileLoop visit id condition body) := by
  refine (place_accounted id).bind fun out => ?_
  refine (gather_relays id out.frontier).bind fun header _ hm => ?_
  refine test_relays hv (hm.trans (add_zero _).symm) fun tested (truthy, falsy) => ?_
  refine ((hv body).fresh truthy).bind_frame rfl fun looped _ ⟨_, hm⟩ => ?_
  rw [hm]
  refine back_relays (add_assoc ..) (.pure ?_)
  refine ⟨tested.leaving ++ looped.leaving, by simp [Outflow.absorb], nofun, ?_⟩
  simp only [Exit.slots_append]
  abel

theorem doWhileLoop_accounted (id body condition : Syntax.Id) :
    Accounted (doWhileLoop visit id body condition) := by
  refine (place_accounted id).bind fun out => ?_
  refine (gather_relays id out.frontier).bind fun header _ hm => ?_
  rw [hm, grow_block_eq]
  refine (join_relays [.next header]).bind fun entry _ hm => ?_
  rw [hm]
  refine ((hv body).fresh [.next entry]).bind fun looped _ ⟨_, hm⟩ => ?_
  refine test_relays hv hm fun tested (truthy, falsy) => ?_
  refine (connectAll_relays truthy entry).bind_frame rfl fun _ _ hm => .pure ?_
  refine ⟨looped.leaving ++ tested.leaving, by simp [Outflow.absorb], nofun, ?_⟩
  simp only [hm, Exit.slots_append]
  abel

-- What a loop with initializers does once its first test is done.
theorem repeat_relays {out₁ : Outflow} {header : NodeId} {body : Syntax.Id}
    {updates : List Syntax.Id} {truthy falsy added : List Exit}
    (hl : out₁.leaving = out.leaving ++ added)
    (hm : m = slots truthy + (slots falsy + slots added)) :
    Relays m (do
      let looped ← visit body { frontier := truthy }
      let out := out₁.absorb looped
      let updated ← sequence visit updates { frontier := looped.frontier }
      let out := out.absorb updated
      connectAll updated.frontier (← loopEntry header)
      return { out with frontier := falsy, terminates := false }) out.Gains := by
  refine ((hv body).fresh truthy).bind_frame hm fun looped _ ⟨_, hm⟩ => ?_
  rw [hm, add_assoc]
  refine ((sequence_accounted hv updates).fresh looped.frontier).bind_frame rfl
    fun updated _ ⟨_, hm⟩ => ?_
  rw [hm]
  refine back_relays (add_assoc ..) (.pure ?_)
  refine ⟨added ++ looped.leaving ++ updated.leaving, by simp [Outflow.absorb, hl], nofun, ?_⟩
  simp only [Exit.slots_append]
  abel

theorem forLoop_accounted (id : Syntax.Id) (init : List Syntax.Id) (condition? : Option Syntax.Id)
    (updates : List Syntax.Id) (body : Syntax.Id) :
    Accounted (forLoop visit id init condition? updates body) := by
  refine (place_accounted id).bind ((sequence_accounted hv init).bind fun out => ?_)
  refine (gather_relays id out.frontier).bind fun header _ hm => ?_
  cases condition?
  case none =>
    simp only [pure_bind, Option.isNone_none, ↓reduceIte]
    refine fork_forget_relays (hm.trans (add_zero _).symm) fun told => ?_
    have hl : (out.absorb { frontier := [.next header] }).leaving = out.leaving ++ [] := rfl
    exact repeat_relays hv hl (by simp)
  case some condition =>
    refine test_relays hv (hm.trans (add_zero _).symm) fun tested told => ?_
    exact repeat_relays hv rfl (by rw [add_zero])

theorem construct_accounted (t : Tree) (id : Syntax.Id) : Accounted (construct visit t id) := by
  intro out
  unfold construct
  split
  case h_1 => exact .throw
  case h_2 kind _ =>
    cases kind
    case block       => exact (place_accounted id).bind (sequence_accounted hv _) out
    case ifStmt      => exact branching_accounted hv id _ _ _ out
    case ternary     => exact branching_accounted hv id _ _ _ out
    case whileStmt   => exact whileLoop_accounted hv id _ _ out
    case doWhileStmt => exact doWhileLoop_accounted hv id _ _ out
    case forStmt     => exact forLoop_accounted hv id _ _ _ _ out
    case binary      => exact binary_accounted hv t id out
    case returnStmt  => exact jump_accounted hv id _ out
    case throwStmt   => exact jump_accounted hv id _ out
    case parens      => exact (place_accounted id).bind (hv _) out
    case declarator  => exact sequence_accounted hv _ out
    case unary op _ _ =>
      cases op
      case not   => exact negation_accounted hv id _ out
      case other => exact strict_accounted hv id _ out
    case cast        => exact strict_accounted hv id _ out
    case assignment  => exact strict_accounted hv id _ out
    case call        => exact strict_accounted hv id _ out
    case new         => exact strict_accounted hv id _ out
    case varDecl     => exact strict_accounted hv id _ out
    all_goals exact place_accounted id out

end
end Visitor

open Walk

theorem visit_accounted (t : Tree) (settings : Settings) (remaining : Nat) (id : Syntax.Id) :
    Accounted (visit t settings remaining id) := by
  induction remaining generalizing id
  all_goals
    intro out
    unfold Flow.visit
    split
  case zero.isTrue  => exact (skip_relays id).bind fun _ _ hm => hm ▸ Accounted.pure out
  case zero.isFalse => exact .throw
  case succ.isTrue  => exact (skip_relays id).bind fun _ _ hm => hm ▸ Accounted.pure out
  case succ.isFalse ih _ => exact Visitor.construct_accounted ih t id out

-- The exits of an outflow name open slots, each of them once, and there is no frontier where every
-- path ended in a jump. An exit that is no side of a condition then stands at a start node or a
-- block.
structure Outflow.FitsIn (out : Outflow) (g : Graph) : Prop where
  valid      : Ledger.Valid ⟨g, slots (out.frontier ++ out.leaving)⟩
  terminates : out.terminates → out.frontier = []

-- What a visit does to a graph and an outflow that fits in it. The exits of jumps are kept and
-- others are added (1), and the outflow fits again (2). The open slots are those that the frontier
-- did not name and those that the new exits name (3), and no slot is both (4). A node at which no
-- exit of the frontier stands stays as it is (5). The others grow, but a slot that the frontier
-- does not name stays as it is (6). What is wired is closed, so no block gets a position after
-- that (7). All of it comes about step by step, from the slots of the frontier to those of the new
-- exits: each step wires a slot at hand, writes to a block whose slot is at hand, or makes a node
-- (8).
structure Accounts (g : Graph) (out : Outflow) (g' : Graph) (out' : Outflow) (added : List Exit) :
    Prop where
  leaving : out'.leaving = out.leaving ++ added                                        -- (1)
  fits    : out'.FitsIn g'                                                             -- (2)
  opens   : ∀ s, g'.IsOpen s ↔                                                         -- (3)
    g.IsOpen s ∧ s ∉ slots out.frontier ∨ s ∈ slots (out'.frontier ++ added)
  apart   : ∀ s, ¬((g.IsOpen s ∧ s ∉ slots out.frontier) ∧                             -- (4)
    s ∈ slots (out'.frontier ++ added))
  same    : ∀ i ∈ g.ids, (∀ x ∈ out.frontier, x.node ≠ i) → g'.node? i = g.node? i     -- (5)
  grows   : ∀ i node, g.node? i = some node → ∃ node', g'.node? i = some node' ∧       -- (6)
    node.Grows node' ∧
    ∀ label, (i, label) ∉ slots out.frontier → node'.slot? label = node.slot? label
  closed  : ∀ i target, g.Leads (i, .next) target → g'.node? i = g.node? i             -- (7)
  history : Ledger.Run ⟨g, slots out.frontier⟩ ⟨g', slots (out'.frontier ++ added)⟩    -- (8)

variable {t : Tree} {settings : Settings} {remaining : Nat} {out' : Outflow} {p p' : Progress}

theorem Outflow.FitsIn.valid_add {g : Graph} (h : out.FitsIn g) :
    (Ledger.add ⟨g, slots out.frontier⟩ (slots out.leaving)).Valid := by
  rw [Ledger.add, ← Exit.slots_append]
  exact h.valid

theorem Accounts.of_run {g g' : Graph} {added : List Exit} (hf : out.FitsIn g)
    (hl : out'.leaving = out.leaving ++ added) (ht : out'.terminates → out'.frontier = [])
    (hr : Ledger.Run ⟨g, slots out.frontier⟩ ⟨g', slots (out'.frontier ++ added)⟩) :
    Accounts g out g' out' added where
  leaving := hl
  fits    := by
    have hs : slots (out'.frontier ++ out'.leaving) =
        slots (out'.frontier ++ added) + slots out.leaving := by
      simp only [hl, Exit.slots_append]
      abel
    exact ⟨hs ▸ (hr.frame _).valid hf.valid_add, ht⟩
  opens s := by
    constructor
    case mp =>
      intro ho
      by_cases hm : s ∈ slots (out'.frontier ++ added)
      case pos => exact .inr hm
      case neg => exact .inl ((hr.aside_iff s).mp ⟨ho, hm⟩)
    case mpr =>
      rintro (ha | hm)
      case inl => exact ((hr.aside_iff s).mpr ha).1
      case inr => exact (hr.valid hf.valid_add.of_add).opens s hm
  apart s := fun ⟨ha, hm⟩ => ((hr.aside_iff s).mpr ha).2 hm
  same i hi hx := by
    refine hr.node?_eq (fun label hm => ?_) (Graph.mem_ids_iff.mp hi)
    obtain ⟨x, hm, he⟩ := List.mem_map.mp hm
    exact hx x hm (by cases x <;> cases he <;> rfl)
  grows i node hn := by
    have ⟨node', hn', hg⟩ := hr.grows hn
    refine ⟨node', hn', hg, fun label hm => ?_⟩
    have hs := hr.slot?_eq hm (Graph.lt_size_of_node? hn)
    simpa only [Graph.slot?, hn, hn', Option.bind_some] using hs
  closed _ _ hl := hr.grows.node?_of_next hl
  history := hr

theorem visit_accounts (hf : out.FitsIn p.graph)
    (he : visit t settings remaining id out p = .ok (out', p')) :
    ∃ added, Accounts p.graph out p'.graph out' added := by
  have hv := hf.valid_add.of_add
  have ⟨m', ⟨added, hl, ht, hm⟩, hr⟩ := visit_accounted t settings remaining id out hv he
  exact ⟨added, .of_run hf hl (ht hf.terminates) (hm ▸ hr)⟩

open Syntax Build in
-- if (!ready) return;
def guarding : Syntax.Id × Tree :=
  guard.run .empty
where
  guard : Build Syntax.Id := do
    let waiting ← not (← identifier "ready")
    ifStmt waiting (← returnStmt)

-- Two exits come in, one from a side of a condition whose other side is put aside, and a jump was
-- there before.
def halfway : Graph where
  nodes := #[.start (some ⟨1⟩), .condition (some ⟨7⟩) none none true, .block [⟨8⟩] none true,
    .block [⟨9⟩] none false]

def incoming : Outflow where
  frontier := [.branch ⟨1⟩ .truthy true, .next ⟨2⟩]
  leaving  := [.next ⟨3⟩]

theorem visit_accounts_guarding :
    incoming.FitsIn halfway ∧ ∃ p',
      visit guarding.2 {} 5 guarding.1 incoming { graph := halfway } =
        .ok ({ frontier := [.branch ⟨5⟩ .truthy false], leaving := [.next ⟨3⟩, .next ⟨6⟩] }, p') ∧
      Accounts halfway incoming p'.graph
        { frontier := [.branch ⟨5⟩ .truthy false], leaving := [.next ⟨3⟩, .next ⟨6⟩] }
        [.next ⟨6⟩] := by
  have hf : incoming.FitsIn halfway := ⟨⟨by decide +kernel, by decide +kernel⟩, nofun⟩
  let nodes : Array Node := #[.start (some ⟨1⟩), .condition (some ⟨7⟩) (some ⟨4⟩) none true,
    .block [⟨8⟩] (some ⟨4⟩) true, .block [⟨9⟩] none false, .block [⟨3⟩, ⟨1⟩, ⟨0⟩] (some ⟨5⟩) false,
    .condition (some ⟨0⟩) none (some ⟨6⟩) false, .block [⟨2⟩] none false]
  have he : visit guarding.2 {} 5 guarding.1 incoming { graph := halfway } =
      .ok ({ frontier := [.branch ⟨5⟩ .truthy false], leaving := [.next ⟨3⟩, .next ⟨6⟩] },
        { graph := { nodes } }) := by
    decide +kernel
  obtain ⟨added, ha⟩ := visit_accounts hf he
  have hl : added = [.next ⟨6⟩] := (List.cons.inj ha.leaving).2.symm
  exact ⟨hf, _, he, hl ▸ ha⟩

end RoutineFlow.Flow
