import RoutineFlow.Proofs.Plain
import RoutineFlow.Proofs.Survey
import RoutineFlow.Proofs.Visits

-- What errors say. An error that names a position names one that the flow comes by, and what it
-- says of this position is so, whatever the tree.

namespace RoutineFlow.Flow

open Syntax (Tree)

variable {t : Tree} {settings : Settings} {scope id leftmost : Syntax.Id}

namespace Error

-- What an error says, if the flow starts from `scope`.
def Says (t : Tree) (settings : Settings) (scope : Syntax.Id) : Error → Prop
  | .emptyFrontier x        => t.Visited scope x
  | .nestingTooDeep x limit => t.Visited scope x ∧ limit = settings.maxDepth
  | .unknownSyntaxNode x    => t.Visited scope x ∧ t.kind? x = none
  | .endlessOperands x      => t.Visited scope x ∧ leftChain? t x = none
  | .invalidStart x         => x = scope ∧ ∀ statements static,
      t.kind? x ≠ some (.block statements static)
  | _                       => True

theorem says_of_internal {e : Error} (h : e.IsInternal) : e.Says t settings scope := by
  cases e <;> trivial

end Error

namespace Walk

variable {E : Error → Prop} {step : Walk α}

-- A step that fails for the reasons of `E` only.
def Fails (E : Error → Prop) (step : Walk α) : Prop :=
  ∀ ⦃p e⦄, step p = .error e → E e

namespace Fails

theorem pure (a : α) : Fails E (pure a : Walk α) :=
  fun _ _ h => by cases h

theorem throw {e : Error} (h : E e) : Fails E (throw e : Walk α) :=
  fun _ _ h' => by cases h'; exact h

theorem bind {f : α → Walk β} (h : Fails E step) (hf : ∀ a, Fails E (f a)) :
    Fails E (step >>= f) := by
  intro p e he
  cases bind_eq_error_iff.mp he
  case inl h₁ => exact h h₁
  case inr h₁ =>
    have ⟨a, _, _, h₂⟩ := h₁
    exact hf a h₂

theorem foldlM {f : β → α → Walk β} {as : List α} (h : ∀ a ∈ as, ∀ b, Fails E (f b a)) (b : β) :
    Fails E (as.foldlM f b) := by
  induction as generalizing b
  case nil => exact .pure b
  case cons a as ih =>
    rw [List.forall_mem_cons] at h
    exact .bind (h.1 b) (ih h.2)

end Fails

-- A step that fails for internal reasons only names no position.
theorem Plain.next_fails {f : α → Walk β} (h : Plain Error.IsInternal step)
    (hf : ∀ a, Fails (·.Says t settings scope) (f a)) :
    Fails (·.Says t settings scope) (step >>= f) :=
  .bind (fun _ _ he => Error.says_of_internal (h.fails he)) hf

theorem gather_fails (h : t.Visited scope id) (frontier : List Exit) :
    Fails (·.Says t settings scope) (gather id frontier) := by
  intro p e he
  cases frontier
  case nil  => cases he; exact h
  case cons => exact Error.says_of_internal ((gather_plain id _).fails he (List.cons_ne_nil _ _))

theorem place_fails (h : t.Visited scope id) (out : Outflow) :
    Fails (·.Says t settings scope) (place id out) :=
  .bind (gather_fails h out.frontier) fun _ =>
    Plain.next_fails (.update Graph.record_internal) fun _ => .pure _

end Walk

namespace Visitor

open Walk

variable {visit : Visitor} {parts : List Syntax.Id}

-- The links of a chain and their right operands come by with its top.
theorem Chain.visited (hc : Chain t leftmost id links) (h : t.Visited scope id) :
    t.Visited scope leftmost ∧
      ∀ link ∈ links, t.Visited scope link.node ∧ t.Visited scope link.right := by
  induction hc
  case leftmost => exact ⟨h, nofun⟩
  case operator hk ih =>
    have ⟨hl, hr⟩ := ih (.part h hk rfl (List.Mem.head _))
    have hr' : t.Visited scope _ := .part h hk rfl (List.Mem.tail _ (List.Mem.head _))
    exact ⟨hl, List.forall_mem_append.mpr ⟨hr, List.forall_mem_singleton.mpr ⟨h, hr'⟩⟩⟩

theorem loopEntry_fails (header : NodeId) :
    Fails (·.Says t settings scope) (loopEntry header) := by
  intro p e he
  cases (loopEntry_plain header).fails he
  trivial

section

-- The visits of parts say what is so.
variable (hv : ∀ ⦃x⦄, t.Visited scope x → ∀ out, Fails (·.Says t settings scope) (visit x out))
include hv

theorem sequence_fails (hp : ∀ x ∈ parts, t.Visited scope x) (out : Outflow) :
    Fails (·.Says t settings scope) (sequence visit parts out) :=
  .foldlM (fun x hx out => hv (hp x hx) out) out

theorem strict_fails (h : t.Visited scope id) (hp : ∀ x ∈ parts, t.Visited scope x)
    (out : Outflow) : Fails (·.Says t settings scope) (strict visit id parts out) :=
  .bind (sequence_fails hv hp out) (place_fails h)

theorem jump_fails (operand? : Option Syntax.Id) (h : t.Visited scope id)
    (hp : ∀ x ∈ operand?.toList, t.Visited scope x) (out : Outflow) :
    Fails (·.Says t settings scope) (jump visit id operand? out) :=
  .bind (strict_fails hv h hp out) fun _ => .pure _

theorem branching_fails {condition yes : Syntax.Id} {no? : Option Syntax.Id} (h : t.Visited scope id)
    (hp : ∀ x ∈ condition :: yes :: no?.toList, t.Visited scope x) (out : Outflow) :
    Fails (·.Says t settings scope) (branching visit id condition yes no? out) := by
  simp only [List.forall_mem_cons] at hp
  refine .bind (place_fails h out) fun out => ?_
  refine .bind (hv hp.1 _) fun tested => ?_
  refine (fork_plain true tested.frontier).next_fails fun (truthy, falsy) => ?_
  refine .bind (hv hp.2.1 _) fun yes => ?_
  cases no?
  case none    => exact .pure _
  case some no => exact .bind (hv (hp.2.2 no (List.Mem.head _)) _) fun _ => .pure _

theorem shortCircuit_fails {r : Syntax.Id} (on : Bool) (hr : t.Visited scope r) (out : Outflow) :
    Fails (·.Says t settings scope) (shortCircuit visit on r out) :=
  (fork_plain on out.frontier).next_fails fun (_, _) => .bind (hv hr _) fun _ => .pure _

theorem operator_fails {link : Link} (h : t.Visited scope link.node)
    (hr : t.Visited scope link.right) (out : Outflow) :
    Fails (·.Says t settings scope) (operator visit link out) := by
  unfold Visitor.operator
  cases link.op
  case and   => exact shortCircuit_fails hv true hr out
  case or    => exact shortCircuit_fails hv false hr out
  case other => exact strict_fails hv h (List.forall_mem_singleton.mpr hr) out

theorem binary_fails (h : t.Visited scope id) (out : Outflow) :
    Fails (·.Says t settings scope) (binary visit t id out) := by
  unfold binary
  split
  case h_1 hl => exact .throw ⟨h, hl⟩
  case h_2 hl =>
    obtain ⟨inner, rfl, hc⟩ := chain_of_followLeft hl
    rw [List.append_nil]
    have ⟨hm, hr⟩ := hc.visited h
    exact .bind (hv hm out) (.foldlM fun link hx => operator_fails hv (hr link hx).1 (hr link hx).2)

theorem negation_fails {operand : Syntax.Id} (h : t.Visited scope id)
    (hp : t.Visited scope operand) (out : Outflow) :
    Fails (·.Says t settings scope) (negation visit id operand out) := by
  refine .bind (place_fails h out) fun out => ?_
  refine .bind (hv hp out) fun out => ?_
  exact (negate_plain out.frontier).next_fails fun _ => .pure _

theorem whileLoop_fails {condition body : Syntax.Id} (h : t.Visited scope id)
    (hp : ∀ x ∈ [condition, body], t.Visited scope x) (out : Outflow) :
    Fails (·.Says t settings scope) (whileLoop visit id condition body out) := by
  simp only [List.forall_mem_cons] at hp
  refine .bind (place_fails h out) fun out => ?_
  refine .bind (gather_fails h out.frontier) fun header => ?_
  refine .bind (hv hp.1 _) fun tested => ?_
  refine (fork_plain true tested.frontier).next_fails fun (truthy, falsy) => ?_
  refine .bind (hv hp.2.1 _) fun looped => ?_
  refine .bind (loopEntry_fails header) fun entry => ?_
  exact (connectAll_plain looped.frontier entry).next_fails fun _ => .pure _

theorem doWhileLoop_fails {condition body : Syntax.Id} (h : t.Visited scope id)
    (hp : ∀ x ∈ [body, condition], t.Visited scope x) (out : Outflow) :
    Fails (·.Says t settings scope) (doWhileLoop visit id body condition out) := by
  simp only [List.forall_mem_cons] at hp
  refine .bind (place_fails h out) fun out => ?_
  refine .bind (gather_fails h out.frontier) fun header => ?_
  refine (grow_block_plain header).next_fails fun entry => ?_
  refine .bind (hv hp.1 _) fun looped => ?_
  refine .bind (hv hp.2.1 _) fun tested => ?_
  refine (fork_plain true tested.frontier).next_fails fun (truthy, falsy) => ?_
  exact (connectAll_plain truthy entry).next_fails fun _ => .pure _

theorem forLoop_fails {init updates : List Syntax.Id} {condition? : Option Syntax.Id}
    {body : Syntax.Id} (h : t.Visited scope id)
    (hp : ∀ x ∈ init ++ condition?.toList ++ updates ++ [body], t.Visited scope x)
    (out : Outflow) :
    Fails (·.Says t settings scope) (forLoop visit id init condition? updates body out) := by
  simp only [List.forall_mem_append, List.forall_mem_singleton] at hp
  have ⟨⟨⟨hi, hc⟩, hu⟩, hb⟩ := hp
  refine .bind (place_fails h out) fun out => ?_
  refine .bind (sequence_fails hv hi out) fun out => ?_
  refine .bind (gather_fails h out.frontier) fun header => ?_
  have hr (out : Outflow) (truthy falsy : List Exit) : Fails (·.Says t settings scope) (do
      let looped ← visit body { frontier := truthy }
      let out := out.absorb looped
      let updated ← sequence visit updates { frontier := looped.frontier }
      let out := out.absorb updated
      connectAll updated.frontier (← loopEntry header)
      return { out with frontier := falsy, terminates := false }) := by
    refine .bind (hv hb _) fun looped => ?_
    refine .bind (sequence_fails hv hu _) fun updated => ?_
    refine .bind (loopEntry_fails header) fun entry => ?_
    exact (connectAll_plain updated.frontier entry).next_fails fun _ => .pure _
  cases condition?
  case none =>
    refine .bind (.pure _) fun tested => ?_
    refine (fork_plain true tested.frontier).next_fails fun (truthy, falsy) => ?_
    exact (forget_plain (truthy ++ falsy)).next_fails fun _ => hr _ truthy falsy
  case some c =>
    refine .bind (hv (hc c (List.Mem.head _)) _) fun tested => ?_
    exact (fork_plain true tested.frontier).next_fails fun (truthy, falsy) => hr _ truthy falsy

theorem construct_fails (h : t.Visited scope id) (out : Outflow) :
    Fails (·.Says t settings scope) (construct visit t id out) := by
  unfold construct
  split
  case h_1 hk => exact .throw ⟨h, hk⟩
  case h_2 kind hk =>
    have hp := h.parts (Tree.form?_eq hk)
    cases kind
    case block       => exact .bind (place_fails h out) (sequence_fails hv hp)
    case ifStmt      => exact branching_fails hv h hp out
    case ternary     => exact branching_fails hv h hp out
    case whileStmt   => exact whileLoop_fails hv h hp out
    case doWhileStmt => exact doWhileLoop_fails hv h hp out
    case forStmt     => exact forLoop_fails hv h hp out
    case binary      => exact binary_fails hv h out
    case returnStmt v? => exact jump_fails hv v? h hp out
    case throwStmt e => exact jump_fails hv (some e) h hp out
    case parens      => exact .bind (place_fails h out) (hv (hp _ (List.Mem.head _)))
    case declarator  => exact sequence_fails hv hp out
    case unary op _  =>
      cases op
      case not   => exact negation_fails hv h (hp _ (List.Mem.head _)) out
      case other => exact strict_fails hv h hp out
    case cast        => exact strict_fails hv h hp out
    case assignment  => exact strict_fails hv h hp out
    case call        => exact strict_fails hv h hp out
    case new         => exact strict_fails hv h hp out
    case varDecl     => exact strict_fails hv h hp out
    all_goals exact place_fails h out

end
end Visitor

open Walk

theorem visit_fails (remaining : Nat) (h : t.Visited scope id) (out : Outflow) :
    Fails (·.Says t settings scope) (visit t settings remaining id out) := by
  induction remaining generalizing id out
  all_goals
    unfold visit
    split
  case zero.isTrue  => exact fun _ _ he => by cases he
  case zero.isFalse => exact .throw ⟨h, rfl⟩
  case succ.isTrue  => exact fun _ _ he => by cases he
  case succ.isFalse ih _ => exact Visitor.construct_fails (fun _ => ih) h out

theorem visitBody_fails (out : Outflow) :
    Fails (·.Says t settings scope) (visitBody t settings scope out) := by
  unfold visitBody
  split
  case h_1 hk => exact .throw ⟨.scope, hk⟩
  case h_2 statements _ hk =>
    refine .bind (place_fails .scope out) fun out => ?_
    have hp := Tree.Visited.scope.parts (Tree.form?_eq hk)
    refine .bind (Visitor.sequence_fails (fun _ => visit_fails _) hp out) fun out => ?_
    exact fun _ _ he => Error.says_of_internal ((close_plain out).fails he)
  case h_3 hn hk =>
    refine .throw ⟨rfl, fun statements static hb => ?_⟩
    exact hn statements static (Option.some.inj (hk.symm.trans hb))

theorem walkBody_fails : Fails (·.Says t settings scope) (walkBody t settings scope) := by
  refine Plain.next_fails (.grow nofun) fun start => ?_
  refine .bind (visitBody_fails _) fun out => ?_
  split
  case h_1 finish _ =>
    intro p e he
    rw [get_bind_apply] at he
    split at he
    all_goals cases he
    trivial
  case h_2 => exact .throw trivial

-- Every error of an analysis says what is so.
theorem says_of_analyze {e : Error} (h : analyze t settings scope = .error e) :
    e.Says t settings scope := by
  unfold analyze StateT.run at h
  cases hw : walkBody t settings scope {}
  case error => rw [hw] at h; cases h; exact walkBody_fails hw
  case ok    => rw [hw] at h; cases h

end RoutineFlow.Flow
