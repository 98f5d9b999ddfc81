import RoutineFlow.Proofs.Analysis
import RoutineFlow.Proofs.Stalled

-- The two policies on unreachable code. A walk that rejects such code and one that leaves it out
-- take the same steps until one of them comes to it; then the first has failed and the second
-- remembers.

namespace RoutineFlow.Flow

open Syntax (Tree searching)

variable {t : Tree} {reject skip : Visitor} {id : Syntax.Id} {out : Outflow}
  {levels maxDepth : Nat} {settings : Settings} {s : Summary}

namespace Walk

-- The first of two walks succeeds where the second leaves nothing out, and they end alike.
structure Agrees (reject skip : Walk α) : Prop where
  grows : ∀ {p a p'}, skip p = .ok (a, p') → p.unreachable <+: p'.unreachable
  iff   : ∀ {p a p'}, reject p = .ok (a, p') ↔
    skip p = .ok (a, p') ∧ p'.unreachable = p.unreachable

theorem Plain.agrees {step : Walk α} (h : Plain E step) : Agrees step step where
  grows he := h.steady he ▸ List.prefix_rfl
  iff      := ⟨fun he => ⟨he, h.steady he⟩, And.left⟩

namespace Agrees

variable {reject skip : Walk α}

theorem pure (a : α) : Agrees (pure a) (pure a) :=
  (Plain.pure (E := fun _ => True) a).agrees

theorem throw (e : Error) : Agrees (throw e : Walk α) (throw e) :=
  (Plain.throw (E := (· = e)) rfl).agrees

theorem bind {f g : α → Walk β} (h : Agrees reject skip) (hf : ∀ a, Agrees (f a) (g a)) :
    Agrees (reject >>= f) (skip >>= g) where
  grows he :=
    have ⟨a, _, h₁, h₂⟩ := bind_eq_ok_iff.mp he
    (h.grows h₁).trans ((hf a).grows h₂)
  iff {p b p'} := by
    rw [bind_eq_ok_iff, bind_eq_ok_iff]
    constructor
    case mp =>
      intro ⟨a, p₁, h₁, h₂⟩
      have ⟨h₁, hu₁⟩ := h.iff.mp h₁
      have ⟨h₂, hu₂⟩ := (hf a).iff.mp h₂
      exact ⟨⟨a, p₁, h₁, h₂⟩, hu₂.trans hu₁⟩
    case mpr =>
      intro ⟨⟨a, p₁, h₁, h₂⟩, hu⟩
      -- What was left out in between would still be listed at the end.
      have hp₁ := h.grows h₁
      have hp₂ := (hf a).grows h₂
      rw [hu] at hp₂
      have hu₁ := hp₂.eq_of_length_le hp₁.length_le
      exact ⟨a, p₁, h.iff.mpr ⟨h₁, hu₁⟩, (hf a).iff.mpr ⟨h₂, hu.trans hu₁.symm⟩⟩

theorem get_bind {f g : Progress → Walk α} (h : ∀ p, Agrees (f p) (g p)) :
    Agrees (get >>= f) (get >>= g) where
  grows {p _ _} he := (h p).grows he
  iff {p _ _}      := (h p).iff

-- Neither walk comes to its end.
theorem never (hs : ∀ p r, reject p ≠ .ok r) (hl : ∀ p r, skip p ≠ .ok r) :
    Agrees reject skip where
  grows he := absurd he (hl _ _)
  iff      := ⟨fun he => absurd he (hs _ _), fun he => absurd he.1 (hl _ _)⟩

end Agrees
end Walk

namespace Visitor

open Walk

-- What is known of the visits of parts under the two policies.
structure Agree (t : Tree) (reject skip : Visitor) (levels : Nat) : Prop where
  visits : ∀ {id out}, t.IsProper id ∨ out.frontier ≠ [] → Agrees (reject id out) (skip id out)
  stalls : Stalls t reject levels
  skips  : ∀ {id out p}, out.frontier = [] →
    skip id out p = .ok (out, { p with unreachable := p.unreachable ++ [id] })

namespace Agree

variable (h : Agree t reject skip levels)
include h

theorem sequence_agrees (hp : ∀ i ∈ parts, t.IsProper i) (out : Outflow) :
    Agrees (sequence reject parts out) (sequence skip parts out) := by
  induction parts generalizing out
  case nil => exact .pure out
  case cons i is ih =>
    have ⟨hi, hp⟩ := List.forall_mem_cons.mp hp
    exact (h.visits (.inl hi)).bind fun out => ih hp out

theorem sequence_skips (he : out.frontier = []) (parts : List Syntax.Id) (p : Progress) :
    sequence skip parts out p = .ok (out, { p with unreachable := p.unreachable ++ parts }) := by
  induction parts generalizing p
  case nil => rw [List.append_nil]; rfl
  case cons i is ih =>
    change (skip i out >>= fun out => sequence skip is out) p = _
    rw [bind_apply, h.skips he]
    change sequence skip is out _ = _
    rw [ih]
    simp

theorem strict_agrees (hp : ∀ i ∈ operands, t.IsProper i) (out : Outflow) :
    Agrees (strict reject id operands out) (strict skip id operands out) :=
  (h.sequence_agrees hp out).bind fun out => (place_plain id out).agrees

-- A declarator may have no position of its own, but the declaration after it has.
theorem declarators_agree (hp : ∀ i ∈ declarators, ∃ kind, t.kind? i = some kind) (out : Outflow) :
    Agrees (strict reject id declarators out) (strict skip id declarators out) := by
  induction declarators generalizing out
  case nil => exact h.strict_agrees (List.forall_mem_nil _) out
  case cons d ds ih =>
    by_cases he : out.frontier = []
    case neg =>
      change Agrees ((reject d out >>= sequence reject ds) >>= place id)
        ((skip d out >>= sequence skip ds) >>= place id)
      rw [bind_assoc, bind_assoc]
      exact (h.visits (.inr he)).bind fun out => ih (List.forall_mem_cons.mp hp).2 out
    case pos =>
      have hp' : Walk.Stalls False [id] (place id out) out := .place he
      refine .never (fun p _ => ?_) (fun p _ => ?_)
      · exact ((sequence_stalls h.stalls he hp nofun).bind hp').not_ok (by simp) p
      · rw [strict, bind_apply, h.sequence_skips he]
        exact hp'.not_ok (List.cons_ne_nil _ _) _

theorem branching_agrees (hc : t.IsProper condition) (hy : t.IsProper yes)
    (hn : ∀ no ∈ no?, t.IsProper no) (out : Outflow) :
    Agrees (branching reject id condition yes no? out)
      (branching skip id condition yes no? out) := by
  refine (place_plain id out).agrees.bind fun out => ?_
  refine (h.visits (.inl hc)).bind fun tested => ?_
  refine (fork_plain true tested.frontier).agrees.bind fun (truthy, falsy) => ?_
  refine (h.visits (.inl hy)).bind fun yes => ?_
  cases no?
  case none    => exact .pure _
  case some no => exact (h.visits (.inl (hn no rfl))).bind fun _ => .pure _

theorem shortCircuit_agrees (hr : t.IsProper r) (on : Bool) (out : Outflow) :
    Agrees (shortCircuit reject on r out) (shortCircuit skip on r out) := by
  refine (fork_plain on out.frontier).agrees.bind fun (evaluate, skipped) => ?_
  exact (h.visits (.inl hr)).bind fun _ => .pure _

theorem operator_agrees (link : Link) (hr : t.IsProper link.right) (out : Outflow) :
    Agrees (operator reject link out) (operator skip link out) := by
  unfold operator
  cases link.op
  case and   => exact h.shortCircuit_agrees hr true out
  case or    => exact h.shortCircuit_agrees hr false out
  case other => exact h.strict_agrees (List.forall_mem_singleton.mpr hr) out

theorem binary_agrees (hw : t.WellShaped) (hk : t.kind? id = some (.binary op l r))
    (out : Outflow) :
    Agrees (binary reject t id out) (binary skip t id out) := by
  obtain ⟨leftmost, links, hl, hc, _⟩ := exists_chain hw hk
  have hp := hc.isProper hw ⟨_, hk, rfl⟩
  have hr := hc.isProper_right hw
  simp only [binary, hl]
  refine (h.visits (.inl hp)).bind fun out => ?_
  clear hl hc
  induction links generalizing out
  case nil => exact .pure out
  case cons link links ih =>
    obtain ⟨hi, hr⟩ := List.forall_mem_cons.mp hr
    exact (h.operator_agrees link hi out).bind fun out => ih hr out

theorem negation_agrees (ho : t.IsProper operand) (out : Outflow) :
    Agrees (negation reject id operand out) (negation skip id operand out) := by
  refine (place_plain id out).agrees.bind fun out => ?_
  refine (h.visits (.inl ho)).bind fun out => ?_
  exact (negate_plain out.frontier).agrees.bind fun _ => .pure _

theorem whileLoop_agrees (hc : t.IsProper condition) (hb : t.IsProper body) (out : Outflow) :
    Agrees (whileLoop reject id condition body out) (whileLoop skip id condition body out) := by
  refine (place_plain id out).agrees.bind fun out => ?_
  refine (gather_plain id out.frontier).agrees.bind fun header => ?_
  refine (h.visits (.inl hc)).bind fun tested => ?_
  refine (fork_plain true tested.frontier).agrees.bind fun (truthy, falsy) => ?_
  refine (h.visits (.inl hb)).bind fun looped => ?_
  refine (loopEntry_plain header).agrees.bind fun entry => ?_
  exact (connectAll_plain looped.frontier entry).agrees.bind fun _ => .pure _

theorem doWhileLoop_agrees (hc : t.IsProper condition) (hb : t.IsProper body) (out : Outflow) :
    Agrees (doWhileLoop reject id body condition out) (doWhileLoop skip id body condition out) := by
  refine (place_plain id out).agrees.bind fun out => ?_
  refine (gather_plain id out.frontier).agrees.bind fun header => ?_
  refine (grow_block_plain header).agrees.bind fun entry => ?_
  refine (h.visits (.inl hb)).bind fun looped => ?_
  refine (h.visits (.inl hc)).bind fun tested => ?_
  refine (fork_plain true tested.frontier).agrees.bind fun (truthy, falsy) => ?_
  exact (connectAll_plain truthy entry).agrees.bind fun _ => .pure _

theorem forLoop_agrees (hi : ∀ i ∈ init, t.IsProper i) (hc : ∀ c ∈ condition?, t.IsProper c)
    (hu : ∀ i ∈ updates, t.IsProper i) (hb : t.IsProper body) (out : Outflow) :
    Agrees (forLoop reject id init condition? updates body out)
      (forLoop skip id init condition? updates body out) := by
  refine (place_plain id out).agrees.bind fun out => ?_
  refine (h.sequence_agrees hi out).bind fun out => ?_
  refine (gather_plain id out.frontier).agrees.bind fun header => ?_
  have hr (out : Outflow) (truthy falsy : List Exit) : Agrees (do
      let looped ← reject body { frontier := truthy }
      let out := out.absorb looped
      let updated ← sequence reject updates { frontier := looped.frontier }
      let out := out.absorb updated
      connectAll updated.frontier (← loopEntry header)
      return { out with frontier := falsy, terminates := false }) (do
      let looped ← skip body { frontier := truthy }
      let out := out.absorb looped
      let updated ← sequence skip updates { frontier := looped.frontier }
      let out := out.absorb updated
      connectAll updated.frontier (← loopEntry header)
      return { out with frontier := falsy, terminates := false }) := by
    refine (h.visits (.inl hb)).bind fun looped => ?_
    refine (h.sequence_agrees hu _).bind fun updated => ?_
    refine (loopEntry_plain header).agrees.bind fun entry => ?_
    exact (connectAll_plain updated.frontier entry).agrees.bind fun _ => .pure _
  cases condition?
  case none =>
    refine (Agrees.pure _).bind fun tested => ?_
    refine (fork_plain true tested.frontier).agrees.bind fun (truthy, falsy) => ?_
    exact (forget_plain (truthy ++ falsy)).agrees.bind fun _ => hr _ truthy falsy
  case some c =>
    refine (h.visits (.inl (hc c rfl))).bind fun tested => ?_
    exact (fork_plain true tested.frontier).agrees.bind fun (truthy, falsy) => hr _ truthy falsy

theorem jump_agrees (ho : ∀ i ∈ operand?.toList, t.IsProper i) (out : Outflow) :
    Agrees (jump reject id operand? out) (jump skip id operand? out) :=
  (h.strict_agrees ho out).bind fun _ => .pure _

theorem construct_agrees (hw : t.WellShaped) (id : Syntax.Id) (out : Outflow) :
    Agrees (construct reject t id out) (construct skip t id out) := by
  unfold construct
  split
  case h_1 => exact .throw _
  case h_2 kind hk =>
    have hf := Tree.form?_eq hk
    -- What is evaluated is an expression, and only declarations hold declarators.
    have ho {part} (hp : part ∈ kind.operands) : t.IsProper part := (hw.operands hk hp).isProper
    have hs {part} (hn : ∀ operands, kind.form ≠ .strict operands) (hp : part ∈ kind.form.parts) :
        t.IsProper part := hw.isProper_part hf hn hp
    cases kind
    case block       =>
      refine (place_plain id out).agrees.bind fun out => h.sequence_agrees (fun _ => ?_) out
      exact hs fun _ h => by cases h
    case ifStmt no?     =>
      refine h.branching_agrees (ho (.head _)) (hs (fun _ h => by cases h) (.tail _ (.head _)))
        (fun no hn => ?_) out
      exact hs (fun _ h => by cases h) (.tail _ (.tail _ (Option.mem_toList.mpr hn)))
    case ternary     =>
      refine h.branching_agrees (ho (.head _)) (ho (.tail _ (.head _))) (fun no hn => ?_) out
      cases hn
      exact ho (.tail _ (.tail _ (.head _)))
    case whileStmt   =>
      exact h.whileLoop_agrees (ho (.head _)) (hs (fun _ h => by cases h) (.tail _ (.head _))) out
    case doWhileStmt => exact h.doWhileLoop_agrees (ho (.head _)) (hs (fun _ h => by cases h) (.head _)) out
    case forStmt init condition? update body =>
      refine h.forLoop_agrees (fun i hi => ho ?_) (fun c hc => ho ?_) (fun i hi => ho ?_)
        (hs (fun _ h => by cases h) (by simp [Syntax.Kind.form, Syntax.Form.parts])) out
      all_goals simp_all [Syntax.Kind.operands]
    case binary      => exact h.binary_agrees hw hk out
    case returnStmt  => exact h.jump_agrees (fun _ => ho) out
    case throwStmt   => exact h.jump_agrees (fun _ => ho) out
    case parens      =>
      exact (place_plain id out).agrees.bind fun out => h.visits (.inl (ho (.head _)))
    case declarator  => exact h.sequence_agrees (fun _ => ho) out
    case unary op _  =>
      cases op
      case not   => exact h.negation_agrees (ho (.head _)) out
      case other => exact h.strict_agrees (fun _ => ho) out
    case cast        => exact h.strict_agrees (fun _ => ho) out
    case assignment  => exact h.strict_agrees (fun _ => ho) out
    case call        => exact h.strict_agrees (fun _ => ho) out
    case new         => exact h.strict_agrees (fun _ => ho) out
    case varDecl     => exact h.declarators_agree (fun _ => hw.exists_part hf) out
    all_goals exact (place_plain id out).agrees

end Agree
end Visitor

open Walk

theorem visit_skips (he : out.frontier = []) (p : Progress) :
    visit t { unreachable := .skip, maxDepth } levels id out p =
      .ok (out, { p with unreachable := p.unreachable ++ [id] }) := by
  unfold visit
  simp [he]
  rfl

theorem visit_zero (he : out.frontier ≠ []) (settings : Settings) :
    visit t settings 0 id out = throw (.nestingTooDeep id settings.maxDepth) := by
  unfold visit
  simp [he]

theorem visit_succ (he : out.frontier ≠ []) (settings : Settings) :
    visit t settings (levels + 1) id out =
      Visitor.construct (visit t settings levels) t id out := by
  rw [visit]
  simp [he]

theorem visit_agrees_of_nil (hw : t.WellShaped) (hp : t.IsProper id) (he : out.frontier = []) :
    Agrees (visit t { unreachable := .reject, maxDepth } levels id out)
      (visit t { unreachable := .skip, maxDepth } levels id out) where
  grows hs := by
    rw [visit_skips he] at hs
    cases hs
    exact List.prefix_append _ _
  iff {p _ _} := by
    have ⟨_, hk, _⟩ := hp
    have hr := visit_stalls hw maxDepth levels hk he
    refine ⟨fun hs => absurd hs (hr.not_ok (hw.placed_ne_nil hp) _), fun ⟨hs, hu⟩ => ?_⟩
    rw [visit_skips he] at hs
    cases hs
    simp at hu

theorem visit_agree (hw : t.WellShaped) (maxDepth levels : Nat) :
    Visitor.Agree t (visit t { unreachable := .reject, maxDepth } levels)
      (visit t { unreachable := .skip, maxDepth } levels) levels := by
  induction levels
  case zero =>
    refine ⟨fun {id out} h => ?_, visit_stalls hw maxDepth 0, fun he => visit_skips he _⟩
    by_cases he : out.frontier = []
    case pos => exact visit_agrees_of_nil hw (h.resolve_right (absurd he)) he
    case neg =>
      rw [visit_zero he, visit_zero he]
      exact .throw _
  case succ levels ih =>
    refine ⟨fun {id out} h => ?_, visit_stalls hw maxDepth _, fun he => visit_skips he _⟩
    by_cases he : out.frontier = []
    case pos => exact visit_agrees_of_nil hw (h.resolve_right (absurd he)) he
    case neg =>
      rw [visit_succ he, visit_succ he]
      exact ih.construct_agrees hw id out

theorem visitBody_agrees (hw : t.WellShaped) (maxDepth : Nat) (scope : Syntax.Id) (out : Outflow) :
    Agrees (visitBody t { unreachable := .reject, maxDepth } scope out)
      (visitBody t { unreachable := .skip, maxDepth } scope out) := by
  unfold visitBody
  split
  case h_1 => exact .throw _
  case h_3 => exact .throw _
  case h_2 statements isStatic hk =>
    have hf : t.form? scope = some (.block statements) := Tree.form?_eq hk
    refine (place_plain scope out).agrees.bind fun out => ?_
    refine ((visit_agree hw maxDepth maxDepth).sequence_agrees
      (fun _ => hw.isProper_part hf nofun) out).bind fun out => ?_
    exact (close_plain out).agrees

theorem walkBody_agrees (hw : t.WellShaped) (maxDepth : Nat) (scope : Syntax.Id) :
    Agrees (walkBody t { unreachable := .reject, maxDepth } scope)
      (walkBody t { unreachable := .skip, maxDepth } scope) := by
  have hg : Plain (fun _ => True) (grow .start) := .grow fun _ => trivial
  refine hg.agrees.bind fun start => ?_
  refine (visitBody_agrees hw maxDepth scope _).bind fun out => ?_
  split
  case h_1 finish _ =>
    refine .get_bind fun p => ?_
    split
    case isTrue  => exact .pure _
    case isFalse => exact .throw _
  case h_2 => exact .throw _

theorem analyze_eq_ok_iff : analyze t settings scope = .ok s ↔
    walkBody t settings scope {} = .ok ((s.start, s.finish), ⟨s.graph, s.unreachable⟩) := by
  unfold analyze StateT.run
  cases walkBody t settings scope {}
  case error => exact ⟨nofun, nofun⟩
  case ok r  =>
    have ⟨⟨start, finish⟩, p⟩ := r
    constructor
    case mp  => intro h; cases h; rfl
    case mpr => intro h; cases h; rfl

theorem analyze_reject_iff (hw : t.WellShaped) (maxDepth : Nat) (scope : Syntax.Id) :
    analyze t { unreachable := .reject, maxDepth } scope = .ok s ↔
      analyze t { unreachable := .skip, maxDepth } scope = .ok s ∧ s.unreachable = [] := by
  rw [analyze_eq_ok_iff, analyze_eq_ok_iff]
  exact (walkBody_agrees hw maxDepth scope).iff

-- The body is given by itself, or by a position in its routine.
theorem analyze_agrees (hw : t.WellShaped) (maxDepth : Nat) (position : Syntax.Id) (s : Summary) :
    (analyze t { unreachable := .reject, maxDepth } position = .ok s ↔
      analyze t { unreachable := .skip, maxDepth } position = .ok s ∧ s.unreachable = []) ∧
    (flowAround t { unreachable := .reject, maxDepth } position = .ok s ↔
      flowAround t { unreachable := .skip, maxDepth } position = .ok s ∧ s.unreachable = []) := by
  refine ⟨analyze_reject_iff hw maxDepth position, ?_⟩
  unfold flowAround
  cases scopeOf t position
  case error    => exact ⟨nofun, nofun⟩
  case ok scope => exact analyze_reject_iff hw maxDepth scope

theorem analyze_agrees_searching :
    searching.2.WellShaped ∧
    ∃ s, analyze searching.2 {} searching.1 = .ok s ∧
      analyze searching.2 { unreachable := .skip } searching.1 = .ok s ∧ s.unreachable = [] := by
  have hw : searching.2.WellShaped := by decide +kernel
  have ⟨s, h⟩ : ∃ s, analyze searching.2 {} searching.1 = .ok s :=
    exists_of_isSome (by decide +kernel)
  exact ⟨hw, s, h, (analyze_agrees hw 256 searching.1 s).1.mp h⟩

end RoutineFlow.Flow
