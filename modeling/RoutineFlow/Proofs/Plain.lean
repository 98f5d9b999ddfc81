import RoutineFlow.Proofs.Promotion

-- Steps that leave nothing of the routine out. What they fail for is known, too: most of them fail
-- for internal reasons only, which never come about while every open slot has its exit.

namespace RoutineFlow.Flow

namespace Graph

variable {g : Graph} {source target id : NodeId} {e : Error}

theorem wireBranch_internal (h : g.wireBranch source branch target = .error e) : e.IsInternal := by
  unfold wireBranch at h
  split at h
  case h_3 => split at h <;> cases h; trivial
  all_goals cases h; trivial

theorem wire_internal (h : g.wire source target = .error e) : e.IsInternal := by
  unfold wire at h
  split at h
  case h_3 =>
    split at h
    case h_3 => exact wireBranch_internal h
    all_goals cases h
    trivial
  all_goals cases h; trivial

theorem record_internal (h : g.record id position = .error e) : e.IsInternal := by
  unfold record at h
  split at h <;> cases h <;> trivial

theorem invert_internal (h : g.invert id = .error e) : e.IsInternal := by
  unfold invert at h
  split at h <;> cases h
  trivial

theorem forget_internal (h : g.forget id = .error e) : e.IsInternal := by
  unfold forget at h
  split at h <;> cases h
  trivial

theorem promote_internal (h : (Build.promote source wanted g).1 = .error e) : e.IsInternal := by
  rw [Build.promote, Build.get_bind] at h
  cases hn : g.node? source
  case none =>
    rw [hn] at h
    cases h
    trivial
  case some node =>
    rw [hn] at h
    cases node
    case block ps next? inverted =>
      let g' := (g.set source (.block ps next? false)).push
        (.condition ps.getLast? none none (wanted != inverted))
      let target := (g.set source (.block ps next? false)).nextId
      change ((Build.wire source target >>= fun _ => pure target : Build NodeId) g').1 = _ at h
      cases hw : g'.wire source target
      case ok     => rw [Build.wire_bind hw] at h; cases h
      case error  => rw [Build.wire_bind_error hw] at h; cases h; exact wire_internal hw
    case condition => cases h
    all_goals cases h; trivial

end Graph

namespace Walk

variable {step : Walk α} {p p' : Progress} {E E' : Error → Prop} {e : Error}

theorem bind_eq_ok_iff {f : α → Walk β} {r : β × Progress} :
    (step >>= f) p = .ok r ↔ ∃ a p₁, step p = .ok (a, p₁) ∧ f a p₁ = .ok r := by
  rw [bind_apply]
  cases step p
  case ok => exact ⟨fun h => ⟨_, _, rfl, h⟩, fun ⟨_, _, he, h⟩ => by cases he; exact h⟩
  case error => exact ⟨nofun, nofun⟩

theorem bind_eq_error_iff {f : α → Walk β} :
    (step >>= f) p = .error e ↔
      step p = .error e ∨ ∃ a p₁, step p = .ok (a, p₁) ∧ f a p₁ = .error e := by
  rw [bind_apply]
  cases step p
  case ok =>
    refine ⟨fun h => .inr ⟨_, _, rfl, h⟩, ?_⟩
    rintro (⟨⟨⟩⟩ | ⟨_, _, ⟨⟩, h⟩)
    exact h
  case error => simp [bind, Except.bind]

-- A step that leaves nothing out and fails for the reasons of `E` only.
structure Plain (E : Error → Prop) (step : Walk α) : Prop where
  steady : ∀ {p a p'}, step p = .ok (a, p') → p'.unreachable = p.unreachable
  fails  : ∀ {p e}, step p = .error e → E e

namespace Plain

theorem pure (a : α) : Plain E (pure a : Walk α) where
  steady h := by cases h; rfl
  fails h  := by cases h

theorem throw (h : E e) : Plain E (throw e : Walk α) where
  steady h' := by cases h'
  fails h'  := by cases h'; exact h

theorem mono (h : Plain E step) (hE : ∀ e, E e → E' e) : Plain E' step where
  steady := h.steady
  fails he := hE _ (h.fails he)

theorem bind {f : α → Walk β} (h : Plain E step) (hf : ∀ a, Plain E (f a)) :
    Plain E (step >>= f) where
  steady he := by
    have ⟨a, p₁, h₁, h₂⟩ := bind_eq_ok_iff.mp he
    rw [(hf a).steady h₂, h.steady h₁]
  fails he := by
    cases bind_eq_error_iff.mp he
    case inl h₁ => exact h.fails h₁
    case inr h₁ =>
      have ⟨a, _, _, h₂⟩ := h₁
      exact (hf a).fails h₂

theorem get_bind {f : Progress → Walk α} (h : ∀ p, Plain E (f p)) : Plain E (get >>= f) where
  steady {p _ _} he := (h p).steady he
  fails {p _} he    := (h p).fails he

theorem forM {f : α → Walk Unit} (h : ∀ a, Plain E (f a)) (as : List α) : Plain E (as.forM f) := by
  induction as
  case nil        => exact .pure ()
  case cons a _ ih => exact .bind (h a) fun _ => ih

theorem mapM {f : α → Walk β} (h : ∀ a, Plain E (f a)) (as : List α) : Plain E (as.mapM f) := by
  induction as
  case nil => exact .pure []
  case cons a _ ih =>
    rw [List.mapM_cons]
    exact .bind (h a) fun _ => .bind ih fun _ => .pure _

theorem update {f : Graph → Except Error Graph} (h : ∀ {g e}, f g = .error e → E e) :
    Plain E (update f) where
  steady {p _ _} he := by
    unfold Walk.update at he
    split at he
    case h_1 => cases he; rfl
    case h_2 => cases he
  fails {p _} he := by
    unfold Walk.update at he
    split at he
    case h_1     => cases he
    case h_2 hf  => cases he; exact h hf

theorem grow {build : Graph.Build α} (h : ∀ {g e}, (build g).1 = .error e → E e) :
    Plain E (grow build) where
  steady {p _ _} he := by
    unfold Walk.grow at he
    split at he
    case h_1 => cases he; rfl
    case h_2 => cases he
  fails {p _} he := by
    unfold Walk.grow at he
    split at he
    case h_1    => cases he
    case h_2 hb => cases he; exact h (congrArg Prod.fst hb)

end Plain

-- A step that cannot fail for the reasons that are left does not fail.
theorem Meets.succeeds {post : α → Progress → Prop} (h : Meets step p post)
    (hp : Plain Error.IsInternal step) : ∃ a p', step p = .ok (a, p') ∧ post a p' := by
  unfold Meets at h
  split at h
  case h_1 he => exact ⟨_, _, he, h⟩
  case h_2 he => exact absurd (hp.fails he) h

theorem connectAll_plain (exits : List Exit) (target : NodeId) :
    Plain Error.IsInternal (connectAll exits target) := by
  refine .forM (fun x => ?_) exits
  cases x
  case next   => exact .update (f := (·.wire _ target)) Graph.wire_internal
  case branch => exact .update (f := (·.wireBranch _ _ target)) Graph.wireBranch_internal

theorem grow_block_plain (id : NodeId) : Plain Error.IsInternal (grow (.block id)) := by
  rw [grow_block_eq]
  exact .bind (.grow nofun) fun block => .bind (connectAll_plain ..) fun _ => .pure block

theorem gather_plain (position : Syntax.Id) (frontier : List Exit) :
    Plain (fun e => frontier ≠ [] → e.IsInternal) (gather position frontier) := by
  refine .get_bind fun p => ?_
  split
  case h_1 => exact .pure _
  case h_2 =>
    split
    case isTrue he => exact .throw fun hn => absurd (List.isEmpty_iff.mp he) hn
    case isFalse   =>
      refine .bind (.grow nofun) fun block => ?_
      exact .bind ((connectAll_plain ..).mono fun _ hi _ => hi) fun _ => .pure block

theorem place_plain (position : Syntax.Id) (out : Outflow) :
    Plain (fun e => out.frontier ≠ [] → e.IsInternal) (place position out) :=
  .bind (gather_plain position out.frontier) fun _ =>
    .bind (.update fun h _ => Graph.record_internal h) fun _ => .pure _

theorem fork_plain (wanted : Bool) (frontier : List Exit) :
    Plain Error.IsInternal (fork wanted frontier) := by
  refine .bind (.mapM (fun x => ?_) frontier) fun _ => .pure _
  cases x
  case next   =>
    refine .get_bind fun p => ?_
    exact .bind (.grow Graph.promote_internal) fun _ => .pure _
  case branch => exact .pure _

theorem negate_plain (exits : List Exit) : Plain Error.IsInternal (exits.mapM negate) := by
  refine .mapM (fun x => ?_) exits
  cases x
  case next   => exact .bind (.update Graph.invert_internal) fun _ => .pure _
  case branch => exact .pure _

theorem forget_plain (exits : List Exit) :
    Plain Error.IsInternal (exits.forM fun exit => update (·.forget exit.node)) :=
  .forM (fun _ => .update Graph.forget_internal) exits

theorem loopEntry_plain (header : NodeId) :
    Plain (· = .missingLoopEntry header) (Visitor.loopEntry header) := by
  refine .get_bind fun p => ?_
  split
  case h_1 => exact .pure _
  case h_2 => exact .throw rfl

theorem close_plain (out : Outflow) : Plain Error.IsInternal (do
    let finish ← grow .finish
    if !out.terminates then
      connectAll out.frontier finish
    connectAll out.leaving finish
    return ({ frontier := [.next finish], terminates := out.terminates } : Outflow)) := by
  refine .bind (.grow nofun) fun finish => ?_
  split
  case isTrue  =>
    refine .bind (connectAll_plain out.frontier finish) fun _ => ?_
    exact .bind (connectAll_plain out.leaving finish) fun _ => .pure _
  case isFalse => exact .bind (connectAll_plain out.leaving finish) fun _ => .pure _

end Walk
end RoutineFlow.Flow
