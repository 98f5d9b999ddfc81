import RoutineFlow.Proofs.Reach
import RoutineFlow.Proofs.Stalled

-- Steps by what of the routine they do not come to. A step that leaves nothing out goes on, and
-- from a test the flow can go on with either value.

namespace RoutineFlow.Flow

open Syntax (Tree)

variable {t : Tree} {policy : Policy} {id : Syntax.Id} {out : Outflow} {p p' : Progress}
  {exits parked truthy falsy : List Exit} {dead dead' : List Syntax.Id} {g : Graph}
  {ends ends' left sides : List LooseEnd} {e : LooseEnd}

namespace Walk

-- A step that comes to the dead code `dead`. It is left out, or the step fails at the first
-- position of it.
def Comes (t : Tree) (policy : Policy) (dead : List Syntax.Id) (step : Walk α) (p : Progress)
    (post : α → Progress → Prop) : Prop :=
  match step p with
  | .ok (a, p') =>
    (policy = .reject → dead = []) ∧ p'.unreachable = p.unreachable ++ dead ∧ post a p'
  | .error e    =>
    policy = .reject ∧
    ∃ d x, dead.head? = some d ∧ (t.placed d).head? = some x ∧ e = .emptyFrontier x

namespace Comes

variable {step : Walk α} {f : α → Walk β} {post post' : α → Progress → Prop}
  {post₂ : β → Progress → Prop}

theorem pure (h : post a p) : Comes t policy [] (pure a) p post :=
  ⟨fun _ => rfl, (List.append_nil _).symm, h⟩

theorem mono (h : Comes t policy dead step p post) (hp : ∀ a p', post a p' → post' a p') :
    Comes t policy dead step p post' := by
  unfold Comes at h ⊢
  split at h
  case h_1 => exact ⟨h.1, h.2.1, hp _ _ h.2.2⟩
  case h_2 => exact h

theorem bind (h : Comes t policy dead step p post)
    (hf : ∀ a p', post a p' → Comes t policy dead' (f a) p' post₂) :
    Comes t policy (dead ++ dead') (step >>= f) p post₂ := by
  unfold Comes at h
  split at h
  case h_1 a p' hs =>
    obtain ⟨hd, hu, hp⟩ := h
    have hf := hf a p' hp
    have hb : (step >>= f) p = f a p' := by
      rw [bind_apply, hs]
      rfl
    rw [Comes, hb]
    unfold Comes at hf
    split at hf
    case h_1 =>
      obtain ⟨hd', hu', hp'⟩ := hf
      exact ⟨fun hr => by rw [hd hr, hd' hr]; rfl, by rw [hu', hu, List.append_assoc], hp'⟩
    case h_2 =>
      obtain ⟨hr, hx⟩ := hf
      rw [hd hr]
      exact ⟨hr, hx⟩
  case h_2 hs =>
    rw [Comes, bind_apply, hs]
    obtain ⟨hr, d, x, hd, hx⟩ := h
    exact ⟨hr, d, x, by rw [List.head?_append, hd]; rfl, hx⟩

-- Nothing is dead before.
theorem next (h : Comes t policy [] step p post)
    (hf : ∀ a p', post a p' → Comes t policy dead (f a) p' post₂) :
    Comes t policy dead (step >>= f) p post₂ :=
  h.bind hf

-- Nothing is dead afterwards.
theorem last (h : Comes t policy dead step p post)
    (hf : ∀ a p', post a p' → Comes t policy [] (f a) p' post₂) :
    Comes t policy dead (step >>= f) p post₂ := by
  have hb := h.bind hf
  rwa [List.append_nil] at hb

theorem of_eq (h : step p = .ok (a, p)) (hf : Comes t policy dead (f a) p post₂) :
    Comes t policy dead (step >>= f) p post₂ := by
  rw [Comes, bind_apply, h]
  exact hf

theorem of_plain (h : Meets step p post) (hp : Plain Error.IsInternal step) :
    Comes t policy [] step p post := by
  have ⟨a, p', he, hpost⟩ := h.succeeds hp
  rw [Comes, he]
  exact ⟨fun _ => rfl, by rw [hp.steady he, List.append_nil], hpost⟩

theorem and_meets (h : Comes t policy dead step p post) (hm : Meets step p post') :
    Comes t policy dead step p fun a p' => post a p' ∧ post' a p' := by
  unfold Meets at hm
  unfold Comes at h ⊢
  split at h
  case h_1 he =>
    rw [he] at hm
    exact ⟨h.1, h.2.1, h.2.2, hm⟩
  case h_2 => exact h

end Comes

theorem Stalls.comes {step : Walk Outflow} {post : Outflow → Progress → Prop} {enough : Prop}
    (h : Stalls enough (t.placed id) step out) (he : enough) (hn : t.placed id ≠ [])
    (p : Progress) : Comes t .reject [id] step p post := by
  have hp := h p
  unfold Comes
  split at hp
  case h_1 => exact absurd hp.1 hn
  case h_2 hs =>
    rw [hs]
    have ⟨x, hx, he⟩ := hp he
    exact ⟨rfl, id, x, rfl, hx, he⟩

-- The construct is placed and what follows goes on from there.
theorem placed_first {rest : Outflow → Walk α} {post : α → Progress → Prop} (id : Syntax.Id)
    (hu : p.graph.Underway (out.frontier ++ parked)) (he : out.frontier ≠ [])
    (hr : ∀ block p', Advances [.next block] parked p p' →
      Comes t policy dead (rest { out with frontier := [.next block], terminates := false }) p'
        post) :
    Comes t policy dead (place id out >>= rest) p post := by
  have hp : Plain Error.IsInternal (place id out) := (place_plain id out).mono fun _ hi => hi he
  refine (Comes.of_plain (place_meets id hu) hp).next fun _ p' ⟨block, ho, ha, _⟩ => ?_
  subst ho
  exact hr block p' ha

theorem place_comes (id : Syntax.Id) (hu : p.graph.Underway (out.frontier ++ parked))
    (he : out.frontier ≠ []) :
    Comes t policy [] (place id out) p fun out' _ => out'.frontier ≠ [] := by
  rw [← bind_pure (place id out)]
  exact placed_first id hu he fun _ _ _ => .pure (List.cons_ne_nil _ _)

end Walk

theorem Graph.Forks.tells (h : g.Forks labelled lo ends hi sides) (hm : e ∈ ends)
    (hv : e.May value) : ∃ s ∈ sides, s.hasSense value := by
  by_contra hn
  have hs : ∀ s ∈ sides, s.hasSense value → g.Follows (fun _ => False) s :=
    fun s hm hs => absurd ⟨s, hm, hs⟩ hn
  have ⟨_, _, hf⟩ := h.drains_sense (fun _ _ _ hf => hf) hs e hm hv
  exact hf

theorem Laid.tells (hv : t.Valued true condition)
    (h : Laid g t (.node condition) lo ends mid ends' left dead) (he : ends ≠ [])
    (hk : g.Forks labelled mid ends' hi sides) (value : Bool) : ∃ s ∈ sides, s.hasSense value := by
  by_contra hn
  have hf : g.AllFollow (fun _ => False) ends :=
    h.drains_value (fun _ _ _ hf => hf) value hv fun e hm hy => absurd (hk.tells hm (hy rfl)) hn
  have ⟨e, hm⟩ := List.exists_mem_of_ne_nil ends he
  have ⟨_, _, hf⟩ := hf e hm
  exact hf

theorem Graph.Forks.label_ne_next (h : g.Forks labelled lo ends hi sides) :
    ∀ s ∈ sides, s.slot.2 ≠ .next := by
  induction h
  case nil      => exact nofun
  case side ih  => exact List.forall_mem_cons.mpr ⟨nofun, ih⟩
  case block ih => exact List.forall_mem_cons.mpr ⟨nofun, List.forall_mem_cons.mpr ⟨nofun, ih⟩⟩

namespace Walk

-- The two outcomes of a test, neither of which is out of the question.
structure Splits (truthy falsy parked : List Exit) (p p' : Progress) : Prop where
  truthy_ne : truthy ≠ []
  falsy_ne  : falsy ≠ []
  sides     : ∀ x ∈ truthy ++ falsy, x.slot.2 ≠ .next
  underway  : p'.graph.Underway (truthy ++ (falsy ++ parked))
  keeps     : Graph.Keeps parked p.graph p'.graph

theorem Splits.of_forks {sides : List LooseEnd} (ha : Advances (truthy ++ falsy) parked p p')
    (hy : p'.graph.looseEnds truthy = sides.filter (·.hasSense value))
    (hn : p'.graph.looseEnds falsy = sides.filter (!·.hasSense value))
    (hk : p'.graph.Forks labelled lo ends hi sides)
    (ht : ∀ value, ∃ s ∈ sides, s.hasSense value) : Splits truthy falsy parked p p' where
  truthy_ne := by
    rintro rfl
    have ⟨s, hs, hv⟩ := ht value
    have hm := List.mem_filter.mpr ⟨hs, hv⟩
    rw [← hy] at hm
    cases hm
  falsy_ne := by
    rintro rfl
    have ⟨s, hs, hv⟩ := ht !value
    have hv : (!s.hasSense value) = true := by
      cases s
      case block => rfl
      case side  => simp_all [LooseEnd.hasSense]
    have hm : s ∈ sides.filter (!·.hasSense value) := List.mem_filter.mpr ⟨hs, hv⟩
    rw [← hn] at hm
    cases hm
  sides x hx := by
    have hl : x.looseEnd p'.graph ∈ sides := by
      cases List.mem_append.mp hx
      case inl hx =>
        have hm : x.looseEnd p'.graph ∈ p'.graph.looseEnds truthy := List.mem_map_of_mem hx
        rw [hy] at hm
        exact (List.mem_filter.mp hm).1
      case inr hx =>
        have hm : x.looseEnd p'.graph ∈ p'.graph.looseEnds falsy := List.mem_map_of_mem hx
        rw [hn] at hm
        exact (List.mem_filter.mp hm).1
    have hs := hk.label_ne_next _ hl
    rwa [Graph.slot_looseEnd] at hs
  underway := by simpa using ha.underway
  keeps    := ha.keeps

variable {header entry : NodeId}

-- The way on from the block before a test is taken.
theorem Splits.exists_entry (h : Splits truthy falsy parked p p')
    (hu : p.graph.Underway (.next header :: parked)) :
    ∃ entry, p'.graph.Leads (header, .next) entry := by
  have ⟨ps, inverted, hn⟩ := hu.exists_block (.head _)
  have hb : p.graph.HasBlock header := ⟨ps, _, inverted, hn⟩
  have ⟨ps', follower?, inverted', hb⟩ := hb.of_grows h.keeps.grows
  have hs : (header, EdgeLabel.next) ∉ (truthy ++ (falsy ++ parked)).map Exit.slot := by
    rw [← List.append_assoc, List.map_append, List.mem_append, not_or]
    refine ⟨fun hm => ?_, fun hm => ?_⟩
    · have ⟨x, hx, he⟩ := List.mem_map.mp hm
      exact h.sides x hx (by rw [he])
    · have ⟨x, hx, he⟩ := List.mem_map.mp hm
      cases x
      case next   => cases he; exact hu.next_not_mem hx
      case branch => cases he
  have ho := h.underway.opens (header, .next)
  rw [List.count_eq_zero.mpr hs] at ho
  cases follower?
  case some entry => exact ⟨entry, by simp [Graph.Leads, Graph.slot?, hb, Node.slot?]⟩
  case none => simp [Graph.slot?, hb, Node.slot?] at ho

-- A loop without a condition can be left, too.
theorem fork_forget_comes {rest : List Exit × List Exit → Walk α} {post : α → Progress → Prop}
    (hu : p.graph.Underway (.next header :: parked))
    (hr : ∀ truthy falsy p', Splits truthy falsy parked p p' →
      Comes t policy dead (rest (truthy, falsy)) p' post) :
    Comes t policy dead (do
      let told ← fork true [.next header]
      (told.1 ++ told.2).forM fun exit => update (·.forget exit.node)
      rest told) p post := by
  let step : Walk (List Exit × List Exit) := do
    let told ← fork true [.next header]
    (told.1 ++ told.2).forM fun exit => update (·.forget exit.node)
    return told
  have hm : Meets step p fun told p' => Splits told.1 told.2 parked p p' := by
    refine fork_forget_meets hu fun truthy falsy sides p' ha hy hn hk => .pure ?_
    refine .of_forks ha hy hn (hk (.refl _)) fun value => (hk (.refl _)).tells (.head _) ?_
    obtain ⟨_, _, hb⟩ := hu.exists_block (.head _)
    change ((Exit.next header).looseEnd p.graph).May value
    rw [Graph.looseEnd_of_block hb]
    trivial
  have hp : Plain Error.IsInternal step :=
    .bind (fork_plain true _) fun told =>
      .bind (forget_plain (told.1 ++ told.2)) fun _ => .pure told
  have hb := (Comes.of_plain hm hp).next fun told p' hs => hr told.1 told.2 p' hs
  simpa [step] using hb

theorem loopEntry_eq (h : p.graph.Leads (header, .next) entry) :
    Visitor.loopEntry header p = .ok (entry, p) := by
  have hn : p.graph.next? header = some entry := by
    have ⟨node, hn, hs⟩ := Option.bind_eq_some_iff.mp h
    cases node <;> simp_all [Node.slot?, Graph.next?]
  unfold Visitor.loopEntry
  rw [get_bind_apply, hn]
  rfl

-- The end of a loop's body leads back to what follows its header.
theorem back_comes (hu : p.graph.Underway (exits ++ parked))
    (hn : p.graph.Leads (header, .next) entry) (he : out.frontier ≠ []) :
    Comes t policy [] (do connectAll exits (← Visitor.loopEntry header); return out) p fun out' _ =>
      out'.frontier ≠ [] := by
  have ⟨h₀, hi⟩ := hu.targets hn
  refine .of_eq (loopEntry_eq hn) ?_
  have hc := connectAll_meets hu h₀ hi
  exact (Comes.of_plain hc (connectAll_plain exits entry)).next fun _ _ _ => .pure he

end Walk

end RoutineFlow.Flow
