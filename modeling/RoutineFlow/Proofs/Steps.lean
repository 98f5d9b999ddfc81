import RoutineFlow.Flow.Rules
import RoutineFlow.Proofs.Layout
import RoutineFlow.Proofs.Underway

-- What the steps of a walk do to the graph under construction, and how the result lies in any graph
-- that it grows into. A step may fail because of the program it looks at, never because a slot or a
-- node is not as it should be.

namespace RoutineFlow.Flow

-- Errors that say that the walk itself went wrong.
def Error.IsInternal : Error → Prop
  | edgeQuotaExceeded .. | notPromotable _ | unknownFlowNode _ | unterminated => True
  | _ => False

namespace Walk

variable {p p' p₁ p₂ : Progress} {exits exits' parked : List Exit} {x : Exit}

def Meets (step : Walk α) (p : Progress) (post : α → Progress → Prop) : Prop :=
  match step p with
  | .ok (a, p') => post a p'
  | .error e    => ¬e.IsInternal

theorem bind_apply (step : Walk α) (f : α → Walk β) (p : Progress) :
    (step >>= f) p = step p >>= fun (a, p') => f a p' :=
  rfl

theorem get_bind_apply (f : Progress → Walk α) (p : Progress) : (get >>= f) p = f p p :=
  rfl

namespace Meets

theorem pure {post : α → Progress → Prop} (h : post a p) : Meets (pure a) p post :=
  h

theorem throw {e : Error} {post : α → Progress → Prop} (h : ¬e.IsInternal) :
    Meets (throw e) p post :=
  h

theorem mono {step : Walk α} {post post' : α → Progress → Prop} (h : Meets step p post)
    (hp : ∀ a p', post a p' → post' a p') : Meets step p post' := by
  unfold Meets at h ⊢
  split at h
  case h_1 => exact hp _ _ h
  case h_2 => exact h

theorem bind {step : Walk α} {f : α → Walk β} {post : α → Progress → Prop}
    {post' : β → Progress → Prop} (h : Meets step p post)
    (hf : ∀ a p', post a p' → Meets (f a) p' post') : Meets (step >>= f) p post' := by
  unfold Meets at h
  split at h
  case h_1 he => rw [Meets, bind_apply, he]; exact hf _ _ h
  case h_2 he => rw [Meets, bind_apply, he]; exact h

theorem get_bind {f : Progress → Walk α} {post : α → Progress → Prop} (h : Meets (f p) p post) :
    Meets (get >>= f) p post :=
  h

theorem of_eq {step : Walk α} {f : α → Walk β} {a : α} {post : β → Progress → Prop}
    (h : step p = .ok (a, p')) (hf : Meets (f a) p' post) : Meets (step >>= f) p post := by
  rw [Meets, bind_apply, h]
  exact hf

end Meets

-- What a step leaves behind that turned some exits into `exits` and left those of `parked` alone.
structure Advances (exits parked : List Exit) (p p' : Progress) : Prop where
  underway    : p'.graph.Underway (exits ++ parked)
  keeps       : Graph.Keeps parked p.graph p'.graph
  unreachable : p'.unreachable = p.unreachable

end Walk

namespace Graph

variable {g g' : Graph} {x : Exit} {parked exits : List Exit} {id target : NodeId}

theorem Keeps.looseEnd (h : Keeps parked g g') (hx : x ∈ parked) :
    x.looseEnd g' = x.looseEnd g := by
  cases x
  case next   => simp only [Exit.looseEnd, h.same hx]
  case branch => rfl

theorem Keeps.looseEnds (h : Keeps parked g g') (exits : List Exit) (hx : exits ⊆ parked) :
    g'.looseEnds exits = g.looseEnds exits :=
  List.map_congr_left fun _ hm => h.looseEnd (hx hm)

@[simp]
theorem slot_looseEnd (g : Graph) (x : Exit) : (x.looseEnd g).slot = x.slot := by
  cases x
  case next   => simp only [Exit.looseEnd]; split <;> rfl
  case branch => rfl

theorem looseEnd_of_block (h : g.node? id = some (.block ps follower? inverted)) :
    (Exit.next id).looseEnd g = .block id ps.length ps.getLast? inverted := by
  simp only [Exit.looseEnd, h]

theorem HasBlock.of_grows (hb : g.HasBlock id) (h : g.Grows g') : g'.HasBlock id := by
  have ⟨_, _, _, hn⟩ := hb
  have ⟨_, hn', hg⟩ := h hn
  cases hg <;> exact ⟨_, _, _, hn'⟩

theorem positions_eq (h : g.node? id = some node) : g.positions id = node.positions := by
  simp [positions, h]

theorem Grows.positions (h : g.Grows g') : g.positions id <+: g'.positions id := by
  unfold Graph.positions
  cases hn : g.node? id
  case none => exact List.nil_prefix
  case some =>
    have ⟨_, hn', hg⟩ := h hn
    rw [hn']
    cases hg
    case block h => exact h
    all_goals exact List.prefix_rfl

theorem Arrives.of_fill (ho : g.IsOpen x.slot) (h : (g.fill x.slot target).Grows g') :
    g'.Arrives target (x.looseEnd g) := by
  have hl : (g.fill x.slot target).Leads x.slot target := by simp [Leads, slot?_fill ho]
  have ⟨node, hn, hs⟩ := exists_node?_of_isOpen ho
  cases x
  case branch => exact h.leads hl
  case next id =>
    have hp : g'.node? id = some (node.fill target .next) := by
      rw [h.node?_of_next hl]
      exact (node?_fill hn target id).trans (if_pos rfl)
    simp only [Exit.looseEnd, show g.node? id = some node from hn]
    cases node
    case start => exact ⟨h.leads hl, by simp [positions, hp, Node.fill, Node.positions]⟩
    case block => exact ⟨h.leads hl, by simp [positions, hp, Node.fill, Node.positions]⟩
    all_goals simp [Exit.slot, Node.slot?] at hs

theorem wire_eq (h : g.IsOpen (id, .next)) (ht : target.index < g.size) :
    g.wire id target = .ok (g.fill (id, .next) target) := by
  have ⟨_, ht⟩ := Option.isSome_iff_exists.mp (node?_isSome_iff.mpr ht)
  have ⟨node, hn, hs⟩ := exists_node?_of_isOpen h
  cases node <;>
    simp only [Node.slot?, Option.some.injEq, reduceCtorEq] at hs hn <;> subst hs <;>
    simp [wire, ht, hn, fill, Node.fill]

theorem wireBranch_eq (h : g.IsOpen (id, .branch side)) (ht : target.index < g.size) :
    g.wireBranch id side target = .ok (g.fill (id, .branch side) target) := by
  have ⟨_, ht⟩ := Option.isSome_iff_exists.mp (node?_isSome_iff.mpr ht)
  have ⟨node, hn, hs⟩ := exists_node?_of_isOpen h
  cases node <;> cases side <;>
    simp only [Node.slot?, Option.some.injEq, reduceCtorEq] at hs hn <;> subst hs <;>
    simp [wireBranch, ht, hn, fill, Node.fill]

theorem Forks.append {ends ends' sides sides' : List LooseEnd}
    (h : g.Forks labelled lo ends mid sides) (h' : g.Forks labelled mid ends' hi sides') :
    g.Forks labelled lo (ends ++ ends') hi (sides ++ sides') := by
  induction h
  case nil             => exact h'
  case side ih         => exact .side (ih h')
  case block ha hn _ ih => exact .block ha hn (ih h')

end Graph

namespace Walk

variable {p p' p₁ p₂ : Progress} {exits exits' parked : List Exit} {x : Exit} {id target : NodeId}

namespace Advances

theorem looseEnds (h : Advances exits parked p p') (exits' : List Exit) (hx : exits' ⊆ parked) :
    p'.graph.looseEnds exits' = p.graph.looseEnds exits' :=
  h.keeps.looseEnds exits' hx

end Advances

theorem connect_eq (h : p.graph.IsOpen x.slot) (ht : target.index < p.graph.size) :
    connect target x p = .ok ((), { p with graph := p.graph.fill x.slot target }) := by
  cases x
  case next   => simp [connect, update, Graph.wire_eq h ht, Exit.slot]
  case branch => simp [connect, update, Graph.wireBranch_eq h ht, Exit.slot]

theorem connectAll_meets (h : p.graph.Underway (exits ++ parked)) (h₀ : target ≠ ⟨0⟩)
    (ht : target.index < p.graph.size) :
    Meets (connectAll exits target) p fun _ p' =>
      Advances [] parked p p' ∧ p'.graph.size = p.graph.size ∧
      ∀ {g}, p'.graph.Grows g → ∀ e ∈ p.graph.looseEnds exits, g.Arrives target e := by
  induction exits generalizing p
  case nil => exact ⟨⟨h, .refl, rfl⟩, rfl, nofun⟩
  case cons x xs ih =>
    have ho := h.isOpen (.head _)
    have hk := h.keeps_fill target
    change Meets (connect target x >>= fun _ => connectAll xs target) p _
    apply Meets.of_eq (connect_eq ho ht)
    refine ih (h.fill h₀ ht) (by simpa using ht) |>.mono fun _ p' ⟨ha, hs, hl⟩ => ?_
    refine ⟨⟨ha.underway, (hk.mono (by simp)).trans ha.keeps, ha.unreachable⟩, by simpa using hs, ?_⟩
    intro g hg e he
    cases List.mem_cons.mp he
    case inl he => exact he ▸ .of_fill ho (ha.keeps.grows.trans hg)
    case inr he => exact hl hg e (by rwa [hk.looseEnds xs (by simp)])

theorem soleBlock?_eq_some_iff {g : Graph} :
    soleBlock? g exits = some id ↔ exits = [.next id] ∧ g.HasBlock id := by
  constructor
  case mp =>
    intro h
    unfold soleBlock? at h
    split at h
    case h_1 =>
      split at h
      case isTrue hb =>
        cases h
        have ⟨node, hn, hb⟩ := (Option.any_eq_true _ _).mp hb
        cases node <;> simp_all [Node.isBlock, Graph.HasBlock]
      case isFalse => cases h
    case h_2 => cases h
  case mpr =>
    rintro ⟨rfl, _, _, _, hn⟩
    simp [soleBlock?, hn, Node.isBlock]

theorem join_meets (h : p.graph.Underway (exits ++ parked)) :
    Meets (do let block ← grow .freshBlock; connectAll exits block; return block) p fun id p' =>
      id = p.graph.nextId ∧ Advances [.next id] parked p p' ∧ p'.graph.size = p.graph.size + 1 ∧
      (Exit.next id).looseEnd p'.graph = .block id 0 none false ∧
      ∀ {g}, p'.graph.Grows g → g.HasBlock id ∧ ∀ e ∈ p.graph.looseEnds exits, g.Arrives id e := by
  have hu := h.pushBlock.reorder (exits ++ .next p.graph.nextId :: parked)
    (by simp [List.count_cons]; omega)
  have hk := h.keeps_push (.block [] none false)
  have he : grow .freshBlock p = .ok (p.graph.nextId,
    { p with graph := p.graph.push (.block [] none false) }) := rfl
  apply Meets.of_eq he
  apply (connectAll_meets hu h.nextId_ne_zero (by simp [Graph.nextId])).bind
  rintro _ p' ⟨ha, hs, hl⟩
  have hn : p'.graph.node? p.graph.nextId = some (.block [] none false) := by
    rw [ha.keeps.same (.head _), Graph.node?_push, if_pos rfl]
  refine .pure ⟨rfl, ⟨ha.underway, ?_, ha.unreachable⟩, by simpa using hs,
    Graph.looseEnd_of_block hn, fun hg => ⟨.of_grows ⟨_, _, _, hn⟩ hg, fun e he => hl hg e ?_⟩⟩
  · exact (hk.mono (by simp)).trans (ha.keeps.mono (by simp))
  · exact hk.looseEnds exits (by simp) ▸ he

theorem grow_block_eq (id : NodeId) :
    grow (.block id) = do
      let block ← grow .freshBlock
      connectAll [.next id] block
      return block := by
  funext p
  let g := p.graph.push (.block [] none false)
  have hl : Graph.Build.block id p.graph =
      (Graph.Build.wire id p.graph.nextId >>= fun _ => pure p.graph.nextId : Graph.Build NodeId) g :=
    rfl
  have hr : (grow .freshBlock >>= fun block =>
        connectAll [.next id] block >>= fun _ => pure block) p =
      ((update (·.wire id p.graph.nextId) >>= pure) >>= fun _ => pure p.graph.nextId)
        { p with graph := g } :=
    rfl
  rw [grow, hl, hr]
  simp only [update, bind, ExceptT.bind, ExceptT.mk, StateT.bind, Graph.Build.wire,
    Graph.Build.step]
  cases g.wire id p.graph.nextId <;> rfl

theorem gather_meets (position : Syntax.Id) (h : p.graph.Underway (exits ++ parked)) :
    Meets (gather position exits) p fun id p' =>
      Advances [.next id] parked p p' ∧
      ∀ {g}, p'.graph.Grows g → g.Gathers p.graph.size (p.graph.looseEnds exits) p'.graph.size
        ((Exit.next id).looseEnd p'.graph) := by
  apply Meets.get_bind
  split
  case h_1 id hs =>
    obtain ⟨rfl, hb⟩ := soleBlock?_eq_some_iff.mp hs
    refine .pure ⟨⟨h, .refl, rfl⟩, fun hg => ?_⟩
    have ⟨_, _, _, hn⟩ := hb
    simp only [Graph.looseEnds, List.map_cons, List.map_nil, Graph.looseEnd_of_block hn]
    exact .sole (hb.of_grows hg)
  case h_2 hs =>
    split
    case isTrue => exact .throw id
    case isFalse he =>
      refine (join_meets h).mono fun id p' ⟨hi, ha, hs', hl, hf⟩ => ⟨ha, fun {g} hg => ?_⟩
      have ⟨hb, hr⟩ := hf hg
      subst hi
      rw [hl, hs']
      refine .join (by simpa [Graph.looseEnds] using he) ?_ hr hb
      intro node passed last? inverted hm _
      obtain ⟨x, rfl, hx⟩ := List.map_eq_singleton_iff.mp hm
      cases x
      case branch => cases hx
      case next id =>
        have ⟨_, _, hn⟩ := h.exists_block (.head _)
        exact absurd (soleBlock?_eq_some_iff.mpr ⟨rfl, _, _, _, hn⟩) (by simp [hs])

theorem gather_sole_eq (position : Syntax.Id) (h : p.graph.Underway (.next id :: parked)) :
    gather position [.next id] p = .ok (id, p) := by
  obtain ⟨ps, inverted, hn⟩ := h.exists_block (.head _)
  have hs := soleBlock?_eq_some_iff.mpr ⟨rfl, ps, none, inverted, hn⟩
  unfold gather
  rw [get_bind_apply, hs]
  rfl

theorem place_meets {out : Outflow} (position : Syntax.Id)
    (h : p.graph.Underway (out.frontier ++ parked)) :
    Meets (place position out) p fun out' p' => ∃ id,
      out' = { out with frontier := [.next id], terminates := false } ∧
      Advances [.next id] parked p p' ∧
      ∀ {g}, p'.graph.Grows g → g.Places position p.graph.size (p.graph.looseEnds out.frontier)
        p'.graph.size ((Exit.next id).looseEnd p'.graph) := by
  refine (gather_meets position h).bind fun id p₁ ⟨ha, hl⟩ => ?_
  have ⟨ps, inverted, hn⟩ := ha.underway.exists_block (.head _)
  let g' := p₁.graph.set id (.block (ps ++ [position]) none false)
  have hk : Graph.Keeps parked p₁.graph g' :=
    ha.underway.keeps_setBlock hn (List.prefix_append _ _) false
  have hn' : g'.node? id = some (.block (ps ++ [position]) none false) := by
    simp [g', Graph.node?_set, Graph.lt_size_of_node? hn]
  have he : update (·.record id position) p₁ = .ok ((), { p₁ with graph := g' }) := by
    simp [update, Graph.record, hn, g']
  apply Meets.of_eq he
  refine .pure ⟨id, rfl, ⟨ha.underway.setBlock hn _ _, ha.keeps.trans hk, ha.unreachable⟩,
    fun {g} hg => ?_⟩
  have hl' := hl (hk.grows.trans hg)
  rw [Graph.looseEnd_of_block hn] at hl'
  rw [Graph.looseEnd_of_block hn', List.length_append, List.getLast?_concat,
    show g'.size = _ from Graph.size_set ..]
  apply Graph.Places.intro hl'
  have hp : g'.positions id <+: g.positions id := Graph.Grows.positions hg
  rw [Graph.positions_eq hn'] at hp
  have ⟨more, hm⟩ := hp
  simp [← hm, Node.positions]

theorem loopEntry_meets (header : NodeId) :
    Meets (Visitor.loopEntry header) p fun entry p' =>
      p' = p ∧ p.graph.Leads (header, .next) entry := by
  apply Meets.get_bind
  split
  case h_2 => exact .throw id
  case h_1 entry he =>
    refine .pure ⟨rfl, ?_⟩
    unfold Graph.next? at he
    rw [Graph.Leads, Graph.slot?]
    split at he
    case h_3 => cases he
    all_goals simp_all [Node.slot?]

end Walk
end RoutineFlow.Flow
