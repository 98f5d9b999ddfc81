import RoutineFlow.Proofs.Steps

namespace RoutineFlow.Flow

namespace Graph

variable {g g' : Graph} {id target : NodeId} {ps : List Syntax.Id} {inverted : Bool}
  {parked : List Exit}

theorem ne_nextId (hn : g.node? id = some node) : id ≠ g.nextId := by
  rintro rfl
  exact absurd (lt_size_of_node? hn) (Nat.lt_irrefl _)

-- The graph in which an open block became a condition with a label.
def promoted (g : Graph) (id : NodeId) (ps : List Syntax.Id) (label? : Option Syntax.Id)
    (first : Bool) : Graph :=
  ((g.set id (.block ps none false)).push (.condition label? none none first)).fill (id, .next)
    g.nextId

theorem node?_promoted (hn : g.node? id = some (.block ps none inverted))
    (label? : Option Syntax.Id) (first : Bool) (id' : NodeId) :
    (g.promoted id ps label? first).node? id' =
      if id' = g.nextId then some (.condition label? none none first)
      else if id' = id then some (.block ps (some g.nextId) false)
      else g.node? id' := by
  have hi := lt_size_of_node? hn
  have hne : id ≠ g.nextId := ne_nextId hn
  have hx : (g.set id (.block ps none false)).nextId = g.nextId := by simp [nextId]
  have hs : ((g.set id (.block ps none false)).push (.condition label? none none first)).node? id =
      some (.block ps none false) := by
    rw [node?_push, hx, if_neg hne, node?_set, if_pos ⟨rfl, hi⟩]
  rw [promoted, node?_fill hs, node?_push, hx, node?_set]
  by_cases h₁ : id' = id
  · subst h₁; simp [hne, Node.fill]
  · simp [h₁, Ne.symm h₁]

@[simp]
theorem size_promoted : (g.promoted id ps label? first).size = g.size + 1 := by
  simp [promoted]

theorem set_promoted (hn : g.node? id = some (.block ps none inverted)) :
    (g.promoted id ps label? first).set g.nextId (.condition label?' none none first) =
      g.promoted id ps label?' first := by
  refine ext_node? fun id' => ?_
  rw [node?_set, node?_promoted hn, node?_promoted hn]
  by_cases h : g.nextId = id'
  · simp [← h, show g.nextId.index = g.size from rfl]
  · simp [h, Ne.symm h]

theorem Build.get_bind (f : Graph → Build α) (g : Graph) : (get >>= f) g = f g g :=
  rfl

theorem Build.wire_bind {f : Unit → Build α} (h : g.wire id target = .ok g') :
    (Build.wire id target >>= f) g = f () g' := by
  simp [Build.wire, Build.step, h, bind, ExceptT.bind, ExceptT.mk, StateT.bind, ExceptT.bindCont]

theorem Build.wire_bind_error {f : Unit → Build α} (h : g.wire id target = .error e) :
    (Build.wire id target >>= f) g = (.error e, g) := by
  simp only [Build.wire, Build.step, h, bind, ExceptT.bind, ExceptT.mk, StateT.bind]
  rfl

theorem promote_eq (hn : g.node? id = some (.block ps none inverted)) (wanted : Bool) :
    Build.promote id wanted g =
      (.ok g.nextId, g.promoted id ps ps.getLast? (wanted != inverted)) := by
  let g₁ := g.set id (.block ps none false)
  let g₂ := g₁.push (.condition ps.getLast? none none (wanted != inverted))
  have hx : g₁.nextId = g.nextId := by simp [g₁, nextId]
  have ho : g₂.IsOpen (id, .next) := by
    rw [IsOpen, slot?_push, if_neg (hx ▸ ne_nextId hn), slot?_set hn, if_pos rfl]
    rfl
  have hw : g₂.wire id g₁.nextId = .ok (g₂.fill (id, .next) g₁.nextId) :=
    wire_eq ho (by simp [g₂, nextId])
  rw [Build.promote, Build.get_bind, hn, promoted, ← hx]
  exact Build.wire_bind hw

theorem Underway.promoted (h : g.Underway (.next id :: parked))
    (hn : g.node? id = some (.block ps none inverted)) (label? : Option Syntax.Id)
    (first sense sense' : Bool) :
    (g.promoted id ps label? first).Underway
      (.branch g.nextId .truthy sense :: .branch g.nextId .falsy sense' :: parked) := by
  have hx : (g.set id (.block ps none false)).nextId = g.nextId := by simp [nextId]
  have h' := (h.setBlock hn ps false).pushCondition label? first sense sense'
  rw [hx] at h'
  have hu := h'.reorder (.next id :: .branch g.nextId .truthy sense ::
    .branch g.nextId .falsy sense' :: parked) (by simp [List.count_cons]; omega)
  exact hu.fill h.nextId_ne_zero (by simp [nextId])

theorem Underway.keeps_promoted (h : g.Underway (.next id :: parked))
    (hn : g.node? id = some (.block ps none inverted)) (label? : Option Syntax.Id) (first : Bool) :
    Keeps parked g (g.promoted id ps label? first) := by
  have hx : (g.set id (.block ps none false)).nextId = g.nextId := by simp [nextId]
  have h₁ := h.setBlock hn ps false
  have h₂ := (h₁.pushCondition label? first true false).reorder (.next id ::
    .branch g.nextId .truthy true :: .branch g.nextId .falsy false :: parked)
    (by simp [List.count_cons, hx]; omega)
  apply (h.keeps_setBlock hn List.prefix_rfl false).trans
  refine ((h₁.keeps_push _).mono (by simp)).trans ((h₂.keeps_fill g.nextId).mono ?_)
  exact fun _ hm => .tail _ (.tail _ hm)

theorem forks_promoted (hn : g.node? id = some (.block ps none inverted)) (labelled : Bool)
    (hg : (g.promoted id ps (if labelled then ps.getLast? else none) first).Grows g') :
    g'.Forks labelled g.size (g.looseEnds [.next id]) (g.size + 1)
      [.side g.nextId .truthy !inverted, .side g.nextId .falsy inverted] := by
  have hb : (Exit.next id).looseEnd g = .block id ps.length ps.getLast? inverted :=
    looseEnd_of_block hn
  have hp := node?_promoted hn (if labelled then ps.getLast? else none) first
  have hi := hp id
  rw [if_neg (ne_nextId hn), if_pos rfl] at hi
  have hl : (g.promoted id ps (if labelled then ps.getLast? else none) first).Leads
      (id, .next) g.nextId := by
    simp [Leads, slot?, hi, Node.slot?]
  obtain ⟨_, hc, hgr⟩ := hg ((hp g.nextId).trans (if_pos rfl))
  rw [looseEnds, List.map_singleton, hb]
  have hi' := (hg.node?_of_next hl).trans hi
  cases hgr
  all_goals exact .block ⟨hg.leads hl, by simp [positions, hi', Node.positions]⟩ hc .nil

@[simp]
theorem hasSense_looseEnd (g : Graph) (value : Bool) (x : Exit) :
    (x.looseEnd g).hasSense value = x.hasSense value := by
  cases x
  case next   => simp only [Exit.looseEnd]; split <;> rfl
  case branch => rfl

theorem looseEnds_filter (g : Graph) (value : Bool) (exits : List Exit) :
    g.looseEnds (exits.filter (·.hasSense value)) =
      (g.looseEnds exits).filter (·.hasSense value) := by
  simp [looseEnds, List.filter_map, Function.comp_def]

theorem looseEnds_filter_not (g : Graph) (value : Bool) (exits : List Exit) :
    g.looseEnds (exits.filter (!·.hasSense value)) =
      (g.looseEnds exits).filter (!·.hasSense value) := by
  simp [looseEnds, List.filter_map, Function.comp_def]

theorem looseEnds_append (g : Graph) (exits exits' : List Exit) :
    g.looseEnds (exits ++ exits') = g.looseEnds exits ++ g.looseEnds exits' :=
  List.map_append

end Graph

namespace Walk

variable {p p' : Progress} {exits parked : List Exit} {x : Exit} {id : NodeId}

theorem sides_eq (hn : p.graph.node? id = some (.block ps none inverted)) (wanted : Bool) :
    sides wanted (.next id) p =
      .ok ([.branch p.graph.nextId .truthy !inverted, .branch p.graph.nextId .falsy inverted],
        { p with graph := p.graph.promoted id ps ps.getLast? (wanted != inverted) }) := by
  have hi : p.graph.isInverted id = inverted := by simp [Graph.isInverted, hn]
  have hp := Graph.promote_eq hn wanted
  change (grow (.promote id wanted) >>= fun condition => pure
    [Exit.branch condition .truthy !(p.graph.isInverted id),
      Exit.branch condition .falsy (p.graph.isInverted id)]) p = _
  rw [bind_apply, grow, hp, hi]
  rfl

theorem sides_meets (wanted : Bool) (h : p.graph.Underway (x :: parked)) :
    Meets (sides wanted x) p fun exits p' =>
      Advances exits parked p p' ∧
      ∀ {g}, p'.graph.Grows g → g.Forks true p.graph.size (p.graph.looseEnds [x]) p'.graph.size
        (p'.graph.looseEnds exits) := by
  cases x
  case branch => exact .pure ⟨⟨h, .refl, rfl⟩, fun _ => .side .nil⟩
  case next =>
    have ⟨ps, inverted, hn⟩ := h.exists_block (.head _)
    rw [Meets, sides_eq hn]
    refine ⟨⟨h.promoted hn _ _ _ _, h.keeps_promoted hn _ _, rfl⟩, fun hg => ?_⟩
    simpa [Graph.looseEnds, Exit.looseEnd] using Graph.forks_promoted hn true hg

theorem mapM_sides_meets (wanted : Bool) (h : p.graph.Underway (exits ++ parked)) :
    Meets (exits.mapM (sides wanted)) p fun lists p' =>
      Advances lists.flatten parked p p' ∧
      ∀ {g}, p'.graph.Grows g → g.Forks true p.graph.size (p.graph.looseEnds exits) p'.graph.size
        (p'.graph.looseEnds lists.flatten) := by
  induction exits generalizing p parked
  case nil => exact .pure ⟨⟨h, .refl, rfl⟩, fun _ => .nil⟩
  case cons x xs ih =>
    rw [List.mapM_cons]
    refine (sides_meets wanted h).bind fun ys p₁ ⟨ha₁, hf₁⟩ => ?_
    have hu := ha₁.underway.reorder (xs ++ (ys ++ parked))
      (by simp [List.count_append]; omega)
    refine (ih hu).bind fun zs p₂ ⟨ha₂, hf₂⟩ => ?_
    refine .pure ⟨⟨ha₂.underway.reorder _ ?_, ?_, ?_⟩, fun hg => ?_⟩
    · simp [List.count_append]; omega
    · exact (ha₁.keeps.mono (by simp)).trans (ha₂.keeps.mono (by simp))
    · exact ha₂.unreachable.trans ha₁.unreachable
    · have h₁ := hf₁ (ha₂.keeps.grows.trans hg)
      have h₂ := hf₂ hg
      rw [← ha₂.looseEnds ys (by simp)] at h₁
      rw [ha₁.looseEnds xs (by simp)] at h₂
      rw [List.flatten_cons, Graph.looseEnds_append]
      exact h₁.append h₂

theorem fork_meets (wanted : Bool) (h : p.graph.Underway (exits ++ parked)) :
    Meets (fork wanted exits) p fun (evaluate, skip) p' => ∃ sides,
      Advances (evaluate ++ skip) parked p p' ∧
      p'.graph.looseEnds evaluate = sides.filter (·.hasSense wanted) ∧
      p'.graph.looseEnds skip = sides.filter (!·.hasSense wanted) ∧
      ∀ {g}, p'.graph.Grows g →
        g.Forks true p.graph.size (p.graph.looseEnds exits) p'.graph.size sides := by
  refine (mapM_sides_meets wanted h).bind fun lists p' ⟨ha, hf⟩ => ?_
  rw [List.partition_eq_filter_filter]
  have hp := List.filter_append_perm (·.hasSense wanted) lists.flatten
  refine .pure ⟨_, ⟨ha.underway.reorder _ fun s => ?_, ha.keeps, ha.unreachable⟩,
    Graph.looseEnds_filter .., Graph.looseEnds_filter_not .., hf⟩
  exact ((hp.append_right parked).map Exit.slot).count_eq s

theorem forget_eq (hn : p.graph.node? id = some (.block ps none inverted)) :
    update (·.forget p.graph.nextId) { p with graph := p.graph.promoted id ps label? first } =
      .ok ((), { p with graph := p.graph.promoted id ps none first }) := by
  have hc := Graph.node?_promoted hn label? first p.graph.nextId
  rw [if_pos rfl] at hc
  simp [update, Graph.forget, hc, Graph.set_promoted hn]

theorem forget_all_eq (hn : p.graph.node? id = some (.block ps none inverted)) (he : exits ≠ [])
    (hx : ∀ x ∈ exits, x.node = p.graph.nextId) :
    (exits.forM fun exit => update (·.forget exit.node))
        { p with graph := p.graph.promoted id ps label? first } =
      .ok ((), { p with graph := p.graph.promoted id ps none first }) := by
  induction exits generalizing label?
  case nil => exact absurd rfl he
  case cons x xs ih =>
    change (update (·.forget x.node) >>= fun _ => xs.forM _) _ = _
    rw [bind_apply, hx x (.head _), forget_eq hn]
    by_cases hs : xs = []
    · rw [hs]; rfl
    · exact ih hs fun y hy => hx y (.tail _ hy)

theorem fork_sole_eq (hn : p.graph.node? id = some (.block ps none inverted)) (wanted : Bool) :
    fork wanted [.next id] p =
      .ok ([.branch p.graph.nextId .truthy !inverted,
          .branch p.graph.nextId .falsy inverted].partition (·.hasSense wanted),
        { p with graph := p.graph.promoted id ps ps.getLast? (wanted != inverted) }) := by
  rw [fork, List.mapM_cons, bind_apply, bind_apply, sides_eq hn]
  rfl

-- A fork whose condition is made to forget what it decides on.
theorem fork_forget_apply {rest : List Exit × List Exit → Walk α}
    (hn : p.graph.node? id = some (.block ps none inverted)) :
    (do
      let told ← fork true [.next id]
      (told.1 ++ told.2).forM fun exit => update (·.forget exit.node)
      rest told) p =
    rest ([.branch p.graph.nextId .truthy !inverted,
        .branch p.graph.nextId .falsy inverted].partition (·.hasSense true))
      { p with graph := p.graph.promoted id ps none (true != inverted) } := by
  rw [bind_apply, fork_sole_eq hn]
  change ((_ ++ _ : List Exit).forM _ >>= fun _ => rest _) _ = _
  rw [bind_apply, forget_all_eq hn]
  case he => cases inverted <;> simp [Exit.hasSense]
  case hx => cases inverted <;> simp [Exit.hasSense, Exit.node]
  rfl

theorem fork_forget_meets {rest : List Exit × List Exit → Walk α}
    {post : α → Progress → Prop} (h : p.graph.Underway (.next id :: parked))
    (hr : ∀ evaluate skip sides p', Advances (evaluate ++ skip) parked p p' →
      p'.graph.looseEnds evaluate = sides.filter (·.hasSense true) →
      p'.graph.looseEnds skip = sides.filter (!·.hasSense true) →
      (∀ {g}, p'.graph.Grows g →
        g.Forks false p.graph.size (p.graph.looseEnds [.next id]) p'.graph.size sides) →
      Meets (rest (evaluate, skip)) p' post) :
    Meets (do
      let told ← fork true [.next id]
      (told.1 ++ told.2).forM fun exit => update (·.forget exit.node)
      rest told) p post := by
  have ⟨ps, inverted, hn⟩ := h.exists_block (.head _)
  have hu := h.promoted hn none (true != inverted)
  have hk := h.keeps_promoted hn none (true != inverted)
  have hl {g} (hg : (p.graph.promoted id ps none (true != inverted)).Grows g) :
      g.Forks false p.graph.size (p.graph.looseEnds [.next id])
        (p.graph.promoted id ps none (true != inverted)).size
        [.side p.graph.nextId .truthy !inverted, .side p.graph.nextId .falsy inverted] := by
    rw [Graph.size_promoted]
    exact Graph.forks_promoted hn false hg
  rw [Meets, fork_forget_apply hn]
  cases inverted
  case false => exact hr _ _ _ _ ⟨hu true false, hk, rfl⟩ rfl rfl hl
  case true  =>
    have hu' := (hu false true).reorder (.branch p.graph.nextId .falsy true ::
      .branch p.graph.nextId .truthy false :: parked) (by simp [List.count_cons]; omega)
    exact hr _ _ _ _ ⟨hu', hk, rfl⟩ rfl rfl hl

theorem negate_meets (h : p.graph.Underway (exits ++ parked)) :
    Meets (exits.mapM negate) p fun exits' p' =>
      Advances exits' parked p p' ∧ p'.graph.size = p.graph.size ∧
      p'.graph.looseEnds exits' = (p.graph.looseEnds exits).map .negate := by
  induction exits generalizing p parked
  case nil => exact .pure ⟨⟨h, .refl, rfl⟩, rfl, rfl⟩
  case cons x xs ih =>
    rw [List.mapM_cons]
    cases x
    case next id =>
      obtain ⟨ps, inverted, hn⟩ := h.exists_block (.head _)
      let g' := p.graph.set id (.block ps none !inverted)
      have hk : Graph.Keeps (xs ++ parked) p.graph g' := h.keeps_setBlock hn List.prefix_rfl _
      have hu : g'.Underway (xs ++ .next id :: parked) :=
        (h.setBlock hn ps !inverted).reorder _ (by simp [List.count_cons]; omega)
      have hn' : g'.node? id = some (.block ps none !inverted) := by
        simp [g', Graph.node?_set, Graph.lt_size_of_node? hn]
      have he : negate (.next id) p = .ok (.next id, { p with graph := g' }) := by
        change (update (·.invert id) >>= fun _ => pure (Exit.next id)) p = _
        rw [bind_apply, update, Graph.invert, hn]
        rfl
      refine .of_eq he ((ih hu).bind ?_)
      rintro ys p₂ ⟨ha, hs, hl⟩
      refine .pure ⟨⟨ha.underway.reorder _ ?_, ?_, ha.unreachable⟩, hs.trans (Graph.size_set ..), ?_⟩
      · simp [List.count_cons]; omega
      · exact (hk.mono (by simp)).trans (ha.keeps.mono (by simp))
      · have hx : (Exit.next id).looseEnd p₂.graph = (Exit.next id).looseEnd g' :=
          ha.keeps.looseEnd (.head _)
        simp only [Graph.looseEnds, List.map_cons, hx] at hl ⊢
        rw [hl, Graph.looseEnd_of_block hn, Graph.looseEnd_of_block hn', ← Graph.looseEnds,
          ← Graph.looseEnds, hk.looseEnds xs (by simp)]
        rfl
    case branch id side sense =>
      have hu := h.reorder (xs ++ .branch id side sense :: parked)
        (by simp [List.count_cons]; omega)
      have he : negate (.branch id side sense) p = .ok (.branch id side !sense, p) := rfl
      refine .of_eq he ((ih hu).bind ?_)
      rintro ys p₂ ⟨ha, hs, hl⟩
      refine .pure ⟨⟨ha.underway.reorder _ ?_, ha.keeps.mono (by simp), ha.unreachable⟩, hs, ?_⟩
      · simp [List.count_cons, Exit.slot]; omega
      · exact congrArg _ hl

end Walk
end RoutineFlow.Flow
