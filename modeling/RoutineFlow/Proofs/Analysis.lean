import RoutineFlow.Proofs.Visits

-- What an analysis answers: a graph without an open slot, in which the routine body is laid out
-- between the start node and the end node.

namespace RoutineFlow.Flow

open Syntax (Tree)

variable {t : Tree} {settings : Settings} {scope : Syntax.Id} {p p' : Progress} {out : Outflow}
  {exits parked : List Exit} {g : Graph} {id : NodeId}

-- The end of the start node.
def LooseEnd.first : LooseEnd :=
  .block ⟨0⟩ 0 none false

structure Summary.Draws (s : Summary) (t : Tree) (scope : Syntax.Id) : Prop where
  start    : s.start = ⟨0⟩
  underway : s.graph.Underway []
  finish   : s.graph.node? s.finish = some .finish
  last     : s.finish.index + 1 = s.graph.size
  laid     : ∃ ends left,
    Laid s.graph t (.node scope) 1 [.first] s.finish.index ends left s.unreachable ∧
    ∀ e ∈ ends ++ left, s.graph.Arrives s.finish e

namespace Graph

-- The graph of a body whose block was just placed.
def opened (scope : Syntax.Id) : Graph where
  nodes := #[.start (some ⟨1⟩), .block [scope] none false]

theorem node?_opened (scope : Syntax.Id) (i : Nat) :
    (opened scope).node? ⟨i + 2⟩ = none :=
  rfl

theorem opened_underway (scope : Syntax.Id) : (opened scope).Underway [.next ⟨1⟩] where
  start {id next?} := by
    rcases id with ⟨_ | _ | i⟩
    case zero     => simp [node?, opened, eq_comm]
    case succ.zero => simp [node?, opened]
    case succ.succ => simp [node?_opened]
  targets {s target} hl := by
    rcases s with ⟨⟨_ | _ | i⟩, _ | _ | _⟩ <;>
      simp [Leads, slot?, node?, opened, Node.slot?] at hl
    subst hl
    exact ⟨by decide, Nat.one_lt_two⟩
  opens s := by
    rcases s with ⟨⟨_ | _ | i⟩, _ | _ | _⟩ <;> simp [slot?, node?, opened, Node.slot?, Exit.slot]

-- The first block follows the start node.
theorem gathers_opened (h : (opened scope).Grows g) :
    g.Gathers 1 [.first] 2 (.block ⟨1⟩ 0 none false) := by
  have hl : (opened scope).Leads (⟨0⟩, .next) ⟨1⟩ := rfl
  have hn : g.node? ⟨0⟩ = some (.start (some ⟨1⟩)) := h.node?_of_next hl
  have hb : (opened scope).HasBlock ⟨1⟩ := ⟨_, _, _, rfl⟩
  refine .join nofun ?_ ?_ (hb.of_grows h)
  · rintro node passed last? inverted he ⟨ps, follower?, inverted', hb⟩
    cases he
    rw [hn] at hb
    cases hb
  · intro e he
    cases List.mem_singleton.mp he
    exact ⟨h.leads hl, by simp [positions, hn, Node.positions]⟩

theorem places_opened (h : (opened scope).Grows g) :
    g.Places scope 1 [.first] 2 (.block ⟨1⟩ 1 (some scope) false) := by
  have hp : (opened scope).positions ⟨1⟩ <+: g.positions ⟨1⟩ := h.positions
  have ⟨more, hm⟩ := hp
  apply Places.intro (gathers_opened h)
  rw [← hm]
  rfl

end Graph

namespace Walk

def begun : Progress where
  graph := ({} : Graph).push (.start none)

theorem place_begun (scope : Syntax.Id) :
    place scope { frontier := [.next ⟨0⟩] } begun =
      .ok ({ frontier := [.next ⟨1⟩] }, { graph := .opened scope }) :=
  rfl

-- What is left when every exit leads to the end node.
structure Closes (exits : List Exit) (p : Progress) (finish : NodeId) (p' : Progress) : Prop where
  underway    : p'.graph.Underway []
  grows       : p.graph.Grows p'.graph
  isFinish    : p'.graph.node? finish = some .finish
  isLast      : finish = p.graph.nextId
  size        : p'.graph.size = p.graph.size + 1
  unreachable : p'.unreachable = p.unreachable
  arrives     : ∀ e ∈ p.graph.looseEnds exits, p'.graph.Arrives finish e

theorem connect_finish_meets (h : p.graph.Underway (exits ++ left))
    (hp : p' = { p with graph := p.graph.push .finish }) :
    Meets (connectAll exits p.graph.nextId) p' fun _ p₁ =>
      Meets (connectAll left p.graph.nextId) p₁ fun _ p₂ =>
        Closes (exits ++ left) p p.graph.nextId p₂ := by
  subst hp
  have hu : (p.graph.push .finish).Underway (exits ++ left) :=
    h.push [] nofun (by rintro (_ | _ | _) <;> simp [Node.slot?])
      (by rintro ⟨_, _ | _ | _⟩ <;> simp [Node.slot?])
  have hk := h.keeps_push .finish
  have hi : p.graph.nextId.index < (p.graph.push .finish).size := by simp [Graph.nextId]
  apply (connectAll_meets hu h.nextId_ne_zero hi).mono
  rintro _ p₁ ⟨ha₁, hs₁, hr₁⟩
  have hu₁ : p₁.graph.Underway (left ++ []) := by simpa using ha₁.underway
  have hi₁ : p.graph.nextId.index < p₁.graph.size := by simpa [hs₁] using hi
  apply (connectAll_meets hu₁ h.nextId_ne_zero hi₁).mono
  rintro _ p₂ ⟨ha₂, hs₂, hr₂⟩
  have hg := ha₁.keeps.grows.trans ha₂.keeps.grows
  have hf : (p.graph.push .finish).node? p.graph.nextId = some .finish := by
    rw [Graph.node?_push, if_pos rfl]
  refine ⟨ha₂.underway, hk.grows.trans hg, ?_, rfl, by simp [hs₂, hs₁],
    ha₂.unreachable.trans ha₁.unreachable, fun e he => ?_⟩
  · obtain ⟨_, hf', hg'⟩ := hg hf
    cases hg'
    exact hf'
  · rw [Graph.looseEnds_append] at he
    cases List.mem_append.mp he
    case inl he =>
      apply hr₁ ha₂.keeps.grows e
      rwa [hk.looseEnds exits (by simp)]
    case inr he =>
      apply hr₂ (.refl _) e
      rwa [ha₁.looseEnds left (by simp), hk.looseEnds left (by simp)]

theorem close_meets {rest : NodeId → Walk α} {post : α → Progress → Prop}
    (h : p.graph.Underway (out.frontier ++ out.leaving)) (ht : out.terminates → out.frontier = [])
    (hr : ∀ finish p', Closes (out.frontier ++ out.leaving) p finish p' →
      Meets (rest finish) p' post) :
    Meets (do
      let finish ← grow .finish
      if !out.terminates then
        connectAll out.frontier finish
      connectAll out.leaving finish
      rest finish) p post := by
  have hc := connect_finish_meets h rfl
  have hp : grow .finish p = .ok (p.graph.nextId, { p with graph := p.graph.push .finish }) := rfl
  apply Meets.of_eq hp
  cases hb : out.terminates
  case false =>
    simp only [Bool.not_false, ↓reduceIte]
    exact hc.bind fun _ _ hc => hc.bind fun _ _ => hr _ _
  case true =>
    rw [ht hb] at hc hr
    simp only [Bool.not_true, Bool.false_eq_true, ↓reduceIte]
    exact Meets.bind hc fun _ _ => hr _ _

end Walk

open Walk

theorem visitBody_meets (t : Tree) (settings : Settings) (scope : Syntax.Id) :
    Meets (visitBody t settings scope { frontier := [.next ⟨0⟩] }) begun fun out p =>
      ∃ finish, out.frontier = [.next finish] ∧
        Summary.Draws ⟨p.graph, ⟨0⟩, finish, p.unreachable⟩ t scope := by
  unfold visitBody
  split
  case h_1 => exact .throw (fun h => h)
  case h_3 => exact .throw (fun h => h)
  case h_2 statements isStatic hk =>
    have hs : t.form? scope = some (.block statements) := by
      simp [Tree.form?, hk, Syntax.Kind.form]
    have hv := visit_sound t settings settings.maxDepth
    apply Meets.of_eq (place_begun scope)
    apply (Visitor.sequence_meets hv statements (Graph.opened_underway scope)).bind
    rintro out₁ p₁ ⟨left, dead, hl, ht, hf⟩
    rw [List.nil_append] at hl
    subst hl
    have hu := hf.underway
    rw [List.append_nil] at hu
    have ht' := ht (absurd · Bool.false_ne_true)
    refine close_meets hu ht' fun finish p₂ hc => .pure ⟨finish, rfl, ?_⟩
    have ha := hc.arrives
    rw [Graph.looseEnds_append] at ha
    have hl : finish.index = p₁.graph.size := by rw [hc.isLast]; rfl
    refine ⟨rfl, hc.underway, hc.isFinish, ?_, _, _, ?_, ha⟩
    · rw [hl, hc.size]
    · rw [hl, hc.unreachable, hf.unreachable]
      exact .block hs (Graph.places_opened (hf.keeps.grows.trans hc.grows)) (hf.laid hc.grows)

theorem walkBody_meets (t : Tree) (settings : Settings) (scope : Syntax.Id) :
    Meets (walkBody t settings scope) {} fun (start, finish) p =>
      Summary.Draws ⟨p.graph, start, finish, p.unreachable⟩ t scope := by
  have hp : grow .start {} = .ok (⟨0⟩, begun) := rfl
  refine .of_eq hp ((visitBody_meets t settings scope).bind fun out p ⟨finish, he, hd⟩ => ?_)
  have hf : p.graph.node? finish = some .finish := hd.finish
  rw [he]
  apply Meets.get_bind
  simp only [hf, ↓reduceIte]
  exact .pure hd

theorem analyze_draws (t : Tree) (settings : Settings) (scope : Syntax.Id) :
    match analyze t settings scope with
    | .ok s    => s.Draws t scope
    | .error e => ¬e.IsInternal := by
  have h := walkBody_meets t settings scope
  unfold Meets at h
  unfold analyze StateT.run
  split at h
  case h_1 he => rw [he]; exact h
  case h_2 he => rw [he]; exact h

theorem draws_of_analyze (h : analyze t settings scope = .ok s) : s.Draws t scope := by
  have hd := analyze_draws t settings scope
  rwa [h] at hd

theorem exists_of_isSome (h : (analyze t settings scope).toOption.isSome) :
    ∃ s, analyze t settings scope = .ok s := by
  cases hs : analyze t settings scope
  case ok s    => exact ⟨s, rfl⟩
  case error e => simp [hs, Except.toOption] at h

end RoutineFlow.Flow
