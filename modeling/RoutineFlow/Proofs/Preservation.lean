import RoutineFlow.Proofs.Constructs
import RoutineFlow.Proofs.Paths

-- The meaning of a routine body is preserved in its graph. With any list of answers the graph asks
-- what the body asks and comes to the same end; without loops it comes by every position in the
-- order in which the body places them.

namespace RoutineFlow.Flow

open Syntax (Tree Kind searching fetching)
open Meaning

variable {t : Tree} {settings : Settings} {scope : Syntax.Id} {s : Summary} {list : Bool}
  {feed : Feed} {run : Except Stop Unit × Log}

namespace Summary

-- The graph decides as a run does, in this way only.
structure Decides (s : Summary) (feed : Feed) (run : Except Stop Unit × Log) : Prop where
  runs : ∃ outcome ns, outcome? run.1 = some outcome ∧
    s.Runs feed ns (decisions run.2.events) outcome run.2.feed
  only : s.Runs feed ns ds outcome feed' →
    outcome? run.1 = some outcome ∧ ds = decisions run.2.events ∧ feed' = run.2.feed

-- The graph gets to its end, as a run does, and comes by the positions that the run places.
structure Executes (s : Summary) (feed : Feed) (run : Except Stop Unit × Log) : Prop where
  finished : outcome? run.1 = some .finished
  runs     : ∃ ns, s.Runs feed ns (decisions run.2.events) .finished run.2.feed ∧
    ns.flatMap s.graph.positions = placements run.2.events
  only     : s.Runs feed ns ds outcome feed' →
    outcome = .finished ∧ ns.flatMap s.graph.positions = placements run.2.events

namespace Draws

theorem sim (hd : s.Draws t scope) (hw : t.WellShaped) (hc : t.Throughout scope (!·.isUntested))
    (hn : list = false → t.Throughout scope (!·.isLoop)) :
    Sim s.graph list (.within s.start 0) (ofNode t scope).run (fun _ _ s' => s' = .within s.finish 0)
      (· = .within s.finish 0) := by
  have ⟨ends, left, hl, ha⟩ := hd.laid
  have hs := hl.simulates hw hc hn (List.forall_mem_singleton.mpr .scope)
  have hf {es s'} (he : es ⊆ ends ++ left) (h : AtEnd es s') :
      s.graph.Silent s' (.within s.finish 0) := by
    have ⟨e, hm, he'⟩ := h
    subst he'
    exact (ha e (he hm)).silent
  rw [hd.start]
  exact (hs.run ⟨_, .head _, rfl⟩).onto
    (fun _ _ _ h => ⟨_, rfl, hf (List.subset_append_left ..) h⟩)
    fun _ h => ⟨_, rfl, hf (List.subset_append_right ..) h⟩

-- What a walk does, seen node by node.
theorem runs (hd : s.Draws t scope)
    (h : Ends s.graph list (.within s.start 0) { feed } (fun _ _ s' => s' = .within s.finish 0)
      (· = .within s.finish 0) run) :
    ∃ outcome ns es, outcome? run.1 = some outcome ∧ (list = false → outcome = .finished) ∧
      s.Runs feed ns (decisions es) outcome run.2.feed ∧ Agree list run.2.events es ∧
      placements es = ns.flatMap s.graph.positions := by
  rcases run with ⟨(_ | on? | _) | _, log⟩
  case error.jump =>
    have ⟨es, s', he, ht⟩ := h
    have ⟨ns, hp, hs⟩ := (ht.walks.onward he).path
    exact ⟨_, ns, es, rfl, fun _ => rfl, ⟨_, hp, hd.finish⟩, ht.events, hs⟩
  case error.starved =>
    have ⟨hl, hn, es, n, ha, ht⟩ := h
    have ⟨ns, hp, hs⟩ := (ht.walks.onward rfl).path
    exact ⟨_, ns, es, rfl, by simp [hl], ⟨_, hp, ha, hn⟩, ht.events, hs⟩
  case error.endless => exact h.elim
  case ok =>
    have ⟨es, s', he, ht⟩ := h
    have ⟨ns, hp, hs⟩ := (ht.walks.onward he).path
    exact ⟨_, ns, es, rfl, fun _ => rfl, ⟨_, hp, hd.finish⟩, ht.events, hs⟩

end Draws
end Summary

theorem analyze_decides (hw : t.WellShaped) (hc : t.Throughout scope (!·.isUntested))
    (h : analyze t settings scope = .ok s) (bs : List Bool) :
    s.Decides (.answers bs) (ofBody t scope (.answers bs)) := by
  have hd := draws_of_analyze h
  have hs : Sim s.graph true .. := hd.sim hw hc nofun
  have ⟨_, _, _, ho, _, hr, he, _⟩ := hd.runs (@hs { feed := .answers bs } rfl)
  rw [← he.1] at hr
  refine ⟨⟨_, _, ho, hr⟩, fun hr' => ?_⟩
  have ⟨_, hds, ho', hf⟩ := hr'.unique hr
  exact ⟨ho' ▸ ho, hds, hf⟩

theorem analyze_decides_searching :
    searching.2.WellShaped ∧ searching.2.Throughout searching.1 (!·.isUntested) ∧
    ∃ s, analyze searching.2 {} searching.1 = .ok s ∧
      s.Decides (.answers [true, false, false, true, true])
        (ofBody searching.2 searching.1 (.answers [true, false, false, true, true])) := by
  have hw : searching.2.WellShaped := by decide +kernel
  have hc : searching.2.Throughout searching.1 (!·.isUntested) :=
    Tree.throughout_of_all (by decide +kernel)
  have ⟨s, h⟩ : ∃ s, analyze searching.2 {} searching.1 = .ok s :=
    exists_of_isSome (by decide +kernel)
  exact ⟨hw, hc, s, h, analyze_decides hw hc h _⟩

theorem analyze_executes (hw : t.WellShaped) (hn : t.Throughout scope (!·.isLoop))
    (h : analyze t settings scope = .ok s) (w : Syntax.Id → Bool) :
    s.Executes (.assignment w) (ofBody t scope (.assignment w)) := by
  have hd := draws_of_analyze h
  have hc : t.Throughout scope (!·.isUntested) := hn.mono fun kind hl => by
    cases hu : kind.isUntested
    case false => rfl
    case true  => simp [Kind.isLoop_of_isUntested hu] at hl
  have hs : Sim s.graph false .. := hd.sim hw hc fun _ => hn
  have ⟨o, _, _, ho, hf, hr, he, hp⟩ := hd.runs (@hs { feed := .assignment w } rfl)
  cases hf rfl
  cases he.2 rfl
  refine ⟨ho, ⟨_, hr, hp.symm⟩, fun hr' => ?_⟩
  have ⟨hns, _, ho', _⟩ := hr'.unique hr
  exact ⟨ho', hns ▸ hp.symm⟩

theorem analyze_executes_fetching :
    fetching.2.WellShaped ∧ fetching.2.Throughout fetching.1 (!·.isLoop) ∧
    ∃ s, analyze fetching.2 {} fetching.1 = .ok s ∧
      s.Executes (.assignment (·.index = 1))
        (ofBody fetching.2 fetching.1 (.assignment (·.index = 1))) := by
  have hw : fetching.2.WellShaped := by decide +kernel
  have hn : fetching.2.Throughout fetching.1 (!·.isLoop) :=
    Tree.throughout_of_all (by decide +kernel)
  have ⟨s, h⟩ : ∃ s, analyze fetching.2 {} fetching.1 = .ok s :=
    exists_of_isSome (by decide +kernel)
  exact ⟨hw, hn, s, h, analyze_executes hw hn h _⟩

end RoutineFlow.Flow
