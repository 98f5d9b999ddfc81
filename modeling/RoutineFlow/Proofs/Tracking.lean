import RoutineFlow.Proofs.Walks

-- When a walk through a graph does what a script does. With answers from a list, loops are allowed
-- and only the decisions have to agree; with an assignment, everything that happens has to.

namespace RoutineFlow.Flow

open Meaning

variable {g : Graph} {list : Bool} {s s' s₁ s₂ : Spot} {log log' log₁ log₂ : Log}
  {es es' es₁ es₂ : List Event} {jumped jumped' : Spot → Prop}

-- Whether two courses of events are the same to an observer.
def Agree (list : Bool) (es es' : List Event) : Prop :=
  decisions es = decisions es' ∧ (list = false → es = es')

namespace Agree

theorem refl : Agree list es es :=
  ⟨rfl, fun _ => rfl⟩

theorem trans (h : Agree list es es₁) (h' : Agree list es₁ es₂) : Agree list es es₂ :=
  ⟨h.1.trans h'.1, fun hl => (h.2 hl).trans (h'.2 hl)⟩

theorem append (h : Agree list es es') (es₁ : List Event) :
    Agree list (es ++ es₁) (es' ++ es₁) := by
  refine ⟨?_, fun hl => by rw [h.2 hl]⟩
  rw [decisions_append, decisions_append, h.1]

theorem of_decisions (h : Agree true es (es₁ ++ es₂)) (hd : decisions es' = decisions es₂) :
    Agree true es (es₁ ++ es') := by
  refine ⟨?_, nofun⟩
  rw [h.1, decisions_append, decisions_append, hd]

end Agree

-- A walk that accounts for what happened between two logs.
structure Tracks (g : Graph) (list : Bool) (s : Spot) (log : Log) (es : List Event) (s' : Spot)
    (log' : Log) : Prop where
  walks  : g.Walks s log.feed es s' log'.feed
  events : Agree list log'.events (log.events ++ es)

namespace Tracks

theorem stay : Tracks g list s log [] s log :=
  ⟨.stay, by rw [List.append_nil]; exact .refl⟩

theorem trans (h : Tracks g list s log es₁ s₁ log₁) (h' : Tracks g list s₁ log₁ es₂ s₂ log₂) :
    Tracks g list s log (es₁ ++ es₂) s₂ log₂ := by
  refine ⟨h.walks.trans h'.walks, ?_⟩
  rw [← List.append_assoc]
  exact h'.events.trans (h.events.append es₂)

theorem silent (h : Tracks g list s log es s₁ log₁) (hs : g.Silent s₁ s') :
    Tracks g list s log es s' log₁ := by
  have ht := h.trans ⟨hs log₁.feed, by rw [List.append_nil]; exact .refl⟩
  rwa [List.append_nil] at ht

end Tracks

-- Where a walk from `s` gets by the time a script is over: to a spot that suits the result, to one
-- where a jump leaves off, or to a condition that gets no answer.
def Ends (g : Graph) (list : Bool) (s : Spot) (log : Log) (post : α → List Event → Spot → Prop)
    (jumped : Spot → Prop) : Except Stop α × Log → Prop
  | (.ok a, log')                 => ∃ es s', post a es s' ∧ Tracks g list s log es s' log'
  | (.error .jump, log')          => ∃ es s', jumped s' ∧ Tracks g list s log es s' log'
  | (.error (.starved on?), log') => list = true ∧ log'.feed.next? on? = none ∧
    ∃ es n, g.Asks n on? ∧ Tracks g list s log es (.within n 0) log'
  | (.error .endless, _)          => False

theorem Ends.after {post : α → List Event → Spot → Prop} {r : Except Stop α × Log}
    (h : Tracks g list s log es s₁ log₁)
    (h' : Ends g list s₁ log₁ (fun a es' => post a (es ++ es')) jumped r) :
    Ends g list s log post jumped r := by
  rcases r with ⟨(_ | on? | _) | _, _⟩
  case error.jump =>
    have ⟨_, s', hj, ht⟩ := h'
    exact ⟨_, s', hj, h.trans ht⟩
  case error.starved =>
    have ⟨hl, hn, _, n, ha, ht⟩ := h'
    exact ⟨hl, hn, _, n, ha, h.trans ht⟩
  case error.endless => exact h'
  case ok =>
    have ⟨_, s', hp, ht⟩ := h'
    exact ⟨_, s', hp, h.trans ht⟩

-- What was reached may be left again, as long as there is nothing to be seen.
theorem Ends.onto {post post' : α → List Event → Spot → Prop} {r : Except Stop α × Log}
    (h : Ends g list s log post jumped r)
    (hp : ∀ a es s', post a es s' → ∃ s'', post' a es s'' ∧ g.Silent s' s'')
    (hj : ∀ s', jumped s' → ∃ s'', jumped' s'' ∧ g.Silent s' s'') :
    Ends g list s log post' jumped' r := by
  rcases r with ⟨(_ | on? | _) | _, _⟩
  case error.jump =>
    have ⟨es, s', hj', ht⟩ := h
    have ⟨s'', hj'', hs⟩ := hj s' hj'
    exact ⟨es, s'', hj'', ht.silent hs⟩
  case error.starved => exact h
  case error.endless => exact h
  case ok =>
    have ⟨es, s', hp', ht⟩ := h
    have ⟨s'', hp'', hs⟩ := hp _ _ s' hp'
    exact ⟨es, s'', hp'', ht.silent hs⟩

def Sim (g : Graph) (list : Bool) (s : Spot) (script : Script α)
    (post : α → List Event → Spot → Prop) (jumped : Spot → Prop) : Prop :=
  ∀ ⦃log : Log⦄, log.feed.isList = list → Ends g list s log post jumped (script log)

theorem Script.bind_apply (script : Script α) (f : α → Script β) (log : Log) :
    (script >>= f) log =
      match script log with
      | (.ok a, log')    => f a log'
      | (.error e, log') => (.error e, log') := by
  simp only [bind, ExceptT.bind, ExceptT.mk, StateT.bind]
  rcases script log with ⟨_ | _, _⟩ <;> rfl

theorem Script.ask_apply (on? : Option Syntax.Id) (log : Log) :
    Script.ask on? log =
      match log.feed.next? on? with
      | some (b, feed) => (.ok b, { feed, events := log.events ++ [.asked on? b] })
      | none           => (.error (.starved on?), log) := by
  rw [Script.ask, Script.bind_apply]
  change (match log.feed.next? on? with | some (b, feed) => _ | none => _ : Script Bool) log = _
  cases log.feed.next? on? <;> rfl

namespace Sim

variable {script : Script α} {f : α → Script β} {post post' : α → List Event → Spot → Prop}
  {i : Syntax.Id} {n : NodeId} {k : Nat}

theorem pure {a : α} (h : post a [] s) : Sim g list s (Pure.pure a) post jumped :=
  fun _ _ => ⟨[], s, h, .stay⟩

theorem bind {post' : β → List Event → Spot → Prop} (h : Sim g list s script post jumped)
    (hf : ∀ a es s', post a es s' →
      Sim g list s' (f a) (fun b es' s'' => post' b (es ++ es') s'') jumped) :
    Sim g list s (script >>= f) post' jumped := by
  intro log hl
  have h := h hl
  rw [Script.bind_apply]
  rcases hr : script log with ⟨_ | a, log₁⟩
  case error =>
    rw [hr] at h
    rename_i stop
    cases stop <;> exact h
  case ok =>
    rw [hr] at h
    have ⟨es, s₁, hp, ht⟩ := h
    exact (hf a es s₁ hp (ht.walks.isList_eq.trans hl)).after ht

-- A walk may go on without anything to be seen, before a script and after it.
theorem behind (hs : g.Silent s s₁) (h : Sim g list s₁ script post jumped) :
    Sim g list s script post jumped := by
  intro log hl
  exact (h hl).after (.silent .stay hs)

theorem onto (h : Sim g list s script post jumped)
    (hp : ∀ a es s', post a es s' → ∃ s'', post' a es s'' ∧ g.Silent s' s'')
    (hj : ∀ s', jumped s' → ∃ s'', jumped' s'' ∧ g.Silent s' s'') :
    Sim g list s script post' jumped' :=
  fun _ hl => (h hl).onto hp hj

theorem mono (h : Sim g list s script post jumped) (hp : ∀ a es s', post a es s' → post' a es s')
    (hj : ∀ s', jumped s' → jumped' s') : Sim g list s script post' jumped' :=
  h.onto (fun a es s' h => ⟨s', hp a es s' h, .refl⟩) fun s' h => ⟨s', hj s' h, .refl⟩

theorem imp (h : Sim g list s script post jumped) (hp : ∀ a es s', post a es s' → post' a es s') :
    Sim g list s script post' jumped :=
  h.mono hp fun _ hj => hj

theorem place (h : (g.positions n)[k]? = some i) :
    Sim g list (.within n k) (Script.place i) (fun _ _ s' => s' = .within n (k + 1)) jumped :=
  fun _ _ => ⟨[.placed i], _, rfl, .place h .stay, .refl⟩

-- Only a list runs out of answers.
theorem ask (h : g.Asks n (some i)) :
    Sim g list (.within n 0) (Script.ask (some i))
      (fun b es s' => decisions es ≠ [] ∧ s' = .on n (.ofValue b)) jumped := by
  intro log hl
  have ⟨_, _, _, hn⟩ := h
  rw [Script.ask_apply]
  cases hf : log.feed.next? (some i)
  case some r => exact ⟨[.asked (some i) r.1], _, ⟨nofun, rfl⟩, .ask hn hf .stay, .refl⟩
  case none =>
    cases list
    case true  => exact ⟨rfl, hf, [], n, h, .stay⟩
    case false =>
      have ⟨_, hs⟩ := Feed.exists_next? hl i
      cases hf.symm.trans hs

-- A loop keeps to an invariant of the spots where it tests. Each round takes an answer, so there
-- are no more rounds than answers.
theorem loop {test : Script Bool} {body : Script Unit} {I : Spot → Prop} {T : Bool → Spot → Prop}
    (ht : ∀ s, I s → Sim g true s test (fun b es s' => decisions es ≠ [] ∧ T b s') jumped)
    (hb : ∀ s, T true s → Sim g true s body (fun _ _ s' => I s') jumped) (hs : I s) :
    Sim g true s (Script.loop test body) (fun _ _ s' => T false s') jumped := by
  intro log hl
  change Ends g true s log _ jumped (Script.loop.go test body log)
  induction hn : log.feed.left using Nat.strongRecOn generalizing s log
  case ind n ih =>
    have h₁ := ht s hs hl
    rw [Script.loop.go]
    rcases hr : test log with ⟨stop | b, log₁⟩ <;> rw [hr] at h₁
    case error => cases stop <;> exact h₁
    case ok =>
      have ⟨es₁, s₁, ⟨hd, hT⟩, tr₁⟩ := h₁
      cases b
      case false => exact ⟨es₁, s₁, hT, tr₁⟩
      case true =>
        have hl₁ := tr₁.walks.isList_eq.trans hl
        have h₂ := hb s₁ hT hl₁
        dsimp only
        rcases hr : body log₁ with ⟨stop | _, log₂⟩ <;> rw [hr] at h₂
        case error =>
          apply Ends.after tr₁
          cases stop <;> exact h₂
        case ok =>
          have ⟨es₂, s₂, hI, tr₂⟩ := h₂
          have hl₂ := tr₂.walks.isList_eq.trans hl₁
          have hc₁ := tr₁.walks.left_eq hl
          have hc₂ := tr₂.walks.left_eq hl₁
          have hp := List.length_pos_iff.mpr hd
          have hlt : log₂.feed.left < log.feed.left := by omega
          dsimp only
          rw [if_pos hlt]
          exact .after (tr₁.trans tr₂) (ih _ (hn ▸ hlt) hI hl₂ rfl)

end Sim
end RoutineFlow.Flow
