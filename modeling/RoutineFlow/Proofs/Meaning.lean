import RoutineFlow.Proofs.Form

-- What a routine body does, read off its syntax tree. A run places positions and asks for the truth
-- of positions; a feed gives the answers.

namespace RoutineFlow.Meaning

open Syntax

inductive Event
  | placed (position : Id)
  -- A loop without a condition asks on no position.
  | asked  (position? : Option Id) (answer : Bool)
deriving DecidableEq

namespace Event

def position? : Event → Option Id
  | placed position => some position
  | asked ..        => none

def decision? : Event → Option (Option Id × Bool)
  | placed _               => none
  | asked position? answer => some (position?, answer)

end Event

-- The positions placed in the course of some events.
def placements (events : List Event) : List Id :=
  events.filterMap Event.position?

-- The questions asked in the course of some events, with their answers.
def decisions (events : List Event) : List (Option Id × Bool) :=
  events.filterMap Event.decision?

-- Where the answers come from.
inductive Feed
  -- A list that is used up one by one.
  | answers    (bs : List Bool)
  | assignment (w : Id → Bool)

namespace Feed

def next? : Feed → Option Id → Option (Bool × Feed)
  | answers (b :: bs), _        => some (b, answers bs)
  | answers [],        _        => none
  | assignment w,      position? => position?.map fun position => (w position, assignment w)

-- How many answers are left of a list; an assignment has no end.
def left : Feed → Nat
  | answers bs   => bs.length
  | assignment _ => 0

end Feed

structure Log where
  feed   : Feed
  events : List Event := []

-- What cuts a run short.
inductive Stop
  -- A jump out of the routine.
  | jump
  -- A question without an answer.
  | starved (position? : Option Id)
  -- A loop that goes on for ever, or a node without a meaning.
  | endless
deriving DecidableEq

abbrev Script := ExceptT Stop (StateM Log)

namespace Script

def place (position : Id) : Script Unit :=
  modify fun log => { log with events := log.events ++ [.placed position] }

def ask (position? : Option Id) : Script Bool := do
  let log ← get
  match log.feed.next? position? with
  | some (answer, feed) =>
    set { feed, events := log.events ++ [.asked position? answer] : Log }
    return answer
  | none => throw (.starved position?)

-- Tests and goes on as long as the test holds. A round that leaves the feed as it was would be
-- repeated for ever.
def loop (test : Script Bool) (body : Script Unit) : Script Unit :=
  go
where
  go (log : Log) : Except Stop Unit × Log :=
    match test log with
    | (.error stop, log) => (.error stop, log)
    | (.ok false, log)   => (.ok (), log)
    | (.ok true, tested) =>
      match body tested with
      | (.error stop, log) => (.error stop, log)
      | (.ok (), done)     =>
        if done.feed.left < log.feed.left then go done else (.error .endless, done)
  termination_by log.feed.left

end Script

structure Meaning where
  -- What happens where the construct stands for its effect.
  run   : Script Unit
  -- What happens where its truth is asked for.
  truth : Script Bool

namespace Meaning

open Script

def absurd : Meaning where
  run   := throw .endless
  truth := throw .endless

-- The truth of a construct that decides on nothing inside is a question of its own.
def asking (position : Id) (run : Script Unit) : Meaning where
  run
  truth := do
    run
    ask (some position)

end Meaning

open Script Meaning

variable (part : Id → Meaning)

def runAll (ids : List Id) : Script Unit :=
  ids.forM fun id => (part id).run

-- The meaning of a construct, from that of its parts.
def ofForm (id : Id) : Form → Meaning
  | .strict operands   => asking id do
    runAll part operands
    place id
  | .block statements  => asking id do
    place id
    runAll part statements
  | .parens inner      => {
    run   := do place id; (part inner).run
    truth := do place id; (part inner).truth }
  | .negation operand  => {
    run   := do place id; (part operand).run
    truth := do place id; return !(← (part operand).truth) }
  | .shortCircuit continueOn left right => {
    run   := do if (← (part left).truth) = continueOn then (part right).run
    truth := do
      if (← (part left).truth) = continueOn then (part right).truth else return !continueOn }
  | .branching condition truePart none => asking id do
    place id
    if ← (part condition).truth then (part truePart).run
  | .branching condition truePart (some falsePart) => {
    run   := do
      place id
      if ← (part condition).truth then (part truePart).run else (part falsePart).run
    truth := do
      place id
      if ← (part condition).truth then (part truePart).truth else (part falsePart).truth }
  | .whileLoop condition body   => asking id do
    place id
    loop (part condition).truth (part body).run
  | .doWhileLoop body condition => asking id do
    place id
    (part body).run
    loop (part condition).truth (part body).run
  | .forLoop init condition? update body => asking id do
    place id
    runAll part init
    loop (condition?.elim (ask none) fun condition => (part condition).truth) do
      (part body).run
      runAll part update
  | .jump operands => asking id do
    runAll part operands
    place id
    throw .jump
  | .passing parts => asking id (runAll part parts)

-- The meaning of a node. Only a part that comes before its construct has a meaning in it.
def ofNode (t : Tree) (id : Id) : Meaning :=
  match t.form? id with
  | none      => absurd
  | some form => ofForm (fun part => if part.index < id.index then ofNode t part else absurd) id form
termination_by id.index

-- How the run of a routine body ends, and what happens before.
def ofBody (t : Tree) (scope : Id) (feed : Feed) : Except Stop Unit × Log :=
  (ofNode t scope).run.run { feed }

-- How the run of a routine body looks from outside: a jump ends it like any other.
inductive Outcome
  | finished
  | starved (position? : Option Id)
deriving DecidableEq

def outcome? : Except Stop Unit → Option Outcome
  | .ok () | .error .jump       => some .finished
  | .error (.starved position?) => some (.starved position?)
  | .error .endless             => none

end RoutineFlow.Meaning
