import RoutineFlow.Proofs.Extent
import RoutineFlow.Proofs.Labels
import RoutineFlow.Proofs.Pending
import RoutineFlow.Proofs.WellFormed

-- One loop without a condition. Behind its initializers there is a condition without a label: one
-- branch leads into the body, the round of body and updates comes back to the condition, and the
-- other branch is the only way out. Which branch is which depends on the initializers, whose
-- pending negation is spent on the condition.

namespace RoutineFlow.Flow

open Syntax (Tree Form)

variable {g : Graph} {t : Tree} {lo hi : Nat} {i scope : Syntax.Id} {id : NodeId}
  {ends left sides : List LooseEnd} {dead : List Syntax.Id} {s : Summary}

-- A loop without a condition in a finished graph. Its nodes are numbered from `start` to below
-- `stop`.
structure Loop where
  id     : Syntax.Id
  init   : List Syntax.Id
  update : List Syntax.Id
  body   : Syntax.Id
  start  : Nat
  test   : NodeId
  stop   : Nat

namespace Loop

-- The nodes behind the condition.
def round (l : Loop) : List NodeId :=
  (List.range' (l.test.index + 1) (l.stop - (l.test.index + 1))).map NodeId.mk

-- The branch that goes on with the body: the truthy one, unless a negation is pending behind the
-- initializers.
def way (l : Loop) (t : Tree) : Branch :=
  .ofValue (!t.flips l.init)

theorem mem_round {l : Loop} : id ∈ l.round ↔ id.Within (l.test.index + 1) l.stop := by
  simp only [round, List.mem_map, List.mem_range'_1]
  constructor
  case mp  => rintro ⟨n, ⟨hl, hh⟩, rfl⟩; exact ⟨hl, by change n < _; omega⟩
  case mpr => intro ⟨hl, hh⟩; exact ⟨id.index, ⟨hl, by omega⟩, rfl⟩

-- The condition has no label (1). One branch leads to the first position of the body (2). From the
-- nodes behind the condition one gets to one another, back to the condition, and by a jump to the
-- end (3). The other branch leads out of the loop (4), and it is all that the loop leaves open (5).
-- The nodes hold the positions of body and updates, but for those that were left out (6).
structure Turns (s : Summary) (t : Tree) (l : Loop) : Prop where
  form    : t.form? l.id = some (.forLoop l.init none l.update l.body)
  blank   : s.graph.isBlank l.test                                                -- (1)
  enters  : ∃ entry ∈ l.round,                                                    -- (2)
    s.graph.Opens (l.test, .branch (l.way t)) entry (t.placed l.body)
  returns {slot : Slot} {target : NodeId} :                                       -- (3)
    slot.1 ∈ l.round → s.graph.Leads slot target →
      target ∈ l.round ∨ target = l.test ∨ target = s.finish
  leaves  : ∃ next,                                                               -- (4)
    s.graph.Leads (l.test, .branch (l.way t).other) next ∧ ¬next.Within l.start l.stop
  laid    : ∃ ends left dead,                                                     -- (5)
    Laid s.graph t (.node l.id) l.start ends l.stop [.side l.test (l.way t).other false] left dead
  holds   : ∃ dead, dead ⊆ s.unreachable ∧                                        -- (6)
    (l.round.flatMap s.graph.positions ++ t.placedOf dead).Perm (t.placedOf (l.body :: l.update))

end Loop

theorem LooseEnd.At.eq_target {slot : Slot} {n target : NodeId} (hs : LooseEnd.At ends slot)
    (ha : ∀ e ∈ ends, g.Arrives n e) (hl : g.Leads slot target) : target = n := by
  obtain ⟨e, hm, rfl⟩ := hs
  exact hl.unique (ha e hm).leads

-- What is known of a part of the routine body from what stands around it.
structure Summary.Around (s : Summary) (lo hi : Nat) (ends left : List LooseEnd)
    (dead : List Syntax.Id) : Prop where
  apart   {slot : Slot} {target : NodeId} : LooseEnd.At ends slot → s.graph.Leads slot target →
    ¬target.Within lo hi
  jumps   : ∀ e ∈ left, s.graph.Arrives s.finish e
  finish  : hi ≤ s.finish.index
  skipped : dead ⊆ s.unreachable

namespace Summary.Around

variable {lo' hi' : Nat} {ends₁ left₁ outs : List LooseEnd} {dead₁ : List Syntax.Id}

theorem part (h : s.Around lo hi ends left dead) (hh : hi' ≤ hi) (hl : left₁ ⊆ left)
    (hd : dead₁ ⊆ dead)
    (ha : ∀ {slot target}, LooseEnd.At ends₁ slot → s.graph.Leads slot target →
      ¬target.Within lo' hi') : s.Around lo' hi' ends₁ left₁ dead₁ where
  apart   := ha
  jumps e hm := h.jumps e (hl hm)
  finish  := Nat.le_trans hh h.finish
  skipped := List.Subset.trans hd h.skipped

-- A part that leaves off where the whole does.
theorem inner (h : s.Around lo hi ends left dead) (hl : lo ≤ lo') (hh : hi' ≤ hi)
    (he : ∀ slot, LooseEnd.At ends₁ slot → LooseEnd.At ends slot) (hj : left₁ ⊆ left)
    (hd : dead₁ ⊆ dead) : s.Around lo' hi' ends₁ left₁ dead₁ :=
  h.part hh hj hd fun hs ht hw => h.apart (he _ hs) ht (hw.widen hl hh)

-- What follows a part goes on from its ends, leads out of the whole, or leads back.
theorem apart_next (h : s.Around lo hi ends left dead) (hl : lo ≤ lo')
    (hc : s.graph.Confines hi' hi ends₁ outs)
    (ho : ∀ {slot target}, LooseEnd.At outs slot → s.graph.Leads slot target →
      LooseEnd.At ends slot ∨ LooseEnd.At left slot ∨ target.index < lo')
    (hs : LooseEnd.At ends₁ slot) (ht : s.graph.Leads slot target) : ¬target.Within lo' hi' := by
  intro hw
  rcases hc.leads ht (.inr hs) with hw' | hs
  case inl => exact Nat.not_lt_of_le hw'.1 hw.2
  case inr =>
    rcases ho hs ht with hs | hs | hlt
    case inl       => exact h.apart hs ht (hw.widen hl hc.le)
    case inr.inl   =>
      cases hs.eq_target h.jumps ht
      exact Nat.not_lt_of_le (Nat.le_trans hc.le h.finish) hw.2
    case inr.inr   => exact Nat.not_lt_of_le hw.1 hlt

end Summary.Around

namespace Graph

-- The condition without a label behind a block, with the sides on which its value is told apart.
theorem Forks.of_block (h : g.Forks false lo [.block node passed last? inverted] hi sides) :
    hi = lo + 1 ∧ g.Leads (node, .next) ⟨lo⟩ ∧
    (∃ truthy? falsy? first, g.node? ⟨lo⟩ = some (.condition none truthy? falsy? first)) ∧
    sides.filter (·.hasSense true) = [.side ⟨lo⟩ (.ofValue !inverted) true] ∧
    sides.filter (!·.hasSense true) = [.side ⟨lo⟩ (Branch.ofValue !inverted).other false] := by
  cases h
  case block hn ha hr =>
    cases hr
    refine ⟨rfl, ha.leads, ⟨_, _, _, hn⟩, ?_, ?_⟩
    all_goals cases inverted <;> rfl

theorem positionsBelow_range' (g : Graph) (h : lo ≤ hi) :
    g.positionsBelow hi =
      g.positionsBelow lo ++ ((List.range' lo (hi - lo)).map NodeId.mk).flatMap g.positions := by
  have hr : List.range hi = List.range lo ++ List.range' lo (hi - lo) := by
    have ha := List.range'_append_1 (s := 0) (m := lo) (n := hi - lo)
    rw [Nat.zero_add, Nat.add_sub_cancel' h] at ha
    rw [List.range_eq_range', List.range_eq_range', ha]
  rw [positionsBelow, hr, List.flatMap_append, List.flatMap_map]
  rfl

end Graph

theorem count_placedOf (t : Tree) (ids : List Syntax.Id) (x : Syntax.Id) :
    (t.placedOf ids).count x = shown t x ((t.visitsOf ids).count x) := by
  unfold shown Tree.placedOf
  split
  case isTrue hp  => exact List.count_filter hp
  case isFalse hp => exact List.count_eq_zero.mpr fun hm => hp (List.mem_filter.mp hm).2

section

variable {init update : List Syntax.Id} {body : Syntax.Id} {header : LooseEnd}
  {n entry finish target : NodeId} {branch : Branch} {sense : Bool} {slot : Slot} {m₃ m₅ m₆ : Nat}
  {ends₃ ends₄ left₃ left₄ : List LooseEnd} {dead₃ dead₄ : List Syntax.Id}

section

variable (hw : t.WellShaped)
  (hb : Laid g t (.node body) m₅ [.side n branch sense] m₆ ends₃ left₃ dead₃)
  (hu : Laid g t (.parts update) m₆ ends₃ hi ends₄ left₄ dead₄)
  (hr : ∀ e ∈ ends₄, g.Arrives entry e) (hj : ∀ e ∈ left₃ ++ left₄, g.Arrives finish e)
include hw hb hu hr hj

-- From the round one gets to the round, to where it comes back, and out by a jump.
theorem Laid.round_leads (hl : g.Leads slot target)
    (hs : slot.1.Within m₅ hi ∨ slot = (n, .branch branch)) :
    target.Within m₅ hi ∨ target = entry ∨ target = finish := by
  obtain ⟨hj₃, hj₄⟩ := List.forall_mem_append.mp hj
  have hc := (hb.confines hw).seq (hu.confines hw)
  have hs : slot.1.Within m₅ hi ∨ LooseEnd.At [.side n branch sense] slot :=
    hs.imp_right fun he => ⟨_, .head _, he.symm⟩
  refine (hc.leads hl hs).imp_right fun ho => ?_
  simp only [LooseEnd.at_append] at ho
  rcases ho with (hs | hs) | hs
  case inl.inl => exact .inl (hs.eq_target hr hl)
  case inl.inr => exact .inr (hs.eq_target hj₄ hl)
  case inr     => exact .inr (hs.eq_target hj₃ hl)

theorem Laid.round_positions :
    (((List.range' m₅ (hi - m₅)).map NodeId.mk).flatMap g.positions ++
      t.placedOf (dead₃ ++ dead₄)).Perm (t.placedOf (body :: update)) := by
  refine List.perm_iff_count.mpr fun x => ?_
  have hc := ((hb.covers hw (x := x)).trans (hu.covers hw) rfl).positions
  have hle := ((hb.confines hw).seq (hu.confines hw)).le
  have he := g.rests_eq_nil fun e he => (hr e he).rest_eq_nil
  have hl := g.rests_eq_nil fun e he => (hj e he).rest_eq_nil
  rw [g.positionsBelow_range' hle, he, hl, List.count_append] at hc
  rw [List.count_append, count_placedOf, count_placedOf]
  simp [Graph.rests, Graph.rest] at hc ⊢
  omega

end

theorem Laid.turns (hw : t.WellShaped) (hd : s.Draws t scope)
    (hf : t.form? i = some (.forLoop init none update body))
    (hl : Laid s.graph t (.node i) lo ends hi (sides.filter (!·.hasSense true)) left dead)
    (hh : ∃ node passed last?, header = .block node passed last? (t.flips init))
    (hk : s.graph.Forks false m₃ [header] m₅ sides)
    (hb : Laid s.graph t (.node body) m₅ (sides.filter (·.hasSense true)) m₆ ends₃ left₃ dead₃)
    (hu : Laid s.graph t (.parts update) m₆ ends₃ hi ends₄ left₄ dead₄)
    (hn : s.graph.Leads header.slot entry) (hr : ∀ e ∈ ends₄, s.graph.Arrives entry e)
    (hj : left₃ ++ left₄ ⊆ left) (hs : dead₃ ++ dead₄ ⊆ dead)
    (ha : s.Around lo hi (sides.filter (!·.hasSense true)) left dead) :
    Loop.Turns s t ⟨i, init, update, body, lo, ⟨m₃⟩, hi⟩ := by
  obtain ⟨node, passed, last?, rfl⟩ := hh
  obtain ⟨rfl, hn', ⟨truthy?, falsy?, first, hc⟩, hyes, hno⟩ := hk.of_block
  cases hn.unique hn'
  rw [hyes] at hb
  rw [hno] at hl ha
  have hj e (hm : e ∈ left₃ ++ left₄) := ha.jumps e (hj hm)
  have hopen := hb.opens_proper hw (hw.isProper_part hf (by simp) (by simp [Form.parts]))
  refine {
    form := hf, laid := ⟨_, _, _, hl⟩, blank := ?_, enters := ⟨_, ?_, hopen⟩, returns := ?_,
    leaves := ?_, holds := ⟨_, List.Subset.trans hs ha.skipped, hb.round_positions hw hu hr hj⟩ }
  case refine_1 => simp [Graph.isBlank, hc, Node.isBlank]
  case refine_2 =>
    rcases hb.round_leads hw hu hr hj hopen.1 (.inr rfl) with hi | he | he
    case inl     => exact Loop.mem_round.mpr hi
    case inr.inl => cases he
    case inr.inr =>
      -- The end node holds no position.
      obtain ⟨_, _, _, hp⟩ := hopen
      rw [he, Graph.positions_eq hd.finish] at hp
      cases hp
  case refine_3 =>
    intro slot target hs hl
    rw [Loop.mem_round] at hs ⊢
    exact hb.round_leads hw hu hr hj hl (.inl hs)
  case refine_4 =>
    obtain ⟨next, hl⟩ := hd.exists_target hc (.branch (Branch.ofValue !t.flips init).other)
      (by cases t.flips init <;> rfl)
    have hl : s.graph.Leads (⟨m₃⟩, .branch (Branch.ofValue !t.flips init).other) next := by
      rw [Graph.Leads, Graph.slot?, hc]
      exact hl
    exact ⟨next, hl, ha.apart (LooseEnd.at_of_mem (.head _)) hl⟩

end

end RoutineFlow.Flow
