import Mathlib.Data.List.Perm.Subperm
import RoutineFlow.Proofs.Arena
import RoutineFlow.Proofs.Errors
import RoutineFlow.Proofs.Nesting

-- When a walk over a routine body ends. Visits nest no deeper than the limit allows, but left
-- operands are followed without counting, and they come to an end only where they do not lead back
-- to themselves.

namespace RoutineFlow

namespace Trail

variable {next? : α → Option α} {a x z : α} {as l : List α}

theorem exists_suffix (h : Trail next? a as z) (hx : x ∈ as) :
    ∃ xs, Trail next? x xs z ∧ xs.length ≤ as.length := by
  induction h
  case last hn =>
    cases List.mem_singleton.mp hx
    exact ⟨_, .last hn, Nat.le_refl _⟩
  case next hn h ih =>
    cases List.mem_cons.mp hx
    case inl he => subst he; exact ⟨_, .next hn h, Nat.le_refl _⟩
    case inr hx =>
      have ⟨xs, h, hl⟩ := ih hx
      exact ⟨xs, h, Nat.le_succ_of_le hl⟩

-- What a trail comes back to, it would come back to for ever.
theorem nodup (h : Trail next? a as z) : as.Nodup := by
  induction h
  case last => exact List.nodup_singleton _
  case next hn h ih =>
    refine List.nodup_cons.mpr ⟨fun hm => ?_, ih⟩
    have ⟨xs, h', hl⟩ := h.exists_suffix hm
    have ⟨he, _⟩ := h'.unique (.next hn h)
    rw [he, List.length_cons] at hl
    exact absurd hl (Nat.not_succ_le_self _)

theorem exists_concat (h : Trail next? a as z) :
    ∃ bs, as = bs ++ [z] ∧ ∀ b ∈ bs, (next? b).isSome := by
  induction h
  case last => exact ⟨[], rfl, nofun⟩
  case next hn _ ih =>
    have ⟨bs, he, hb⟩ := ih
    exact ⟨_ :: bs, congrArg _ he, List.forall_mem_cons.mpr ⟨hn ▸ rfl, hb⟩⟩

theorem length_le (h : Trail next? a as z) (hl : ∀ b, (next? b).isSome → b ∈ l) :
    as.length ≤ l.length + 1 := by
  have ⟨bs, he, hb⟩ := h.exists_concat
  have hn := he ▸ h.nodup
  have hs := (List.nodup_append.mp hn).1.subperm fun b hm => hl b (hb b hm)
  rw [he, List.length_append]
  exact Nat.succ_le_succ hs.length_le

end Trail

namespace Syntax.Tree

variable {t : Tree} {id l r x : Id} {op : BinaryOp}

-- The left operand of a binary expression.
def leftOperand? (t : Tree) (id : Id) : Option Id :=
  match t.kind? id with
  | some (.binary _ left _) => some left
  | _                       => none

theorem leftOperand?_eq_some_iff :
    t.leftOperand? id = some l ↔ ∃ op r, t.kind? id = some (.binary op l r) := by
  unfold leftOperand?
  split
  case h_1 op l' r hk =>
    refine ⟨fun h => ⟨op, r, Option.some.inj h ▸ hk⟩, fun ⟨op', r', hk'⟩ => ?_⟩
    cases hk.symm.trans hk'
    rfl
  case h_2 hk => exact ⟨nofun, fun ⟨op, r, hk'⟩ => absurd hk' (hk op l r)⟩

theorem leftOperand?_eq_none_iff : t.leftOperand? id = none ↔ ¬t.IsBinary id := by
  refine ⟨fun hn hb => ?_, fun hb => ?_⟩
  case refine_1 =>
    obtain ⟨kind, hk, hb⟩ := (Option.any_eq_true _ _).mp hb
    cases kind
    case binary => cases hn.symm.trans (leftOperand?_eq_some_iff.mpr ⟨_, _, hk⟩)
    all_goals cases hb
  case refine_2 =>
    cases hl : t.leftOperand? id
    case none   => rfl
    case some l =>
      have ⟨op, r, hk⟩ := leftOperand?_eq_some_iff.mp hl
      exact absurd (by rw [IsBinary, hk]; rfl) hb

-- Where each left operand comes before its node, none leads back to itself.
theorem exists_leftTrail (h : ∀ {id l}, t.leftOperand? id = some l → l.index < id.index) (id : Id) :
    ∃ spine z, Trail t.leftOperand? id spine z :=
  Trail.exists_of_measure Id.index h id

end Syntax.Tree

namespace Flow

open Syntax (Tree)

variable {t : Tree} {settings : Settings} {scope id l x z leftmost : Syntax.Id}
  {spine : List Syntax.Id} {links outer : List Link} {fuel rounds levels depth : Nat}

theorem followLeft_of_not_isBinary (hb : ¬t.IsBinary id) :
    followLeft t fuel id outer = some (id, outer) := by
  have hn := Tree.leftOperand?_eq_none_iff.mpr hb
  unfold followLeft
  split
  case h_1 hk => cases hn.symm.trans (Tree.leftOperand?_eq_some_iff.mpr ⟨_, _, hk⟩)
  case h_2 hk => cases hn.symm.trans (Tree.leftOperand?_eq_some_iff.mpr ⟨_, _, hk⟩)
  case h_3    => rfl

theorem followLeft_mono (h : followLeft t fuel id outer = some r) (hf : fuel ≤ fuel') :
    followLeft t fuel' id outer = some r := by
  have hb := not_isBinary_of_followLeft h
  fun_induction followLeft t fuel id outer generalizing fuel'
  case case1 => cases h
  case case2 hk ih =>
    obtain _ | fuel' := fuel'
    case zero => exact absurd hf (Nat.not_succ_le_zero _)
    case succ =>
      unfold followLeft
      rw [hk]
      exact ih h (Nat.le_of_succ_le_succ hf)
  case case3 => cases h; exact followLeft_of_not_isBinary hb

theorem followLeft_of_trail (h : Trail t.leftOperand? id spine z) (hl : spine.length ≤ fuel + 1)
    (outer : List Link) : ∃ links, followLeft t fuel id outer = some (z, links) := by
  induction h generalizing fuel outer
  case last hn =>
    exact ⟨outer, followLeft_of_not_isBinary (Tree.leftOperand?_eq_none_iff.mp hn)⟩
  case next hn h ih =>
    have ⟨op, r, hk⟩ := Tree.leftOperand?_eq_some_iff.mp hn
    obtain ⟨bs, rfl⟩ := h.exists_cons
    unfold followLeft
    rw [hk]
    cases fuel
    case zero => simp at hl
    case succ => exact ih (Nat.le_of_succ_le_succ hl) _

theorem exists_trail_of_followLeft (h : followLeft t fuel id outer = some (leftmost, links)) :
    ∃ spine, Trail t.leftOperand? id spine leftmost := by
  have hn := Tree.leftOperand?_eq_none_iff.mpr (not_isBinary_of_followLeft h)
  obtain ⟨inner, -, hc⟩ := Visitor.chain_of_followLeft h
  clear h
  induction hc
  case leftmost => exact ⟨_, .last hn⟩
  case operator hk ih =>
    have ⟨spine, h⟩ := ih
    exact ⟨_, .next (Tree.leftOperand?_eq_some_iff.mpr ⟨_, _, hk⟩) h⟩

-- A trail of left operands passes each node of the tree once at most.
theorem length_le_of_leftTrail (h : Trail t.leftOperand? id spine z) :
    spine.length ≤ t.size + 1 := by
  have hm (b : Syntax.Id) (hb : (t.leftOperand? b).isSome) : b ∈ t.ids := by
    have ⟨_, hl⟩ := Option.isSome_iff_exists.mp hb
    have ⟨_, _, hk⟩ := Tree.leftOperand?_eq_some_iff.mp hl
    exact Tree.mem_ids_iff.mpr (Tree.lt_size_of_kind? hk)
  simpa [Tree.ids] using h.length_le hm

theorem leftChain?_isSome_iff :
    (leftChain? t id).isSome ↔ ∃ spine z, Trail t.leftOperand? id spine z := by
  refine ⟨fun h => ?_, fun ⟨spine, z, h⟩ => ?_⟩
  case refine_1 =>
    have ⟨(z, links), hl⟩ := Option.isSome_iff_exists.mp h
    have ⟨spine, h⟩ := exists_trail_of_followLeft hl
    exact ⟨spine, z, h⟩
  case refine_2 =>
    have ⟨links, hl⟩ := followLeft_of_trail h (length_le_of_leftTrail h) []
    exact Option.isSome_of_eq_some hl

-- To follow left operands for longer than there are nodes finds nothing more.
theorem followLeft_eq (hs : t.size ≤ fuel) : followLeft t fuel id [] = leftChain? t id := by
  cases hl : leftChain? t id
  case some => exact followLeft_mono hl hs
  case none =>
    cases hf : followLeft t fuel id []
    case none => rfl
    case some =>
      have ⟨spine, h⟩ := exists_trail_of_followLeft hf
      have hi := leftChain?_isSome_iff.mpr ⟨spine, _, h⟩
      rw [hl] at hi
      cases hi

-- The visit that counts depth upwards and gives up where `levels` nested visits, or `rounds` left
-- operands of one chain, do not suffice.
def visitWithin (t : Tree) (settings : Settings) (rounds levels depth : Nat) (id : Syntax.Id)
    (out : Outflow) : Walk Outflow :=
  if out.frontier.isEmpty && settings.unreachable = .skip then do
    Walk.skip id
    return out
  else if settings.maxDepth ≤ depth then
    throw (.nestingTooDeep id settings.maxDepth)
  else
    match levels with
    | 0          => throw .unterminated
    | levels + 1 => construct (visitWithin t settings rounds levels (depth + 1)) id out
where
  construct (visit : Visitor) (id : Syntax.Id) (out : Outflow) : Walk Outflow :=
    match t.kind? id with
    | some (.binary ..) => do
      match followLeft t rounds id [] with
      | none                   => throw (.endlessOperands id)
      | some (leftmost, links) =>
        let out ← visit leftmost out
        links.foldlM (fun out link => Visitor.operator visit link out) out
    | _ => Visitor.construct visit t id out

theorem construct_within (hs : t.size ≤ rounds) (visit : Visitor) :
    visitWithin.construct t rounds visit = Visitor.construct visit t := by
  funext id out
  unfold visitWithin.construct
  split
  case h_1 hk =>
    have hb : Visitor.construct visit t id out = Visitor.binary visit t id out := by
      simp only [Visitor.construct, hk]
    rw [hb, Visitor.binary]
    exact followLeft_eq hs ▸ rfl
  case h_2 => rfl

theorem visitWithin_deep (hm : settings.maxDepth ≤ depth) :
    visitWithin t settings rounds levels depth = visit t settings (settings.maxDepth - depth) := by
  funext id out
  unfold visitWithin visit
  rw [if_pos hm, Nat.sub_eq_zero_of_le hm]

-- With as many levels as the limit leaves, and as many rounds as there are nodes, nothing is given
-- up that more would bring to an end.
theorem visitWithin_eq (hs : t.size ≤ rounds) (hd : settings.maxDepth ≤ depth + levels) :
    visitWithin t settings rounds levels depth = visit t settings (settings.maxDepth - depth) := by
  induction levels generalizing depth
  case zero => exact visitWithin_deep hd
  case succ levels ih =>
    by_cases hm : settings.maxDepth ≤ depth
    case pos => exact visitWithin_deep hm
    case neg =>
      have hn : settings.maxDepth - depth = settings.maxDepth - (depth + 1) + 1 := by omega
      have hi := @ih (depth + 1) (by omega)
      funext id out
      unfold visitWithin
      simp only [if_neg hm, hn, construct_within hs, hi]
      rfl

-- No visit lies so deep that the limit does not stop it (1). The left operands of a node are
-- followed to one that is none of a binary expression or, where there is no way to such a node, for
-- ever (2). An analysis that comes to the latter does not end (3), which no tree brings about whose
-- left operands come before what holds them (4).
structure Finishes (t : Tree) (settings : Settings) : Prop where
  levels   {rounds levels depth : Nat} :                                          -- (1)
    t.size ≤ rounds → settings.maxDepth ≤ depth + levels →
      visitWithin t settings rounds levels depth = visit t settings (settings.maxDepth - depth)
  operands (id : Syntax.Id) :                                                     -- (2)
    match leftChain? t id with
    | some (z, _) => ¬t.IsBinary z ∧ ∃ spine, Trail t.leftOperand? id spine z
    | none        => t.IsBinary id ∧ ¬∃ spine z, Trail t.leftOperand? id spine z
  endless  {scope id : Syntax.Id} :                                               -- (3)
    analyze t settings scope = .error (.endlessOperands id) →
      t.Visited scope id ∧ ¬∃ spine z, Trail t.leftOperand? id spine z
  ordered  (scope id : Syntax.Id) :                                               -- (4)
    (∀ {id l}, t.leftOperand? id = some l → l.index < id.index) →
      analyze t settings scope ≠ .error (.endlessOperands id)

theorem analyze_finishes (t : Tree) (settings : Settings) : Finishes t settings := by
  have hnone {id} (hl : leftChain? t id = none) :
      ¬∃ spine z, Trail t.leftOperand? id spine z := by
    rw [← leftChain?_isSome_iff, hl]
    exact Bool.false_ne_true
  have hendless {scope id} (h : analyze t settings scope = .error (.endlessOperands id)) :
      t.Visited scope id ∧ ¬∃ spine z, Trail t.leftOperand? id spine z :=
    have ⟨hv, hl⟩ := says_of_analyze h
    ⟨hv, hnone hl⟩
  refine ⟨visitWithin_eq, fun id => ?_, hendless, fun scope id ho h => ?_⟩
  case refine_1 =>
    split
    case h_1 hl => exact ⟨not_isBinary_of_followLeft hl, exists_trail_of_followLeft hl⟩
    case h_2 hl =>
      refine ⟨Classical.not_not.mp fun hb => ?_, hnone hl⟩
      exact hnone hl ⟨_, _, .last (Tree.leftOperand?_eq_none_iff.mpr hb)⟩
  case refine_2 => exact (hendless h).2 (Tree.exists_leftTrail ho id)

-- A binary expression that is its own left operand, in a body.
def circling : Tree :=
  .ofAdditions [(.binary .and ⟨0⟩ ⟨0⟩, {}), (.block [⟨0⟩] false, {})]

theorem not_trail_circling :
    circling.IsBinary ⟨0⟩ ∧ (¬∃ spine z, Trail circling.leftOperand? ⟨0⟩ spine z) ∧
    (∀ rounds, followLeft circling rounds ⟨0⟩ [] = none) ∧
    analyze circling {} ⟨1⟩ = .error (.endlessOperands ⟨0⟩) := by
  have hl : circling.leftOperand? ⟨0⟩ = some ⟨0⟩ := by decide
  have ht : ¬∃ spine z, Trail circling.leftOperand? ⟨0⟩ spine z := by
    intro ⟨spine, z, h⟩
    -- Every step stays at the node, so none is the last.
    have hz : z = ⟨0⟩ := by
      refine h.preserves (P := (· = ⟨0⟩)) (fun hs he => ?_) rfl
      rw [he, hl] at hs
      exact (Option.some.inj hs).symm
    have he := h.ends
    rw [hz, hl] at he
    cases he
  refine ⟨rfl, ht, fun rounds => ?_, by decide +kernel⟩
  cases hf : followLeft circling rounds ⟨0⟩ []
  case none => rfl
  case some =>
    have ⟨spine, h⟩ := exists_trail_of_followLeft hf
    exact absurd ⟨spine, _, h⟩ ht

end Flow
end RoutineFlow
