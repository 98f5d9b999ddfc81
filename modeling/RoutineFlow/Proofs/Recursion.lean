import RoutineFlow.Proofs.Endless

-- A chain of left operands is visited from its inner end, so that its length needs no recursion.
-- The graph is the one that recursion down the left operands builds, and so is every error, as long
-- as the limit on nesting is not hit.

namespace RoutineFlow

namespace Syntax.Tree

variable {t : Tree} {id part : Id} {kind : Kind}

-- Parts come before the construct that holds them, or are not there at all.
def Descends (t : Tree) : Prop :=
  ∀ ⦃id part : Id⦄ ⦃kind : Kind⦄, t.kind? id = some kind → part ∈ kind.children →
    part.index < t.size → part.index < id.index

-- What is not there comes before all nodes.
def rank (t : Tree) (id : Id) : Nat :=
  if id.index < t.size then id.index + 1 else 0

theorem Descends.rank_lt (h : t.Descends) (hk : t.kind? id = some kind)
    (hp : part ∈ kind.children) : t.rank part < t.rank id := by
  unfold rank
  rw [if_pos (lt_size_of_kind? hk)]
  split
  case isTrue hs => exact Nat.succ_lt_succ (h hk hp hs)
  case isFalse   => exact Nat.succ_pos _

theorem descends_iff : t.Descends ↔ ∀ i < t.size, ∀ kind ∈ t.kind? ⟨i⟩, ∀ part ∈ kind.children,
    part.index < t.size → part.index < i :=
  ⟨fun h _ _ _ hk _ hp => h hk hp, fun h id _ kind hk => h id.index (lt_size_of_kind? hk) kind hk _⟩

instance : Decidable t.Descends :=
  decidable_of_iff' _ descends_iff

theorem isBinary_iff : t.IsBinary id ↔ ∃ op l r, t.kind? id = some (.binary op l r) := by
  constructor
  case mp =>
    intro hb
    obtain ⟨kind, hk, hb⟩ := (Option.any_eq_true _ _).mp hb
    cases kind
    case binary op l r => exact ⟨op, l, r, hk⟩
    all_goals cases hb
  case mpr =>
    rintro ⟨op, l, r, hk⟩
    rw [IsBinary, hk]
    rfl

end Syntax.Tree

namespace Flow

open Syntax (Tree BinaryOp)

variable {t : Tree} {settings : Settings} {id l r : Syntax.Id} {op : BinaryOp}

theorem followLeft_binary (hk : t.kind? id = some (.binary op l r)) (fuel : Nat)
    (outer : List Link) :
    followLeft t (fuel + 1) id outer = followLeft t fuel l (⟨id, op, r⟩ :: outer) := by
  conv_lhs => unfold followLeft
  rw [hk]

theorem followLeft_outer (fuel : Nat) (id : Syntax.Id) (outer : List Link) :
    followLeft t fuel id outer =
      (followLeft t fuel id []).map fun (z, links) => (z, links ++ outer) := by
  by_cases hb : t.IsBinary id
  case neg => simp only [followLeft_of_not_isBinary hb, Option.map_some, List.nil_append]
  case pos =>
    have ⟨op, l, r, hk⟩ := Tree.isBinary_iff.mp hb
    cases fuel
    case zero      =>
      have hn (outer : List Link) : followLeft t 0 id outer = none := by
        unfold followLeft
        rw [hk]
      rw [hn, hn, Option.map_none]
    case succ fuel =>
      rw [followLeft_binary hk, followLeft_binary hk, followLeft_outer fuel l (_ :: outer),
        followLeft_outer fuel l [_], Option.map_map]
      simp [Function.comp_def]

-- The operator of a binary expression comes after those of its left operand.
theorem leftChain?_binary (hk : t.kind? id = some (.binary op l r)) :
    leftChain? t id =
      (leftChain? t l).map fun (z, links) => (z, links ++ [⟨id, op, r⟩]) := by
  rw [← followLeft_eq (Nat.le_succ t.size), followLeft_binary hk]
  exact followLeft_outer t.size l _

theorem exists_leftChain (h : t.Descends) (id : Syntax.Id) :
    ∃ chain, leftChain? t id = some chain := by
  refine Option.isSome_iff_exists.mp (leftChain?_isSome_iff.mpr ?_)
  refine Trail.exists_of_measure t.rank (fun hl => ?_) id
  have ⟨op, r, hk⟩ := Tree.leftOperand?_eq_some_iff.mp hl
  exact h.rank_lt hk (.head _)

namespace Visitor

variable (visit : Visitor)

-- After the left operand, `&&` and `||` turn the frontier into conditions, and the right operand is
-- visited from the sides on which the left one does not decide. What skips it is listed last by the
-- one and first by the other. Any other operator visits its right operand, and its expression is
-- placed.
def applied (op : BinaryOp) (id right : Syntax.Id) (out : Outflow) : Walk Outflow :=
  match op with
  | .and     => do
    let (truthy, falsy) ← Walk.fork true out.frontier
    let visited ← visit right { frontier := truthy }
    return {
      frontier   := visited.frontier ++ falsy
      leaving    := out.leaving ++ visited.leaving
      terminates := false }
  | .or      => do
    let (falsy, truthy) ← Walk.fork false out.frontier
    let visited ← visit right { frontier := falsy }
    return {
      frontier   := truthy ++ visited.frontier
      leaving    := out.leaving ++ visited.leaving
      terminates := false }
  | .other _ => do Walk.place id (← visit right out)

theorem operator_eq_applied (link : Link) (out : Outflow) :
    operator visit link out = applied visit link.op link.node link.right out := by
  unfold operator applied
  cases link.op
  case and   => rfl
  case or    => rfl
  case other => simp only [strict, sequence, List.foldlM_cons, List.foldlM_nil, bind_pure]

-- A binary expression by recursion: its left operand, by the same rule if that is a binary
-- expression too, and then what its operator does.
def nested (t : Tree) (id : Syntax.Id) (out : Outflow) : Walk Outflow :=
  match t.kind? id with
  | some (.binary op left right) =>
    if t.rank left < t.rank id then do
      let out ← nested t left out
      applied visit op id right out
    else
      throw (.endlessOperands id)
  | _ => visit id out
termination_by t.rank id

theorem binary_of_not_isBinary (hb : ¬t.IsBinary id) (out : Outflow) :
    binary visit t id out = visit id out := by
  rw [binary, leftChain?, followLeft_of_not_isBinary hb]
  exact bind_pure _

theorem binary_eq (h : t.Descends) (hk : t.kind? id = some (.binary op l r)) (out : Outflow) :
    binary visit t id out =
      binary visit t l out >>= fun out => applied visit op id r out := by
  have ⟨(z, links), hl⟩ := exists_leftChain h l
  simp only [binary, leftChain?_binary hk, hl, Option.map_some, List.foldlM_append, bind_assoc,
    List.foldlM_cons, List.foldlM_nil, bind_pure, operator_eq_applied]

theorem binary_eq_nested (h : t.Descends) (id : Syntax.Id) (out : Outflow) :
    binary visit t id out = nested visit t id out := by
  fun_induction nested visit t id out
  case case1 hk _ ih => rw [binary_eq visit h hk, ih]
  case case2 hk hr   => exact absurd (h.rank_lt hk (.head _)) hr
  case case3 hb      =>
    refine binary_of_not_isBinary visit (fun hb' => ?_) _
    have ⟨op, l, r, hk⟩ := Tree.isBinary_iff.mp hb'
    exact hb op l r hk

end Visitor

namespace Walk

-- The walk gives up for the limit on nesting.
def GivesUp (step : Walk α) (p : Progress) : Prop :=
  ∃ id limit, step p = .error (.nestingTooDeep id limit)

-- The first walk ends as the second does or, which it may only if nodes nest deep, it gives up.
def Within (deep : Prop) (low high : Walk α) : Prop :=
  ∀ p, low p = high p ∨ deep ∧ GivesUp low p

namespace Within

variable {deep deep' : Prop} {low high : Walk α}

theorem mono (h : Within deep low high) (hd : deep → deep') : Within deep' low high :=
  fun p => (h p).imp_right (And.imp_left hd)

theorem refl (step : Walk α) : Within deep step step :=
  fun _ => .inl rfl

theorem bind {f g : α → Walk β} (h : Within deep low high) (hf : ∀ a, Within deep (f a) (g a)) :
    Within deep (low >>= f) (high >>= g) := by
  intro p
  unfold GivesUp
  rw [bind_apply, bind_apply]
  cases h p
  case inl he =>
    rw [← he]
    cases low p
    case error => exact .inl rfl
    case ok r  => exact hf r.1 r.2
  case inr he =>
    have ⟨hd, id, limit, he⟩ := he
    exact .inr ⟨hd, id, limit, by rw [he]; rfl⟩

-- A step of both walks.
theorem step {step : Walk α} {f g : α → Walk β} (hf : ∀ a, Within deep (f a) (g a)) :
    Within deep (step >>= f) (step >>= g) :=
  (refl step).bind hf

end Within
end Walk

namespace Visitor

open Walk

-- A visit of a part within a limit.
def Within (deep : Prop) (low high : Visitor) (part : Syntax.Id) : Prop :=
  ∀ out, Walk.Within deep (low part out) (high part out)

namespace Within

variable {deep : Prop} {low high : Visitor}

theorem sequence (h : ∀ i ∈ parts, Within deep low high i) (out : Outflow) :
    Walk.Within deep (sequence low parts out) (sequence high parts out) := by
  induction parts generalizing out
  case nil       => exact .refl _
  case cons i is ih =>
    have ⟨hi, h⟩ := List.forall_mem_cons.mp h
    exact (hi out).bind fun out => ih h out

theorem strict (id : Syntax.Id) (h : ∀ i ∈ operands, Within deep low high i) (out : Outflow) :
    Walk.Within deep (strict low id operands out) (strict high id operands out) :=
  (sequence h out).bind fun _ => .refl _

theorem branching (id : Syntax.Id) (hc : Within deep low high c) (hy : Within deep low high y)
    (hn : ∀ n ∈ n?, Within deep low high n) (out : Outflow) :
    Walk.Within deep (branching low id c y n? out) (branching high id c y n? out) := by
  refine .step fun out => (hc _).bind fun tested => .step fun (truthy, falsy) => ?_
  refine (hy _).bind fun yes => ?_
  cases n?
  case none   => exact .refl _
  case some n => exact (hn n rfl _).bind fun _ => .refl _

theorem applied (op : BinaryOp) (id : Syntax.Id) (hr : Within deep low high r) (out : Outflow) :
    Walk.Within deep (applied low op id r out) (applied high op id r out) := by
  cases op
  case and   => exact .step fun (_, _) => (hr _).bind fun _ => .refl _
  case or    => exact .step fun (_, _) => (hr _).bind fun _ => .refl _
  case other => exact (hr out).bind fun _ => .refl _

theorem negation (id : Syntax.Id) (ho : Within deep low high operand) (out : Outflow) :
    Walk.Within deep (negation low id operand out) (negation high id operand out) :=
  .step fun out => (ho out).bind fun _ => .refl _

theorem whileLoop (id : Syntax.Id) (hc : Within deep low high c) (hb : Within deep low high b)
    (out : Outflow) :
    Walk.Within deep (whileLoop low id c b out) (whileLoop high id c b out) := by
  refine .step fun out => .step fun header => (hc _).bind fun tested => ?_
  exact .step fun (truthy, falsy) => (hb _).bind fun _ => .refl _

theorem doWhileLoop (id : Syntax.Id) (hb : Within deep low high b) (hc : Within deep low high c)
    (out : Outflow) :
    Walk.Within deep (doWhileLoop low id b c out) (doWhileLoop high id b c out) := by
  refine .step fun out => .step fun header => .step fun entry => (hb _).bind fun looped => ?_
  exact (hc _).bind fun _ => .refl _

theorem forLoop (id : Syntax.Id) (hi : ∀ i ∈ init, Within deep low high i)
    (hc : ∀ c ∈ c?, Within deep low high c) (hu : ∀ i ∈ updates, Within deep low high i)
    (hb : Within deep low high b) (out : Outflow) :
    Walk.Within deep (forLoop low id init c? updates b out)
      (forLoop high id init c? updates b out) := by
  refine .step fun out => (sequence hi out).bind fun out => .step fun header => ?_
  cases c?
  case none   =>
    refine .step fun tested => .step fun (truthy, falsy) => .step fun _ => (hb _).bind fun _ => ?_
    exact (sequence hu _).bind fun _ => .refl _
  case some c =>
    refine (hc c rfl _).bind fun tested => .step fun (truthy, falsy) => (hb _).bind fun _ => ?_
    exact (sequence hu _).bind fun _ => .refl _

theorem jump (id : Syntax.Id) (ho : ∀ i ∈ operand?.toList, Within deep low high i) (out : Outflow) :
    Walk.Within deep (jump low id operand? out) (jump high id operand? out) :=
  (strict id ho out).bind fun _ => .refl _

-- A rule visits the parts of its construct and nothing else.
theorem construct (hb : ¬t.IsBinary id)
    (h : ∀ {kind part}, t.kind? id = some kind → part ∈ kind.children → Within deep low high part)
    (out : Outflow) : Walk.Within deep (construct low t id out) (construct high t id out) := by
  unfold Visitor.construct
  split
  case h_1         => exact .refl _
  case h_2 kind hk =>
    have h {part} (hp : part ∈ kind.children) : Within deep low high part := h hk hp
    cases kind
    case block       => exact .step fun out => sequence (fun _ hp => h hp) out
    case binary      => exact absurd (Tree.isBinary_iff.mpr ⟨_, _, _, hk⟩) hb
    case ifStmt n?   =>
      refine branching id (h (.head _)) (h (.tail _ (.head _))) (fun n hn => ?_) out
      exact h (.tail _ (.tail _ (Option.mem_toList.mpr hn)))
    case ternary     =>
      refine branching id (h (.head _)) (h (.tail _ (.head _))) (fun n hn => ?_) out
      exact h (Option.mem_some.mp hn ▸ .tail _ (.tail _ (.head _)))
    case whileStmt   => exact whileLoop id (h (.head _)) (h (.tail _ (.head _))) out
    case doWhileStmt => exact doWhileLoop id (h (.head _)) (h (.tail _ (.head _))) out
    case forStmt     =>
      refine forLoop id (fun _ hp => h ?_) (fun _ hp => h ?_) (fun _ hp => h ?_) (h ?_) out
      all_goals simp_all [Syntax.Kind.children]
    case returnStmt  => exact jump id (fun _ hp => h hp) out
    case throwStmt   =>
      refine jump id (fun _ hp => h ?_) out
      exact hp
    case parens      => exact .step fun out => h (.head _) out
    case declarator  => exact sequence (fun _ hp => h hp) out
    case unary op _  =>
      cases op
      case not   => exact negation id (h (.head _)) out
      case other => exact strict id (fun _ hp => h hp) out
    case cast        => exact strict id (fun _ hp => h hp) out
    case assignment  => exact strict id (fun _ hp => h hp) out
    case call        => exact strict id (fun _ hp => h hp) out
    case new         => exact strict id (fun _ hp => h hp) out
    case varDecl     => exact strict id (fun _ hp => h hp) out
    all_goals exact .refl _

end Within
end Visitor

-- The walk by plain recursion: a binary expression visits its left operand like any other part, and
-- nothing counts how deep the visits nest.
def visitNested (t : Tree) (settings : Settings) (id : Syntax.Id) (out : Outflow) :
    Walk Outflow :=
  if out.frontier.isEmpty && settings.unreachable = .skip then do
    Walk.skip id
    return out
  else
    -- A part that does not come before the construct could lead back to it.
    let visit : Visitor := fun part out =>
      if t.rank part < t.rank id then visitNested t settings part out
      else throw (.endlessOperands id)
    match t.kind? id with
    | some (.binary op left right) => do
      let out ← visit left out
      Visitor.applied visit op id right out
    | _ => Visitor.construct visit t id out
termination_by t.rank id

variable {levels : Nat} {out : Outflow}

-- An operator visits its right operand and nothing else.
theorem Visitor.applied_congr {visit visit' : Visitor} (hr : visit r = visit' r) :
    applied visit op id r = applied visit' op id r := by
  funext out
  unfold applied
  rw [hr]

theorem visitNested_binary (h : t.Descends) (hk : t.kind? id = some (.binary op l r))
    (hs : ¬(out.frontier.isEmpty && settings.unreachable = .skip)) :
    visitNested t settings id out =
      visitNested t settings l out >>= Visitor.applied (visitNested t settings) op id r := by
  rw [visitNested, if_neg hs, hk]
  simp only [if_pos (h.rank_lt hk (.head _))]
  refine congrArg _ (Visitor.applied_congr ?_)
  funext out
  exact if_pos (h.rank_lt hk (.tail _ (.head _)))

-- By induction down the left operands. The flow comes to each of them as it comes to the whole
-- chain, so none of them is skipped.
theorem binary_within {id l r : Syntax.Id} {op : BinaryOp} (h : t.Descends)
    (hv : ∀ id, Visitor.Within (levels ≤ t.rank id) (visit t settings levels)
      (visitNested t settings) id)
    (hk : t.kind? id = some (.binary op l r))
    (hs : ¬(out.frontier.isEmpty && settings.unreachable = .skip)) :
    Walk.Within (levels < t.rank id) (Visitor.binary (visit t settings levels) t id out)
      (visitNested t settings id out) := by
  have hl := h.rank_lt hk (.head _)
  have hr := h.rank_lt hk (.tail _ (.head _))
  rw [Visitor.binary_eq _ h hk, visitNested_binary h hk hs]
  refine .bind ?_ fun out => ?_
  case refine_1 =>
    by_cases hb : t.IsBinary l
    case pos =>
      have ⟨_, _, _, hk⟩ := Tree.isBinary_iff.mp hb
      exact (binary_within h hv hk hs).mono (Nat.lt_trans · hl)
    case neg =>
      rw [Visitor.binary_of_not_isBinary _ hb]
      exact (hv l out).mono (Nat.lt_of_le_of_lt · hl)
  case refine_2 =>
    refine Visitor.Within.applied op id (fun out => ?_) out
    exact (hv r out).mono (Nat.lt_of_le_of_lt · hr)
termination_by t.rank id

-- By induction on the levels. A part ranks below its construct, so where it nests too deep, so does
-- the construct.
theorem visit_within (h : t.Descends) (settings : Settings) (levels : Nat) (id : Syntax.Id) :
    Visitor.Within (levels ≤ t.rank id) (visit t settings levels) (visitNested t settings) id := by
  intro out
  by_cases hs : out.frontier.isEmpty && settings.unreachable = .skip
  case pos =>
    unfold visit
    rw [visitNested, if_pos hs, if_pos hs]
    exact .refl _
  case neg =>
    unfold visit
    rw [if_neg hs]
    cases levels
    case zero        => exact fun p => .inr ⟨Nat.zero_le _, id, _, rfl⟩
    case succ levels =>
      have ih := visit_within h settings levels
      by_cases hb : t.IsBinary id
      case pos =>
        obtain ⟨op, l, r, hk⟩ := Tree.isBinary_iff.mp hb
        simp only [Visitor.construct, hk]
        exact binary_within h ih hk hs
      case neg =>
        rw [visitNested, if_neg hs]
        dsimp only
        split
        case h_1 hk => exact absurd (Tree.isBinary_iff.mpr ⟨_, _, _, hk⟩) hb
        case h_2    =>
          refine Visitor.Within.construct hb (fun {kind part} hk hp out => ?_) out
          have hr := h.rank_lt hk hp
          rw [if_pos hr]
          exact (ih part out).mono fun hl => Nat.lt_of_le_of_lt hl hr

-- To take a chain of left operands from its inner end is to recurse down it. So it is for the rule,
-- whatever visits the other parts (1), and for the walk, from a binary expression (2) as from any
-- node (3): the graph, what is left out and the outflow are the same, and so is an error. The
-- exception is the limit on nesting, where the recursion has none. It is not hit if it allows more
-- levels than there are nodes up to the one at hand.
structure Recurses (t : Tree) (settings : Settings) : Prop where
  rule  (visit : Visitor) (id : Syntax.Id) (out : Outflow) :                      -- (1)
    Visitor.binary visit t id out = Visitor.nested visit t id out
  chain {id l r : Syntax.Id} {op : BinaryOp} (levels : Nat) (out : Outflow) :     -- (2)
    t.kind? id = some (.binary op l r) →
      ¬(out.frontier.isEmpty && settings.unreachable = .skip) →
        Walk.Within (levels < t.rank id) (Visitor.binary (visit t settings levels) t id out)
          (visitNested t settings l out >>= Visitor.applied (visitNested t settings) op id r)
  walk  (levels : Nat) (id : Syntax.Id) (out : Outflow) :                         -- (3)
    Walk.Within (levels ≤ t.rank id) (visit t settings levels id out)
      (visitNested t settings id out)

theorem visit_recurses (h : t.Descends) (settings : Settings) : Recurses t settings where
  rule visit := Visitor.binary_eq_nested visit h
  chain levels out hk hs := by
    rw [← visitNested_binary h hk hs]
    exact binary_within h (visit_within h settings levels) hk hs
  walk levels id out := visit_within h settings levels id out

open Syntax Build in
-- { (ready && open) + count || ...; }, where the last operand is not in the tree
def mixing : Syntax.Id × Tree :=
  mix.run .empty
where
  mix : Build Syntax.Id := do
    let ready ← identifier "ready"
    let both  ← and ready (← identifier "open")
    let sum   ← binary (.other "+") both (← identifier "count")
    block [← or sum ⟨9⟩]

theorem visit_recurses_mixing :
    mixing.2.Descends ∧
    leftChain? mixing.2 ⟨5⟩ =
      some (⟨0⟩, [⟨⟨2⟩, .and, ⟨1⟩⟩, ⟨⟨4⟩, .other "+", ⟨3⟩⟩, ⟨⟨5⟩, .or, ⟨9⟩⟩]) ∧
    (∀ out p, visit mixing.2 {} 256 ⟨5⟩ out p = visitNested mixing.2 {} ⟨5⟩ out p) ∧
    analyze mixing.2 {} mixing.1 = .error (.unknownSyntaxNode ⟨9⟩) := by
  have h : mixing.2.Descends := by decide +kernel
  refine ⟨h, by decide +kernel, fun out p => ?_, by decide +kernel⟩
  exact ((visit_recurses h {}).walk 256 ⟨5⟩ out p).resolve_right fun hd => by
    simp [Tree.rank, show mixing.2.size = 7 by decide +kernel] at hd

end Flow
end RoutineFlow
