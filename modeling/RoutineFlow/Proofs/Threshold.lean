import RoutineFlow.Proofs.Policies

-- What the limit on nesting does. A walk under a low limit takes the steps of one under a high
-- limit up to the first visit that lies too deep, and there it fails; if no visit does, both end
-- alike.

namespace RoutineFlow

theorem findSome?_cons_or (f : α → Option β) (a : α) (as : List α) :
    (a :: as).findSome? f = (f a).or (as.findSome? f) := by
  rw [List.findSome?_cons]
  cases f a <;> rfl

namespace Syntax

-- The visits that a visit leads to, its own first, in their order and each with the number of
-- visits around it. Operands along a chain are visited by what is above the chain.
structure Descent where
  visits : List (Id × Nat)
  chain  : List (Id × Nat)

namespace Descent

def inward (visits : List (Id × Nat)) : List (Id × Nat) :=
  visits.map fun (id, depth) => (id, depth + 1)

-- The first visit that lies under `limit` others.
def firstDeep (limit : Nat) (visits : List (Id × Nat)) : Option Id :=
  (visits.find? (limit ≤ ·.2)).map (·.1)

variable {n : Nat} {visits : List (Id × Nat)}

theorem firstDeep_append (n : Nat) (visits visits' : List (Id × Nat)) :
    firstDeep n (visits ++ visits') = (firstDeep n visits).or (firstDeep n visits') := by
  rw [firstDeep, List.find?_append, Option.map_or]
  rfl

theorem firstDeep_flatMap (n : Nat) (f : α → List (Id × Nat)) (as : List α) :
    firstDeep n (as.flatMap f) = as.findSome? fun a => firstDeep n (f a) := by
  induction as
  case nil          => rfl
  case cons a as ih => rw [List.flatMap_cons, firstDeep_append, ih, findSome?_cons_or]

theorem firstDeep_zero (id : Id) (depth : Nat) (visits : List (Id × Nat)) :
    firstDeep 0 ((id, depth) :: visits) = some id := by
  simp [firstDeep]

theorem firstDeep_succ (n : Nat) (id : Id) (visits : List (Id × Nat)) :
    firstDeep (n + 1) ((id, 0) :: inward visits) = firstDeep n visits := by
  simp [firstDeep, inward, Function.comp_def]

end Descent

open Descent

namespace Tree

variable {t : Tree} {id part l r scope : Id} {kind : Kind} {form : Form} {n : Nat}

def descending : Scheme Descent where
  missing id     := ⟨[(id, 0)], [(id, 0)]⟩
  make id kind v :=
    match kind with
    | .binary _ l r =>
      let operands := (v l).chain ++ (v r).visits
      ⟨(id, 0) :: inward operands, operands⟩
    | kind =>
      let visits := (id, 0) :: inward (kind.form.order.flatMap fun part => (v part).visits)
      ⟨visits, visits⟩
  congr {_ kind v v'} h := by
    have hp : (kind.form.order.flatMap fun part => (v part).visits) =
        kind.form.order.flatMap fun part => (v' part).visits :=
      List.flatMap_congr fun part hp => congrArg Descent.visits (h part (Form.mem_order.mp hp))
    cases kind
    case binary op l r =>
      have hl : v l = v' l := h l (by cases op <;> exact .head _)
      have hr : v r = v' r := h r (by cases op <;> exact .tail _ (.head _))
      simp only [hl, hr]
    all_goals simp only [hp]

def descent (t : Tree) (id : Id) : List (Id × Nat) :=
  (t.fold descending id).visits

def chainDescent (t : Tree) (id : Id) : List (Id × Nat) :=
  (t.fold descending id).chain

-- How deep the visits of a routine body nest.
def nest (t : Tree) (scope : Id) : Nat :=
  ((t.children scope).map t.levels).max?.getD 0

-- What is visited from a routine body, in order.
def bodyDescent (t : Tree) (scope : Id) : List (Id × Nat) :=
  (t.children scope).flatMap t.descent

def deep? (t : Tree) (n : Nat) (id : Id) : Option Id :=
  firstDeep n (t.descent id)

namespace WellShaped

variable (hw : t.WellShaped)
include hw

theorem descent_eq (hk : t.kind? id = some kind) (hb : kind.isBinary = false) :
    t.descent id = (id, 0) :: inward (kind.form.order.flatMap t.descent) := by
  rw [descent, hw.fold_eq descending hk]
  cases kind
  case binary => cases hb
  all_goals rfl

theorem chainDescent_eq (hb : ¬t.IsBinary id) : t.chainDescent id = t.descent id := by
  rw [chainDescent, descent]
  cases hk : t.kind? id
  case none => rw [fold_of_kind?_eq_none descending hk]; rfl
  case some kind =>
    rw [hw.fold_eq descending hk]
    cases kind
    case binary => simp [IsBinary, hk, Kind.isBinary] at hb
    all_goals rfl

theorem descent_binary (hk : t.kind? id = some (.binary op l r)) :
    t.descent id = (id, 0) :: inward (t.chainDescent id) := by
  rw [descent, chainDescent, hw.fold_eq descending hk]
  rfl

theorem chainDescent_binary (hk : t.kind? id = some (.binary op l r)) :
    t.chainDescent id = t.chainDescent l ++ t.descent r := by
  rw [chainDescent, hw.fold_eq descending hk]
  rfl

theorem deep?_zero (id : Id) : t.deep? 0 id = some id := by
  rw [deep?]
  cases hk : t.kind? id
  case none => rw [descent, fold_of_kind?_eq_none descending hk]; exact firstDeep_zero ..
  case some kind =>
    cases hb : kind.isBinary
    case false => rw [hw.descent_eq hk hb, firstDeep_zero]
    case true  =>
      cases kind
      case binary => rw [hw.descent_binary hk, firstDeep_zero]
      all_goals cases hb

theorem deep?_succ (hk : t.kind? id = some kind) (hb : kind.isBinary = false) :
    t.deep? (n + 1) id = kind.form.order.findSome? (t.deep? n) := by
  rw [deep?, hw.descent_eq hk hb, firstDeep_succ, firstDeep_flatMap]
  rfl

end WellShaped
end Tree
end Syntax

namespace Flow

open Syntax (Tree Kind searching)
open Syntax.Descent (firstDeep firstDeep_append firstDeep_flatMap firstDeep_succ)

variable {t : Tree} {id leftmost scope : Syntax.Id} {links : List Link} {n : Nat}

namespace Visitor

theorem Chain.deep (hw : t.WellShaped) (hc : Chain t leftmost id links)
    (hb : ¬t.IsBinary leftmost) :
    firstDeep n (t.chainDescent id) =
      (leftmost :: links.map Link.right).findSome? (t.deep? n) := by
  induction hc
  case leftmost => rw [hw.chainDescent_eq hb, List.map_nil, List.findSome?_singleton]; rfl
  case operator hk ih =>
    rw [hw.chainDescent_binary hk, firstDeep_append, ih, List.map_append,
      ← List.cons_append, List.findSome?_append, List.map_singleton, List.findSome?_singleton]
    rfl

end Visitor

theorem max?_getD_le_iff {ns : List Nat} : ns.max?.getD 0 ≤ n ↔ ∀ m ∈ ns, m ≤ n := by
  cases hm : ns.max?
  case none   => simp [List.max?_eq_none_iff.mp hm]
  case some m => exact List.max?_le_iff hm

-- No visit lies too deep just where the levels suffice.
theorem deep?_eq_none_iff (hw : t.WellShaped) : t.deep? n id = none ↔ t.levels id ≤ n := by
  induction n generalizing id
  case zero =>
    have hl := hw.levels_pos id
    simp [hw.deep?_zero, Nat.ne_of_gt hl]
  case succ n ih =>
    cases hk : t.kind? id
    case none =>
      simp [Tree.deep?, Tree.descent, Tree.levels, Tree.fold_of_kind?_eq_none _ hk, Tree.descending,
        Tree.nesting, firstDeep]
    case some kind =>
      cases hb : kind.isBinary
      case false =>
        have hb' : ¬t.IsBinary id := by simp [Tree.IsBinary, hk, hb]
        rw [hw.deep?_succ hk hb, hw.levels_eq (Tree.form?_eq hk) hb', List.findSome?_eq_none_iff,
          Nat.succ_le_succ_iff, max?_getD_le_iff, List.forall_mem_map]
        exact forall_congr' fun part => imp_congr Syntax.Form.mem_order ih
      case true =>
        cases kind
        case binary =>
          obtain ⟨leftmost, links, _, hc, hb'⟩ := exists_chain hw hk
          rw [Tree.deep?, hw.descent_binary hk, firstDeep_succ, hc.deep hw hb',
            List.findSome?_eq_none_iff, hw.levels_binary hk, Nat.succ_le_succ_iff,
            hc.levels_le_iff hw hb', List.forall_mem_cons, List.forall_mem_map]
          exact and_congr ih (forall_congr' fun link => imp_congr_right fun _ => ih)
        all_goals cases hb

namespace Walk

variable {policy : Policy} {limit : Nat} {deep? deep?' : Option Syntax.Id}

-- A walk under a low limit and one under a high limit that leaves code out, which only ever adds to
-- its list (1). Where nothing is added, the low limit changes nothing but that the first visit that
-- lies too deep fails (2). Under one policy, what succeeds goes on to succeed as limits rise (3).
structure Limited (policy : Policy) (limit : Nat) (deep? : Option Syntax.Id)
    (low high : Walk α) : Prop where
  grows : ∀ {p a p'}, high p = .ok (a, p') → p.unreachable <+: p'.unreachable             -- (1)
  falls : ∀ {p a p'}, high p = .ok (a, p') → p'.unreachable = p.unreachable →            -- (2)
    low p = deep?.elim (.ok (a, p')) fun id => .error (.nestingTooDeep id limit)
  rises : ∀ {p r}, policy = .skip → low p = .ok r → high p = .ok r                        -- (3)

theorem Plain.limited {step : Walk α} (h : Plain E step) : Limited policy limit none step step where
  grows he   := h.steady he ▸ List.prefix_rfl
  falls he _ := he
  rises _ he := he

namespace Limited

theorem pure (a : α) : Limited policy limit none (pure a) (pure a) :=
  (Plain.pure (E := fun _ => True) a).limited

theorem throw (e : Error) : Limited policy limit deep? (throw e : Walk α) (throw e) :=
  ⟨nofun, nofun, nofun⟩

theorem bind {low high : Walk α} {f g : α → Walk β} (h : Limited policy limit deep? low high)
    (hf : ∀ a, Limited policy limit deep?' (f a) (g a)) :
    Limited policy limit (deep?.or deep?') (low >>= f) (high >>= g) where
  grows he :=
    have ⟨a, _, h₁, h₂⟩ := bind_eq_ok_iff.mp he
    (h.grows h₁).trans ((hf a).grows h₂)
  falls {p b p'} he hu := by
    have ⟨a, p₁, h₁, h₂⟩ := bind_eq_ok_iff.mp he
    -- What was left out in between would still be listed at the end.
    have hp₁ := h.grows h₁
    have hp₂ := (hf a).grows h₂
    rw [hu] at hp₂
    have hu₁ := hp₂.eq_of_length_le hp₁.length_le
    rw [bind_apply, h.falls h₁ hu₁]
    cases deep?
    case none   => exact (hf a).falls h₂ (hu.trans hu₁.symm)
    case some _ => rfl
  rises hp he :=
    have ⟨a, p₁, h₁, h₂⟩ := bind_eq_ok_iff.mp he
    bind_eq_ok_iff.mpr ⟨a, p₁, h.rises hp h₁, (hf a).rises hp h₂⟩

-- Nothing is visited any more.
theorem done {low high : Walk α} {f g : α → Walk β} (h : Limited policy limit deep? low high)
    (hf : ∀ a, Limited policy limit none (f a) (g a)) :
    Limited policy limit deep? (low >>= f) (high >>= g) := by
  have hb := h.bind hf
  rwa [Option.or_none] at hb

theorem get_bind {f g : Progress → Walk α} (h : ∀ p, Limited policy limit deep? (f p) (g p)) :
    Limited policy limit deep? (get >>= f) (get >>= g) where
  grows {p _ _} he := (h p).grows he
  falls {p _ _} he := (h p).falls he
  rises {p _} hp he := (h p).rises hp he

end Limited

theorem Plain.next {step : Walk α} {f g : α → Walk β} (h : Plain E step)
    (hf : ∀ a, Limited policy limit deep? (f a) (g a)) :
    Limited policy limit deep? (step >>= f) (step >>= g) :=
  h.limited.bind hf

end Walk

namespace Visitor

open Walk

variable {policy : Policy} {limit : Nat} {low high : Visitor} {parts is : List Syntax.Id}
  {i condition yes body operand : Syntax.Id}

-- The visits of parts under a low and a high limit, where `n` levels are left under the low one.
def Limits (t : Tree) (policy : Policy) (limit n : Nat) (low high : Visitor) : Prop :=
  ∀ id out, Limited policy limit (t.deep? n id) (low id out) (high id out)

namespace Limits

variable (h : Limits t policy limit n low high)
include h

theorem last (i : Syntax.Id) (out : Outflow) :
    Limited policy limit ([i].findSome? (t.deep? n)) (low i out) (high i out) := by
  rw [List.findSome?_singleton]
  exact h i out

theorem next {f g : Outflow → Walk α}
    (hf : ∀ out, Limited policy limit (is.findSome? (t.deep? n)) (f out) (g out)) (out : Outflow) :
    Limited policy limit ((i :: is).findSome? (t.deep? n)) (low i out >>= f)
      (high i out >>= g) := by
  rw [findSome?_cons_or]
  exact (h i out).bind hf

theorem sequence (parts : List Syntax.Id) (out : Outflow) :
    Limited policy limit (parts.findSome? (t.deep? n)) (sequence low parts out)
      (sequence high parts out) := by
  induction parts generalizing out
  case nil            => exact .pure out
  case cons i is ih   => exact h.next ih out

theorem sequence_next {f g : Outflow → Walk α}
    (hf : ∀ out, Limited policy limit (is.findSome? (t.deep? n)) (f out) (g out)) (out : Outflow) :
    Limited policy limit ((parts ++ is).findSome? (t.deep? n))
      (Visitor.sequence low parts out >>= f) (Visitor.sequence high parts out >>= g) := by
  rw [List.findSome?_append]
  exact (h.sequence parts out).bind hf

theorem strict (id : Syntax.Id) (operands : List Syntax.Id) (out : Outflow) :
    Limited policy limit (operands.findSome? (t.deep? n)) (strict low id operands out)
      (strict high id operands out) :=
  (h.sequence operands out).done fun out => (place_plain id out).limited

theorem jump (id : Syntax.Id) (operand? : Option Syntax.Id) (out : Outflow) :
    Limited policy limit (operand?.toList.findSome? (t.deep? n)) (jump low id operand? out)
      (jump high id operand? out) :=
  (h.strict id operand?.toList out).done fun _ => .pure _

theorem branching (id condition yes : Syntax.Id) (no? : Option Syntax.Id) (out : Outflow) :
    Limited policy limit ((condition :: yes :: no?.toList).findSome? (t.deep? n))
      (branching low id condition yes no? out) (branching high id condition yes no? out) := by
  refine (place_plain id out).next fun out => ?_
  refine h.next (fun tested => ?_) _
  refine (fork_plain true tested.frontier).next fun (truthy, falsy) => ?_
  refine h.next (fun yes => ?_) _
  cases no?
  case none    => exact .pure _
  case some no => exact h.next (fun _ => .pure _) _

theorem shortCircuit (on : Bool) (r : Syntax.Id) (out : Outflow) :
    Limited policy limit ([r].findSome? (t.deep? n)) (shortCircuit low on r out)
      (shortCircuit high on r out) := by
  refine (fork_plain on out.frontier).next fun (evaluate, skipped) => ?_
  exact h.next (fun _ => .pure _) _

theorem operator (link : Link) (out : Outflow) :
    Limited policy limit ([link.right].findSome? (t.deep? n)) (operator low link out)
      (operator high link out) := by
  unfold Visitor.operator
  cases link.op
  case and   => exact h.shortCircuit true link.right out
  case or    => exact h.shortCircuit false link.right out
  case other => exact h.strict link.node [link.right] out

theorem operators (links : List Link) (out : Outflow) :
    Limited policy limit ((links.map Link.right).findSome? (t.deep? n))
      (links.foldlM (fun out link => Visitor.operator low link out) out)
      (links.foldlM (fun out link => Visitor.operator high link out) out) := by
  induction links generalizing out
  case nil => exact .pure out
  case cons link links ih =>
    rw [List.map_cons, ← List.singleton_append, List.findSome?_append]
    exact (h.operator link out).bind ih

theorem binary (hw : t.WellShaped) (hk : t.kind? id = some (.binary op l r)) (out : Outflow) :
    Limited policy limit (t.deep? (n + 1) id) (binary low t id out) (binary high t id out) := by
  have ⟨leftmost, links, hl, hc, hb⟩ := exists_chain hw hk
  simp only [Visitor.binary, hl]
  rw [Tree.deep?, hw.descent_binary hk, firstDeep_succ, hc.deep hw hb]
  exact h.next (h.operators links) out

theorem negation (id operand : Syntax.Id) (out : Outflow) :
    Limited policy limit ([operand].findSome? (t.deep? n)) (negation low id operand out)
      (negation high id operand out) := by
  refine (place_plain id out).next fun out => ?_
  refine h.next (fun out => ?_) _
  exact (negate_plain out.frontier).next fun _ => .pure _

theorem whileLoop (id condition body : Syntax.Id) (out : Outflow) :
    Limited policy limit ([condition, body].findSome? (t.deep? n))
      (whileLoop low id condition body out) (whileLoop high id condition body out) := by
  refine (place_plain id out).next fun out => ?_
  refine (gather_plain id out.frontier).next fun header => ?_
  refine h.next (fun tested => ?_) _
  refine (fork_plain true tested.frontier).next fun (truthy, falsy) => ?_
  refine h.next (fun looped => ?_) _
  refine (loopEntry_plain header).next fun entry => ?_
  exact (connectAll_plain looped.frontier entry).next fun _ => .pure _

theorem doWhileLoop (id body condition : Syntax.Id) (out : Outflow) :
    Limited policy limit ([body, condition].findSome? (t.deep? n))
      (doWhileLoop low id body condition out) (doWhileLoop high id body condition out) := by
  refine (place_plain id out).next fun out => ?_
  refine (gather_plain id out.frontier).next fun header => ?_
  refine (grow_block_plain header).next fun entry => ?_
  refine h.next (fun looped => ?_) _
  refine h.next (fun tested => ?_) _
  refine (fork_plain true tested.frontier).next fun (truthy, falsy) => ?_
  exact (connectAll_plain truthy entry).next fun _ => .pure _

theorem forLoop (id : Syntax.Id) (init : List Syntax.Id) (condition? : Option Syntax.Id)
    (updates : List Syntax.Id) (body : Syntax.Id) (out : Outflow) :
    Limited policy limit
      ((init ++ condition?.toList ++ [body] ++ updates).findSome? (t.deep? n))
      (forLoop low id init condition? updates body out)
      (forLoop high id init condition? updates body out) := by
  refine (place_plain id out).next fun out => ?_
  rw [List.append_assoc, List.append_assoc]
  refine h.sequence_next (fun out => ?_) out
  refine (gather_plain id out.frontier).next fun header => ?_
  have hr (out : Outflow) (truthy falsy : List Exit) :
      Limited policy limit (([body] ++ updates).findSome? (t.deep? n)) (do
      let looped ← low body { frontier := truthy }
      let out := out.absorb looped
      let updated ← Visitor.sequence low updates { frontier := looped.frontier }
      let out := out.absorb updated
      connectAll updated.frontier (← loopEntry header)
      return { out with frontier := falsy, terminates := false }) (do
      let looped ← high body { frontier := truthy }
      let out := out.absorb looped
      let updated ← Visitor.sequence high updates { frontier := looped.frontier }
      let out := out.absorb updated
      connectAll updated.frontier (← loopEntry header)
      return { out with frontier := falsy, terminates := false }) := by
    refine h.next (fun looped => ?_) _
    refine (h.sequence updates _).done fun updated => ?_
    refine (loopEntry_plain header).next fun entry => ?_
    exact (connectAll_plain updated.frontier entry).next fun _ => .pure _
  cases condition?
  case none =>
    refine (Limited.pure _).bind fun tested => ?_
    refine (fork_plain true tested.frontier).next fun (truthy, falsy) => ?_
    exact (forget_plain (truthy ++ falsy)).next fun _ => hr _ truthy falsy
  case some c =>
    refine h.next (fun tested => ?_) _
    exact (fork_plain true tested.frontier).next fun (truthy, falsy) => hr _ truthy falsy

theorem construct (hw : t.WellShaped) (id : Syntax.Id) (out : Outflow) :
    Limited policy limit (t.deep? (n + 1) id) (construct low t id out)
      (construct high t id out) := by
  unfold Visitor.construct
  split
  case h_1 => exact .throw _
  case h_2 kind hk =>
    have hd := hw.deep?_succ (n := n) hk
    cases kind
    case binary => exact h.binary hw hk out
    all_goals rw [hd rfl]
    case block       => exact (place_plain id out).next fun out => h.sequence _ out
    case ifStmt      => exact h.branching ..
    case ternary     => exact h.branching ..
    case whileStmt   => exact h.whileLoop ..
    case doWhileStmt => exact h.doWhileLoop ..
    case forStmt     => exact h.forLoop ..
    case returnStmt  => exact h.jump ..
    case throwStmt   => exact h.jump id (some _) out
    case parens      => exact (place_plain id out).next fun out => h.last _ out
    case declarator  => exact h.sequence ..
    case unary op _  =>
      cases op
      case not   => exact h.negation ..
      case other => exact h.strict ..
    case cast        => exact h.strict ..
    case assignment  => exact h.strict ..
    case call        => exact h.strict ..
    case new         => exact h.strict ..
    case varDecl     => exact h.strict ..
    all_goals exact (place_plain id out).limited

end Limits
end Visitor
open Walk

variable {policy : Policy} {limit maxDepth levels enough : Nat} {settings : Settings} {s : Summary}

theorem visit_limits_of_nil {out : Outflow} (he : out.frontier = []) (policy : Policy)
    (limit maxDepth n levels : Nat) (id : Syntax.Id) (deep? : Option Syntax.Id) :
    Limited policy limit deep?
      (visit t { unreachable := policy, maxDepth := limit } n id out)
      (visit t { unreachable := .skip, maxDepth } levels id out) where
  grows hs := by
    rw [visit_skips he] at hs
    cases hs
    exact List.prefix_append _ _
  falls hs hu := by
    rw [visit_skips he] at hs
    cases hs
    simp at hu
  rises hp hs := by
    subst hp
    rw [visit_skips he] at hs ⊢
    exact hs

theorem visit_limits (hw : t.WellShaped) (policy : Policy) (limit maxDepth : Nat)
    (hn : n ≤ levels) :
    Visitor.Limits t policy limit n
      (visit t { unreachable := policy, maxDepth := limit } n)
      (visit t { unreachable := .skip, maxDepth } levels) := by
  induction n generalizing levels
  case zero =>
    intro id out
    by_cases he : out.frontier = []
    case pos => exact visit_limits_of_nil he ..
    case neg =>
      have hg : Agrees (visit t { unreachable := .reject, maxDepth } levels id out) _ :=
        (visit_agree hw maxDepth levels).visits (.inr he)
      rw [visit_zero he, hw.deep?_zero]
      exact ⟨hg.grows, fun _ _ => rfl, fun _ => nofun⟩
  case succ n ih =>
    intro id out
    obtain _ | levels := levels
    case zero => exact absurd hn (Nat.not_succ_le_zero n)
    by_cases he : out.frontier = []
    case pos => exact visit_limits_of_nil he ..
    case neg =>
      rw [visit_succ he, visit_succ he]
      exact (ih (Nat.le_of_succ_le_succ hn)).construct hw id out

theorem visitBody_limits (hw : t.WellShaped) (policy : Policy) (hn : limit ≤ maxDepth)
    (scope : Syntax.Id) (out : Outflow) :
    Limited policy limit (firstDeep limit (t.bodyDescent scope))
      (visitBody t { unreachable := policy, maxDepth := limit } scope out)
      (visitBody t { unreachable := .skip, maxDepth } scope out) := by
  rw [Tree.bodyDescent, Tree.children]
  unfold visitBody
  split
  case h_1 => exact .throw _
  case h_3 => exact .throw _
  case h_2 statements isStatic hk =>
    rw [hk, Option.elim_some, firstDeep_flatMap]
    refine (place_plain scope out).next fun out => ?_
    refine ((visit_limits hw policy limit maxDepth hn).sequence statements out).done fun out => ?_
    exact (close_plain out).limited

theorem walkBody_limits (hw : t.WellShaped) (policy : Policy) (hn : limit ≤ maxDepth)
    (scope : Syntax.Id) :
    Limited policy limit (firstDeep limit (t.bodyDescent scope))
      (walkBody t { unreachable := policy, maxDepth := limit } scope)
      (walkBody t { unreachable := .skip, maxDepth } scope) := by
  have hg : Plain (fun _ => True) (grow .start) := .grow fun _ => trivial
  refine hg.next fun start => ?_
  refine (visitBody_limits hw policy hn scope _).done fun out => ?_
  split
  case h_1 finish _ =>
    refine .get_bind fun p => ?_
    split
    case isTrue  => exact .pure _
    case isFalse => exact .throw _
  case h_2 => exact .throw _

theorem firstDeep_bodyDescent_eq_none_iff (hw : t.WellShaped) :
    firstDeep limit (t.bodyDescent scope) = none ↔ t.nest scope ≤ limit := by
  rw [Tree.bodyDescent, firstDeep_flatMap, List.findSome?_eq_none_iff, Tree.nest,
    max?_getD_le_iff, List.forall_mem_map]
  exact forall_congr' fun id => imp_congr_right fun _ => deep?_eq_none_iff hw

theorem analyze_eq_error {e : Error} (h : walkBody t settings scope {} = .error e) :
    analyze t settings scope = .error e := by
  unfold analyze StateT.run
  rw [h]
  rfl

-- Where some limit lets a body without dead code pass, the limits that do are those that its
-- nesting does not go beyond, and what comes out is the same. The others stop it at the first visit
-- that lies too deep.
theorem analyze_threshold (hw : t.WellShaped)
    (ha : analyze t { unreachable := .reject, maxDepth := enough } scope = .ok s)
    (settings : Settings) :
    ((∃ s, analyze t settings scope = .ok s) ↔ t.nest scope ≤ settings.maxDepth) ∧
    (t.nest scope ≤ settings.maxDepth → analyze t settings scope = .ok s) ∧
    (settings.maxDepth < t.nest scope →
      ∃ id, firstDeep settings.maxDepth (t.bodyDescent scope) = some id ∧
        analyze t settings scope = .error (.nestingTooDeep id settings.maxDepth)) := by
  have ⟨policy, limit⟩ := settings
  have ⟨hs, hu⟩ := (analyze_reject_iff hw enough scope).mp ha
  rw [analyze_eq_ok_iff] at hs
  -- The body passes under the higher of the two limits, to which the other is compared.
  have hh := (walkBody_limits hw .skip (Nat.le_max_left enough limit) scope).rises rfl hs
  have hl := (walkBody_limits hw policy (Nat.le_max_right enough limit) scope).falls hh hu
  have hpass (hn : t.nest scope ≤ limit) :
      analyze t { unreachable := policy, maxDepth := limit } scope = .ok s := by
    rw [analyze_eq_ok_iff, hl, (firstDeep_bodyDescent_eq_none_iff hw).mpr hn]
    rfl
  have hstop (hn : limit < t.nest scope) :
      ∃ id, firstDeep limit (t.bodyDescent scope) = some id ∧
        analyze t { unreachable := policy, maxDepth := limit } scope =
          .error (.nestingTooDeep id limit) := by
    cases hd : firstDeep limit (t.bodyDescent scope)
    case none    =>
      exact absurd ((firstDeep_bodyDescent_eq_none_iff hw).mp hd) (Nat.not_le_of_gt hn)
    case some id =>
      rw [hd] at hl
      exact ⟨id, rfl, analyze_eq_error hl⟩
  refine ⟨⟨fun ⟨s, hs⟩ => ?_, fun hn => ⟨s, hpass hn⟩⟩, hpass, hstop⟩
  by_contra hn
  have ⟨id, _, he⟩ := hstop (Nat.lt_of_not_le hn)
  cases hs.symm.trans he

theorem analyze_threshold_searching :
    searching.2.WellShaped ∧
    ∃ s, analyze searching.2 {} searching.1 = .ok s ∧
      analyze searching.2 { unreachable := .skip, maxDepth := 4 } searching.1 = .ok s ∧
      ∃ id, analyze searching.2 { maxDepth := 3 } searching.1 = .error (.nestingTooDeep id 3) := by
  have hw : searching.2.WellShaped := by decide +kernel
  have ⟨s, h⟩ : ∃ s, analyze searching.2 {} searching.1 = .ok s :=
    exists_of_isSome (by decide +kernel)
  have ⟨hi, hpass, _⟩ := analyze_threshold hw h { unreachable := .skip, maxDepth := 4 }
  have ⟨hi', _, hstop⟩ := analyze_threshold hw h { maxDepth := 3 }
  have hn : searching.2.nest searching.1 ≤ 4 :=
    hi.mp (exists_of_isSome (by decide +kernel))
  have hn' : 3 < searching.2.nest searching.1 := by
    refine Nat.lt_of_not_le fun hle => ?_
    have ⟨_, hs⟩ := hi'.mpr hle
    have hf : (analyze searching.2 { maxDepth := 3 } searching.1).isOk = false := by decide +kernel
    cases hs ▸ hf
  have ⟨id, _, he⟩ := hstop hn'
  exact ⟨hw, s, h, hpass hn, id, he⟩

end Flow
end RoutineFlow
