import RoutineFlow.Proofs.Nesting
import RoutineFlow.Proofs.Plain

-- What a walk that rejects unreachable code does where no exit is open: it fails at the first
-- position that it comes to, and every construct but a declarator has one.

namespace RoutineFlow

namespace Syntax.Tree

variable {t : Tree} {id part : Id} {kind : Kind} {form : Form}

def placedOf (t : Tree) (ids : List Id) : List Id :=
  (t.visitsOf ids).filter t.isPlaced

-- The positions that the flow places from a node, in order.
def placed (t : Tree) (id : Id) : List Id :=
  t.placedOf [id]

@[simp]
theorem placedOf_nil (t : Tree) : t.placedOf [] = [] :=
  rfl

@[simp]
theorem placedOf_append (t : Tree) (ids ids' : List Id) :
    t.placedOf (ids ++ ids') = t.placedOf ids ++ t.placedOf ids' := by
  simp [placedOf]

theorem placedOf_cons (t : Tree) (id : Id) (ids : List Id) :
    t.placedOf (id :: ids) = t.placed id ++ t.placedOf ids :=
  t.placedOf_append [id] ids

-- A node that is there and that is no declarator.
def IsProper (t : Tree) (id : Id) : Prop :=
  ∃ kind, t.kind? id = some kind ∧ kind.isDeclarator = false

theorem IsExpression.isProper (h : t.IsExpression id) : t.IsProper id := by
  have ⟨kind, hk, hs⟩ := h
  refine ⟨kind, hk, ?_⟩
  cases kind
  case declarator => cases hs
  all_goals rfl

namespace WellShaped

variable (hw : t.WellShaped)
include hw

theorem placed_eq (hf : t.form? id = some form) :
    t.placed id =
      if form.comesLast then t.placedOf form.order ++ (if form.isPlaced then [id] else [])
      else id :: t.placedOf form.order := by
  have hp := isPlaced_eq hf
  simp only [placed, placedOf, visitsOf_cons, visitsOf_nil, List.append_nil, hw.visits_eq hf]
  cases form <;> simp_all [Form.comesLast, Form.isPlaced]

theorem exists_part (hf : t.form? id = some form) (hp : part ∈ form.parts) :
    ∃ kind, t.kind? part = some kind := by
  have ⟨kind, hk, _⟩ := Option.map_eq_some_iff.mp hf
  have hs : part.index < t.nodes.size := Nat.lt_trans (hw.index_lt hf hp) (lt_size_of_kind? hk)
  exact ⟨t.nodes[part.index].kind, by simp [kind?, get?, hs]⟩

theorem isProper_part (hf : t.form? id = some form) (hs : ∀ operands, form ≠ .strict operands)
    (hp : part ∈ form.parts) : t.IsProper part := by
  have ⟨kind', hk'⟩ := hw.exists_part hf hp
  have ⟨kind, hk, he⟩ := Option.map_eq_some_iff.mp hf
  subst he
  refine ⟨kind', hk', ?_⟩
  have hd := hw.declarators hk (Kind.mem_parts_form.mp hp).2
  cases kind
  case varDecl ds => exact absurd rfl (hs ds)
  all_goals simpa [hk', Kind.isVarDecl] using hd

theorem placed_ne_nil {id : Id} (h : t.IsProper id) : t.placed id ≠ [] := by
  have ⟨kind, hk, hd⟩ := h
  have hf := form?_eq hk
  rw [hw.placed_eq hf]
  cases hs : kind.form
  case shortCircuit l r =>
    rw [hs] at hf
    have hl : l ∈ (Form.shortCircuit ‹_› l r).parts := .head _
    have hb := hw.index_lt hf hl
    have hn := placed_ne_nil (hw.isProper_part hf nofun hl)
    simp [Form.comesLast, Form.order, Form.parts, placedOf_cons, hn]
  case passing =>
    cases kind
    case binary op _ _ => cases op <;> cases hs
    case unary op _    => cases op <;> cases hs
    case declarator    => cases hd
    all_goals cases hs
  all_goals simp [Form.comesLast, Form.isPlaced]
termination_by id.index

end WellShaped
end Syntax.Tree

namespace Flow

open Syntax (Tree)

variable {t : Tree} {visit : Visitor} {id : Syntax.Id} {kind : Syntax.Kind} {form : Syntax.Form}
  {out : Outflow} {levels : Nat} {enough : Prop} {found found' : List Syntax.Id}

namespace Walk

-- A step without an open exit that would place `found`. It may fail for another reason if it may
-- not nest as deep as it has to.
def Stalls (enough : Prop) (found : List Syntax.Id) (step : Walk Outflow) (out : Outflow) : Prop :=
  ∀ p, match step p with
    | .ok r    => found = [] ∧ r = (out, p)
    | .error e => enough → ∃ x, found.head? = some x ∧ e = .emptyFrontier x

namespace Stalls

variable {step : Walk Outflow} {rest : Outflow → Walk Outflow}

theorem pure : Stalls enough [] (pure out) out :=
  fun _ => ⟨rfl, rfl⟩

theorem mono {enough' : Prop} (h : Stalls enough found step out) (he : enough' → enough) :
    Stalls enough' found step out := by
  intro p
  have hp := h p
  split
  case h_1 hs => rw [hs] at hp; exact hp
  case h_2 hs => rw [hs] at hp; exact hp ∘ he

theorem bind (h : Stalls enough found step out) (hr : Stalls enough found' (rest out) out) :
    Stalls enough (found ++ found') (step >>= rest) out := by
  intro p
  have hp := h p
  rw [bind_apply]
  cases hs : step p
  case ok r =>
    rw [hs] at hp
    obtain ⟨rfl, rfl⟩ := hp
    exact hr p
  case error e =>
    rw [hs] at hp
    intro he
    have ⟨x, hx, he⟩ := hp he
    exact ⟨x, by rw [List.head?_append, hx]; rfl, he⟩

-- What would follow a position does not matter.
theorem first (h : Stalls enough found step out) (hn : found ≠ []) (found' : List Syntax.Id) :
    Stalls enough (found ++ found') (step >>= rest) out := by
  intro p
  have hp := h p
  rw [bind_apply]
  cases hs : step p
  case ok r =>
    rw [hs] at hp
    exact absurd hp.1 hn
  case error e =>
    rw [hs] at hp
    intro he
    have ⟨x, hx, he⟩ := hp he
    exact ⟨x, by rw [List.head?_append, hx]; rfl, he⟩

theorem place (he : out.frontier = []) : Stalls enough [id] (place id out) out := by
  intro p
  have hp : Walk.place id out p = .error (.emptyFrontier id) := by
    simp [Walk.place, gather, he, soleBlock?, bind_apply]
    rfl
  rw [hp]
  exact fun _ => ⟨id, rfl, rfl⟩

theorem not_ok {r : Outflow × Progress} (h : Stalls enough found step out) (hn : found ≠ [])
    (p : Progress) : step p ≠ .ok r := by
  intro hs
  have hp := h p
  rw [hs] at hp
  exact hn hp.1

end Stalls
end Walk

namespace Visitor

open Walk

namespace Chain

variable {leftmost : Syntax.Id} {links : List Link}

theorem isProper (hw : t.WellShaped) (hc : Chain t leftmost id links) (h : t.IsProper id) :
    t.IsProper leftmost := by
  induction hc
  case leftmost          => exact h
  case operator _ hk ih  => exact ih (hw.operands hk (.head _)).isProper

theorem isProper_right (hw : t.WellShaped) (hc : Chain t leftmost id links) :
    ∀ link ∈ links, t.IsProper link.right := by
  induction hc
  case leftmost => exact nofun
  case operator _ hk ih =>
    refine List.forall_mem_append.mpr ⟨ih, List.forall_mem_singleton.mpr ?_⟩
    exact (hw.operands hk (.tail _ (.head _))).isProper

theorem placed (hw : t.WellShaped) (hc : Chain t leftmost id links) :
    ∃ more, t.placed id = t.placed leftmost ++ more := by
  induction hc
  case leftmost => exact ⟨[], (List.append_nil _).symm⟩
  case operator op _ hk ih =>
    have ⟨more, hm⟩ := ih
    rw [hw.placed_eq (Syntax.Tree.form?_eq hk)]
    cases op <;>
      simp [Syntax.Kind.form, Syntax.Form.comesLast, Syntax.Form.order, Syntax.Form.parts,
        Tree.placedOf_cons, hm]

end Chain

def Stalls (t : Tree) (visit : Visitor) (levels : Nat) : Prop :=
  ∀ ⦃id kind out⦄, t.kind? id = some kind → out.frontier = [] →
    Walk.Stalls (t.levels id ≤ levels) (t.placed id) (visit id out) out

variable (hv : Stalls t visit levels) (he : out.frontier = [])
include hv he

theorem sequence_stalls (hp : ∀ i ∈ parts, ∃ kind, t.kind? i = some kind)
    (hl : enough → ∀ i ∈ parts, t.levels i ≤ levels) :
    Walk.Stalls enough (t.placedOf parts) (sequence visit parts out) out := by
  induction parts
  case nil => exact .pure
  case cons i is ih =>
    have ⟨⟨_, hk⟩, hp⟩ := List.forall_mem_cons.mp hp
    rw [Tree.placedOf_cons]
    refine .bind ((hv hk he).mono fun h => hl h i (.head _)) ?_
    exact ih hp fun h j hj => hl h j (.tail _ hj)

variable (hw : t.WellShaped)
include hw

theorem parts_stall (hf : t.form? id = some form) (hb : ¬t.IsBinary id) :
    Walk.Stalls (t.levels id ≤ levels + 1) (t.placedOf form.parts)
      (sequence visit form.parts out) out :=
  sequence_stalls hv he (fun _ => hw.exists_part hf) fun h _ hp =>
    Nat.le_of_lt_succ (Nat.lt_of_lt_of_le (hw.levels_lt hf hb hp) h)

theorem strict_stalls (hf : t.form? id = some (.strict operands)) (hb : ¬t.IsBinary id) :
    Walk.Stalls (t.levels id ≤ levels + 1) (t.placed id) (strict visit id operands out) out := by
  rw [hw.placed_eq hf]
  exact (parts_stall hv he hw hf hb).bind (.place he)

theorem passing_stalls (hf : t.form? id = some (.passing parts)) (hb : ¬t.IsBinary id) :
    Walk.Stalls (t.levels id ≤ levels + 1) (t.placed id) (sequence visit parts out) out := by
  rw [hw.placed_eq hf]
  have hs := parts_stall hv he hw hf hb
  simpa [Syntax.Form.comesLast, Syntax.Form.isPlaced, Syntax.Form.order, Syntax.Form.parts] using hs

theorem jump_stalls (hf : t.form? id = some (.jump operand?.toList)) (hb : ¬t.IsBinary id) :
    Walk.Stalls (t.levels id ≤ levels + 1) (t.placed id) (jump visit id operand? out) out := by
  have hs : Walk.Stalls (t.levels id ≤ levels + 1) (t.placed id)
      (strict visit id operand?.toList out) out := by
    rw [hw.placed_eq hf]
    exact (parts_stall hv he hw hf hb).bind (.place he)
  have hn : t.placed id ≠ [] := by
    rw [hw.placed_eq hf]
    exact List.append_ne_nil_of_right_ne_nil _ (List.cons_ne_nil _ _)
  rw [← List.append_nil (t.placed id)]
  exact hs.first hn []

omit hv in
theorem before_stalls {rest : Outflow → Walk Outflow} (hf : t.form? id = some form)
    (hl : form.comesLast = false) :
    Walk.Stalls enough (t.placed id) (place id out >>= rest) out := by
  rw [hw.placed_eq hf, hl]
  exact (Stalls.place he).first (List.cons_ne_nil _ _) _

theorem binary_stalls (hk : t.kind? id = some (.binary op l r)) :
    Walk.Stalls (t.levels id ≤ levels + 1) (t.placed id) (binary visit t id out) out := by
  have ⟨leftmost, links, hl, hc, hb⟩ := exists_chain hw hk
  have ⟨more, hm⟩ := hc.placed hw
  have hp := hc.isProper hw ⟨_, hk, rfl⟩
  have ⟨_, hk', _⟩ := hp
  have ⟨hd, _⟩ := (hc.levels_le_iff hw hb).mp (Nat.le_refl _)
  rw [binary, hl, hm]
  refine Stalls.first ((hv hk' he).mono fun h => ?_) (hw.placed_ne_nil hp) more
  have he := hw.levels_binary hk
  omega

theorem construct_stalls (hk : t.kind? id = some kind) :
    Walk.Stalls (t.levels id ≤ levels + 1) (t.placed id) (construct visit t id out) out := by
  have hf := Syntax.Tree.form?_eq hk
  have hb (h : kind.isBinary = false) : ¬t.IsBinary id := by simp [Tree.IsBinary, hk, h]
  unfold construct
  rw [hk]
  cases kind
  case binary      => exact binary_stalls hv he hw hk
  case block       => exact before_stalls he hw hf rfl
  case ifStmt      => exact before_stalls he hw hf rfl
  case ternary     => exact before_stalls he hw hf rfl
  case whileStmt   => exact before_stalls he hw hf rfl
  case doWhileStmt => exact before_stalls he hw hf rfl
  case forStmt     => exact before_stalls he hw hf rfl
  case parens      => exact before_stalls he hw hf rfl
  case returnStmt  => exact jump_stalls hv he hw hf (hb rfl)
  case throwStmt   => exact jump_stalls hv he hw hf (hb rfl)
  case declarator  => exact passing_stalls hv he hw hf (hb rfl)
  case unary op _  =>
    cases op
    case not   => exact before_stalls he hw hf rfl
    case other => exact strict_stalls hv he hw hf (hb rfl)
  case cast        => exact strict_stalls hv he hw hf (hb rfl)
  case assignment  => exact strict_stalls hv he hw hf (hb rfl)
  case call        => exact strict_stalls hv he hw hf (hb rfl)
  case new         => exact strict_stalls hv he hw hf (hb rfl)
  case varDecl     => exact strict_stalls hv he hw hf (hb rfl)
  all_goals
    have hf' : t.form? id = some (.strict []) := hf
    exact strict_stalls hv he hw hf' (hb rfl)

end Visitor

theorem visit_stalls (hw : t.WellShaped) (maxDepth levels : Nat) :
    Visitor.Stalls t (Flow.visit t { unreachable := .reject, maxDepth } levels) levels := by
  induction levels
  case zero =>
    intro id kind out hk he p
    have ht : Flow.visit t { unreachable := .reject, maxDepth } 0 id out p =
        .error (.nestingTooDeep id maxDepth) := by
      simp [Flow.visit]
      rfl
    rw [ht]
    exact fun h => absurd (hw.levels_pos id) (Nat.not_lt_of_le h)
  case succ levels ih =>
    intro id kind out hk he
    have hc := Visitor.construct_stalls ih he hw hk
    simpa [Flow.visit] using hc

end Flow
end RoutineFlow
