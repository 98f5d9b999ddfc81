import RoutineFlow.Flow.Analysis
import RoutineFlow.Proofs.Promotion

-- What the visit of a construct leaves behind: exits that account for every open slot, and a graph
-- in which the construct is laid out whatever is added later. Each rule is shown to keep to this if
-- the visits of the parts do.

namespace RoutineFlow.Flow

open Syntax (Tree)

variable {t : Tree} {visit : Visitor} {task : Task} {id : Syntax.Id} {out out' : Outflow}
  {p p₁ p₂ p' : Progress} {parked parked' exits exits' exits₁ exits₂ left left' : List Exit}
  {dead dead' : List Syntax.Id} {g : Graph}

-- A task that took over `exits`, left off at `exits'` and jumped out at `left`; those of `parked`
-- were left alone.
structure Flows (t : Tree) (task : Task) (parked exits : List Exit) (p : Progress)
    (exits' left : List Exit) (dead : List Syntax.Id) (p' : Progress) : Prop where
  underway    : p'.graph.Underway (exits' ++ (left ++ parked))
  keeps       : Graph.Keeps parked p.graph p'.graph
  unreachable : p'.unreachable = p.unreachable ++ dead
  laid        : ∀ {g}, p'.graph.Grows g → Laid g t task p.graph.size (p.graph.looseEnds exits)
    p'.graph.size (p'.graph.looseEnds exits') (p'.graph.looseEnds left) dead

namespace Flows

theorem laid_later (h : Flows t task parked exits p exits' left dead p₁)
    (hk : Graph.Keeps parked' p₁.graph p₂.graph) (hs : left ⊆ parked') (hg : p₂.graph.Grows g) :
    Laid g t task p.graph.size (p.graph.looseEnds exits) p₁.graph.size
      (p₁.graph.looseEnds exits') (p₂.graph.looseEnds left) dead := by
  rw [hk.looseEnds left hs]
  exact h.laid (hk.grows.trans hg)

theorem nil (h : p.graph.Underway (exits ++ parked)) :
    Flows t (.parts []) parked exits p exits [] [] p where
  underway    := h
  keeps       := .refl
  unreachable := (List.append_nil _).symm
  laid _      := .nil

theorem cons {i : Syntax.Id} (h₁ : Flows t (.node i) parked exits p exits₁ left dead p₁)
    (h₂ : Flows t (.parts is) (left ++ parked) exits₁ p₁ exits₂ left' dead' p₂) :
    Flows t (.parts (i :: is)) parked exits p exits₂ (left ++ left') (dead ++ dead') p₂ where
  underway    := h₂.underway.reorder _ (by simp [List.count_append]; omega)
  keeps       := h₁.keeps.trans h₂.keeps.drop
  unreachable := by rw [h₂.unreachable, h₁.unreachable, List.append_assoc]
  laid hg     := by
    rw [Graph.looseEnds_append]
    exact .cons (h₁.laid_later h₂.keeps (by simp) hg) (h₂.laid hg)

end Flows

-- A visit that added what it found to an outflow.
def Delivers (t : Tree) (task : Task) (parked : List Exit) (out : Outflow) (p : Progress)
    (out' : Outflow) (p' : Progress) : Prop :=
  ∃ left dead, out'.leaving = out.leaving ++ left ∧
    ((out.terminates → out.frontier = []) → out'.terminates → out'.frontier = []) ∧
    Flows t task parked out.frontier p out'.frontier left dead p'

namespace Visitor

open Walk

def Sound (t : Tree) (visit : Visitor) : Prop :=
  ∀ ⦃id out parked p⦄, p.graph.Underway (out.frontier ++ parked) →
    Meets (visit id out) p (Delivers t (.node id) parked out p)

theorem Sound.fresh (hv : Sound t visit) (h : p.graph.Underway (exits ++ parked)) :
    Meets (visit id { frontier := exits }) p fun out p' => ∃ dead,
      (out.terminates → out.frontier = []) ∧
      Flows t (.node id) parked exits p out.frontier out.leaving dead p' := by
  refine (hv h).mono fun out' p' ⟨left, dead, hl, ht, hf⟩ => ⟨dead, ht nofun, ?_⟩
  rw [hl]
  exact hf

theorem sequence_meets (hv : Sound t visit) (parts : List Syntax.Id)
    (h : p.graph.Underway (out.frontier ++ parked)) :
    Meets (sequence visit parts out) p (Delivers t (.parts parts) parked out p) := by
  induction parts generalizing out p parked
  case nil => exact .pure ⟨[], [], (List.append_nil _).symm, id, .nil h⟩
  case cons i is ih =>
    refine (hv h).bind fun out₁ p₁ ⟨left, dead, hl, ht, hf⟩ => ?_
    refine (ih hf.underway).mono fun out₂ p₂ ⟨left', dead', hl', ht', hf'⟩ => ?_
    exact ⟨_, _, by rw [hl', hl, List.append_assoc], ht' ∘ ht, hf.cons hf'⟩

theorem Sound.sequence (hv : Sound t visit) (h : p.graph.Underway (exits ++ parked)) :
    Meets (sequence visit parts { frontier := exits }) p fun out p' => ∃ dead,
      Flows t (.parts parts) parked exits p out.frontier out.leaving dead p' := by
  refine (sequence_meets hv parts h).mono fun out' p' ⟨left, dead, hl, _, hf⟩ => ⟨dead, ?_⟩
  rw [hl]
  exact hf

-- The operands of a construct are done and the construct is placed after them.
structure Evaluated (t : Tree) (id : Syntax.Id) (operands : List Syntax.Id) (parked exits : List Exit)
    (p : Progress) (block : NodeId) (left : List Exit) (dead : List Syntax.Id) (p' : Progress) :
    Prop where
  underway    : p'.graph.Underway (.next block :: (left ++ parked))
  keeps       : Graph.Keeps parked p.graph p'.graph
  unreachable : p'.unreachable = p.unreachable ++ dead
  laid        : ∀ {g}, p'.graph.Grows g → ∃ mid ends,
    Laid g t (.parts operands) p.graph.size (p.graph.looseEnds exits) mid ends
      (p'.graph.looseEnds left) dead ∧
    g.Places id mid ends p'.graph.size ((Exit.next block).looseEnd p'.graph)

theorem place_after (hd : Delivers t (.parts operands) parked out p out₁ p₁) :
    Meets (place id out₁) p₁ fun out' p' => ∃ block left dead,
      out' = { frontier := [.next block], leaving := out.leaving ++ left } ∧
      Evaluated t id operands parked out.frontier p block left dead p' := by
  have ⟨left, dead, hl, _, hf⟩ := hd
  refine (place_meets id hf.underway).mono fun _ p₂ ⟨block, he, ha, hp⟩ => ?_
  subst he
  refine ⟨block, left, dead, by rw [hl], ha.underway, ?_, ?_, fun hg => ?_⟩
  · exact hf.keeps.trans ha.keeps.drop
  · rw [ha.unreachable, hf.unreachable]
  · exact ⟨_, _, hf.laid_later ha.keeps (by simp) hg, hp hg⟩

theorem Evaluated.delivers (hs : t.form? id = some (.strict operands))
    (he : Evaluated t id operands parked out.frontier p block left dead p') :
    Delivers t (.node id) parked out p
      { frontier := [.next block], leaving := out.leaving ++ left } p' := by
  refine ⟨left, dead, rfl, nofun, he.underway, he.keeps, he.unreachable, fun hg => ?_⟩
  have ⟨_, _, hl, hp⟩ := he.laid hg
  exact .strict hs hl hp

theorem strict_meets (hv : Sound t visit) (hs : t.form? id = some (.strict operands))
    (h : p.graph.Underway (out.frontier ++ parked)) :
    Meets (strict visit id operands out) p (Delivers t (.node id) parked out p) := by
  refine (sequence_meets hv operands h).bind fun _ _ hd => (place_after hd).mono ?_
  rintro _ _ ⟨_, _, _, rfl, he⟩
  exact he.delivers hs

theorem jump_meets (hv : Sound t visit) (hs : t.form? id = some (.jump operand?.toList))
    (h : p.graph.Underway (out.frontier ++ parked)) :
    Meets (jump visit id operand? out) p (Delivers t (.node id) parked out p) := by
  refine Meets.bind ((sequence_meets hv operand?.toList h).bind fun _ _ => place_after) ?_
  rintro _ p' ⟨block, left, dead, rfl, he⟩
  refine .pure ⟨left ++ [.next block], dead, by simp, fun _ _ => rfl, ?_, he.keeps,
    he.unreachable, fun hg => ?_⟩
  · exact he.underway.reorder _ (by simp [List.count_cons]; omega)
  · have ⟨_, _, hl, hp⟩ := he.laid hg
    rw [Graph.looseEnds_append]
    exact .jump hs hl hp

-- The construct is placed before its parts.
theorem before_meets {rest : Outflow → Walk Outflow}
    (hr : ∀ {out p}, p.graph.Underway (out.frontier ++ parked) →
      Meets (rest out) p (Delivers t task parked out p))
    (hs : ∀ {g lo ends mid e hi ends' left dead}, g.Places id lo ends mid e →
      Laid g t task mid [e] hi ends' left dead → Laid g t (.node id) lo ends hi ends' left dead)
    (h : p.graph.Underway (out.frontier ++ parked)) :
    Meets (place id out >>= rest) p (Delivers t (.node id) parked out p) := by
  refine (place_meets id h).bind fun _ p₁ ⟨block, he, ha, hp⟩ => ?_
  subst he
  refine (hr ha.underway).mono fun out₂ p₂ ⟨left, dead, hl, ht, hf⟩ => ?_
  refine ⟨left, dead, hl, fun _ => ht nofun, hf.underway, ha.keeps.trans hf.keeps, ?_, fun hg => ?_⟩
  · rw [hf.unreachable, ha.unreachable]
  · exact hs (hp (hf.keeps.grows.trans hg)) (hf.laid hg)

theorem block_meets (hv : Sound t visit) (hs : t.form? id = some (.block statements))
    (h : p.graph.Underway (out.frontier ++ parked)) :
    Meets (place id out >>= sequence visit statements) p (Delivers t (.node id) parked out p) :=
  before_meets (sequence_meets hv statements) (.block hs) h

theorem parens_meets {inner : Syntax.Id} (hv : Sound t visit) (hs : t.form? id = some (.parens inner))
    (h : p.graph.Underway (out.frontier ++ parked)) :
    Meets (place id out >>= visit inner) p (Delivers t (.node id) parked out p) :=
  before_meets (hv ·) (.parens hs) h

theorem passing_meets (hv : Sound t visit) (hs : t.form? id = some (.passing parts))
    (h : p.graph.Underway (out.frontier ++ parked)) :
    Meets (sequence visit parts out) p (Delivers t (.node id) parked out p) := by
  refine (sequence_meets hv parts h).mono fun _ p₁ ⟨left, dead, hl, ht, hf⟩ => ?_
  exact ⟨left, dead, hl, ht, hf.underway, hf.keeps, hf.unreachable,
    fun hg => .passing hs (hf.laid hg)⟩

theorem negation_meets (hv : Sound t visit) (hs : t.form? id = some (.negation operand))
    (h : p.graph.Underway (out.frontier ++ parked)) :
    Meets (negation visit id operand out) p (Delivers t (.node id) parked out p) := by
  refine (place_meets id h).bind fun _ p₁ ⟨block, he, ha, hp⟩ => ?_
  subst he
  refine (hv ha.underway).bind fun out₂ p₂ ⟨left, dead, hl, ht, hf⟩ => ?_
  refine (negate_meets hf.underway).bind fun exits₃ p₃ ⟨ha₃, hs₃, hl₃⟩ => ?_
  refine .pure ⟨left, dead, hl, fun _ ht' => ?_, ha₃.underway, ?_, ?_, fun hg => ?_⟩
  · have he := ht nofun ht'
    simpa [he, Graph.looseEnds] using hl₃
  · exact (ha.keeps.trans hf.keeps).trans ha₃.keeps.drop
  · rw [ha₃.unreachable, hf.unreachable, ha.unreachable]
  · have hg₂ := ha₃.keeps.grows.trans hg
    rw [hl₃, hs₃]
    exact .negation hs (hp (hf.keeps.grows.trans hg₂)) (hf.laid_later ha₃.keeps (by simp) hg)

-- A condition was visited and its outcome is told apart.
structure Tested (t : Tree) (task : Task) (labelled : Bool) (parked exits : List Exit) (p : Progress)
    (truthy falsy left : List Exit) (dead : List Syntax.Id) (sides : List LooseEnd) (p' : Progress) :
    Prop where
  underway    : p'.graph.Underway (truthy ++ (falsy ++ (left ++ parked)))
  keeps       : Graph.Keeps parked p.graph p'.graph
  unreachable : p'.unreachable = p.unreachable ++ dead
  truthy_eq   : p'.graph.looseEnds truthy = sides.filter (·.hasSense true)
  falsy_eq    : p'.graph.looseEnds falsy = sides.filter (!·.hasSense true)
  laid        : ∀ {g}, p'.graph.Grows g → ∃ mid ends,
    Laid g t task p.graph.size (p.graph.looseEnds exits) mid ends (p'.graph.looseEnds left) dead ∧
    g.Forks labelled mid ends p'.graph.size sides

namespace Tested

variable {labelled : Bool} {truthy falsy : List Exit} {sides : List LooseEnd}

theorem laid_later (h : Tested t task labelled parked exits p truthy falsy left dead sides p₁)
    (hk : Graph.Keeps parked' p₁.graph p₂.graph) (hs : left ⊆ parked') (hg : p₂.graph.Grows g) :
    ∃ mid ends, Laid g t task p.graph.size (p.graph.looseEnds exits) mid ends
        (p₂.graph.looseEnds left) dead ∧
      g.Forks labelled mid ends p₁.graph.size sides := by
  rw [hk.looseEnds left hs]
  exact h.laid (hk.grows.trans hg)

theorem sole (h : Tested t (.node i) labelled parked exits p truthy falsy left dead sides p') :
    Tested t (.parts [i]) labelled parked exits p truthy falsy left dead sides p' := by
  refine ⟨h.underway, h.keeps, h.unreachable, h.truthy_eq, h.falsy_eq, fun hg => ?_⟩
  have ⟨mid, ends, hl, hk⟩ := h.laid hg
  exact ⟨mid, ends, hl.sole, hk⟩

-- A loop without a condition tells its header apart.
theorem header (ha : Advances (truthy ++ falsy) parked p p₁)
    (hy : p₁.graph.looseEnds truthy = sides.filter (·.hasSense true))
    (hn : p₁.graph.looseEnds falsy = sides.filter (!·.hasSense true))
    (hk : ∀ {g}, p₁.graph.Grows g →
      g.Forks labelled p.graph.size (p.graph.looseEnds exits) p₁.graph.size sides) :
    Tested t (.parts []) labelled parked exits p truthy falsy [] [] sides p₁ where
  underway    := ha.underway.reorder _ (by simp)
  keeps       := ha.keeps
  unreachable := by rw [ha.unreachable, List.append_nil]
  truthy_eq   := hy
  falsy_eq    := hn
  laid hg     := ⟨_, _, .nil, hk hg⟩

end Tested

theorem test_meets {rest : Outflow → List Exit × List Exit → Walk α} {post : α → Progress → Prop}
    (hv : Sound t visit) (h : p.graph.Underway (exits ++ parked))
    (hr : ∀ tested truthy falsy dead sides p',
      Tested t (.node condition) true parked exits p truthy falsy tested.leaving dead sides p' →
      Meets (rest tested (truthy, falsy)) p' post) :
    Meets (do
      let tested ← visit condition { frontier := exits }
      let told ← fork true tested.frontier
      rest tested told) p post := by
  refine (hv.fresh h).bind fun tested p₁ ⟨dead, _, hf⟩ => ?_
  refine (fork_meets true hf.underway).bind fun (truthy, falsy) p₂ ⟨sides, ha, hy, hn, hk⟩ => ?_
  refine hr tested truthy falsy dead sides p₂ ⟨?_, ?_, ?_, hy, hn, fun hg => ?_⟩
  · exact ha.underway.reorder _ (by simp)
  · exact hf.keeps.trans ha.keeps.drop
  · exact ha.unreachable.trans hf.unreachable
  · exact ⟨_, _, hf.laid_later ha.keeps (by simp) hg, hk hg⟩

theorem branching_meets_one (hv : Sound t visit)
    (hs : t.form? id = some (.branching condition truePart none))
    (h : p.graph.Underway (out.frontier ++ parked)) :
    Meets (branching visit id condition truePart none out) p
      (Delivers t (.node id) parked out p) := by
  refine (place_meets id h).bind fun _ p₁ ⟨block, he, ha₁, hp⟩ => ?_
  subst he
  refine test_meets hv ha₁.underway fun tested truthy falsy dead₂ sides p₂ ht => ?_
  refine (hv.fresh ht.underway).bind fun yes p₃ ⟨dead₃, _, hf₃⟩ => ?_
  refine .pure ⟨tested.leaving ++ yes.leaving, dead₂ ++ dead₃, by simp [Outflow.absorb], nofun,
    hf₃.underway.reorder _ ?_, ?_, ?_, fun hg => ?_⟩
  · simp [List.count_append]; omega
  · exact (ha₁.keeps.trans ht.keeps).trans hf₃.keeps.drop.drop
  · rw [hf₃.unreachable, ht.unreachable, ha₁.unreachable, List.append_assoc]
  · have hg₂ := hf₃.keeps.grows.trans hg
    have ⟨_, _, hl, hk⟩ := ht.laid_later hf₃.keeps (by simp) hg
    rw [Graph.looseEnds_append, Graph.looseEnds_append, hf₃.keeps.looseEnds falsy (by simp),
      ht.falsy_eq]
    exact .branchingOne hs (hp (ht.keeps.grows.trans hg₂)) hl hk (ht.truthy_eq ▸ hf₃.laid hg)

theorem branching_meets_two (hv : Sound t visit)
    (hs : t.form? id = some (.branching condition truePart (some falsePart)))
    (h : p.graph.Underway (out.frontier ++ parked)) :
    Meets (branching visit id condition truePart (some falsePart) out) p
      (Delivers t (.node id) parked out p) := by
  refine (place_meets id h).bind fun _ p₁ ⟨block, he, ha₁, hp⟩ => ?_
  subst he
  refine test_meets hv ha₁.underway fun tested truthy falsy dead₂ sides p₂ ht => ?_
  refine (hv.fresh ht.underway).bind fun yes p₃ ⟨dead₃, hy, hf₃⟩ => ?_
  have hu₃ := hf₃.underway.reorder
    (falsy ++ (yes.frontier ++ (yes.leaving ++ (tested.leaving ++ parked))))
    (by simp [List.count_append]; omega)
  refine (hv.fresh hu₃).bind fun no p₄ ⟨dead₄, hn, hf₄⟩ => ?_
  refine .pure ⟨tested.leaving ++ yes.leaving ++ no.leaving, dead₂ ++ dead₃ ++ dead₄,
    by simp [Outflow.absorb], fun _ ht => ?_, hf₄.underway.reorder _ ?_, ?_, ?_, fun hg => ?_⟩
  · have ⟨hy', hn'⟩ := Bool.and_eq_true_iff.mp ht
    exact List.append_eq_nil_iff.mpr ⟨hy hy', hn hn'⟩
  · simp [List.count_append]; omega
  · exact ((ha₁.keeps.trans ht.keeps).trans hf₃.keeps.drop.drop).trans hf₄.keeps.drop.drop.drop
  · simp only [hf₄.unreachable, hf₃.unreachable, ht.unreachable, ha₁.unreachable, List.append_assoc]
  · have hg₃ := hf₄.keeps.grows.trans hg
    have hg₂ := hf₃.keeps.grows.trans hg₃
    have hk₂ := hf₃.keeps.drop.trans hf₄.keeps.drop.drop
    have hn₃ := (hf₃.keeps.looseEnds falsy (by simp)).trans ht.falsy_eq
    have ⟨_, _, hl, hk⟩ := ht.laid_later hk₂ (by simp) hg
    rw [Graph.looseEnds_append, Graph.looseEnds_append, Graph.looseEnds_append,
      hf₄.keeps.looseEnds yes.frontier (by simp)]
    exact .branchingTwo hs (hp (ht.keeps.grows.trans hg₂)) hl hk
      (ht.truthy_eq ▸ hf₃.laid_later hf₄.keeps (by simp) hg) (hn₃ ▸ hf₄.laid hg)

theorem shortCircuit_meets (hv : Sound t visit)
    (hs : t.form? id = some (.shortCircuit on l r))
    (hd : Delivers t (.node l) parked out p out₁ p₁) :
    Meets (shortCircuit visit on r out₁) p₁ (Delivers t (.node id) parked out p) := by
  have ⟨left, dead, hl, _, hf⟩ := hd
  refine (fork_meets on hf.underway).bind fun (evaluate, skip) p₂ ⟨sides, ha₂, hy, hn, hk⟩ => ?_
  have hu₂ := ha₂.underway.reorder (evaluate ++ (skip ++ (left ++ parked))) (by simp)
  refine (hv.fresh hu₂).bind fun visited p₃ ⟨dead₃, _, hf₃⟩ => ?_
  refine .pure ⟨left ++ visited.leaving, dead ++ dead₃, by simp [Outflow.absorb, hl], nofun,
    hf₃.underway.reorder _ ?_, ?_, ?_, fun hg => ?_⟩
  · cases on <;> simp [List.count_append] <;> omega
  · exact (hf.keeps.trans ha₂.keeps.drop).trans hf₃.keeps.drop.drop
  · rw [hf₃.unreachable, ha₂.unreachable, hf.unreachable, List.append_assoc]
  · have hg₂ := hf₃.keeps.grows.trans hg
    have hk₁ := ha₂.keeps.trans hf₃.keeps.drop
    have hn₃ := (hf₃.keeps.looseEnds skip (by simp)).trans hn
    have hl := Laid.shortCircuit hs (hf.laid_later hk₁ (by simp) hg) (hk hg₂)
      (hy ▸ hf₃.laid hg)
    rw [Graph.looseEnds_append]
    cases on <;> simpa [Graph.looseEnds_append, hn₃] using hl

theorem branching_meets (hv : Sound t visit)
    (hs : t.form? id = some (.branching condition truePart falsePart?))
    (h : p.graph.Underway (out.frontier ++ parked)) :
    Meets (branching visit id condition truePart falsePart? out) p
      (Delivers t (.node id) parked out p) := by
  cases falsePart?
  case none => exact branching_meets_one hv hs h
  case some => exact branching_meets_two hv hs h

theorem whileLoop_meets (hv : Sound t visit)
    (hs : t.form? id = some (.whileLoop condition body))
    (h : p.graph.Underway (out.frontier ++ parked)) :
    Meets (whileLoop visit id condition body out) p (Delivers t (.node id) parked out p) := by
  refine (place_meets id h).bind fun _ p₁ ⟨block, he, ha₁, hp⟩ => ?_
  subst he
  apply Meets.of_eq (gather_sole_eq id ha₁.underway)
  refine test_meets hv ha₁.underway fun tested truthy falsy dead₂ sides p₂ ht => ?_
  refine (hv.fresh ht.underway).bind fun looped p₃ ⟨dead₃, _, hf₃⟩ => ?_
  refine (loopEntry_meets block).bind fun entry _ ⟨he, hl⟩ => ?_
  subst he
  have ⟨h₀, hi⟩ := hf₃.underway.targets hl
  refine (connectAll_meets hf₃.underway h₀ hi).bind fun _ p₄ ⟨ha₄, hs₄, hc⟩ => ?_
  refine .pure ⟨tested.leaving ++ looped.leaving, dead₂ ++ dead₃, by simp [Outflow.absorb], nofun,
    ha₄.underway.reorder _ ?_, ?_, ?_, fun {g} hg => ?_⟩
  · simp [List.count_append]; omega
  · exact ((ha₁.keeps.trans ht.keeps).trans hf₃.keeps.drop.drop).trans ha₄.keeps.drop.drop.drop
  · rw [ha₄.unreachable, hf₃.unreachable, ht.unreachable, ha₁.unreachable, List.append_assoc]
  · have hg₃ := ha₄.keeps.grows.trans hg
    have hg₁ := ht.keeps.grows.trans (hf₃.keeps.grows.trans hg₃)
    have hk₂ := hf₃.keeps.trans ha₄.keeps.drop
    have he : g.Leads ((Exit.next block).looseEnd p₁.graph).slot entry := by
      rw [Graph.slot_looseEnd]
      exact hg₃.leads hl
    have ⟨_, _, hl, hk⟩ := ht.laid_later hk₂ (by simp) hg
    rw [Graph.looseEnds_append, hk₂.looseEnds falsy (by simp), ht.falsy_eq, hs₄]
    exact .whileLoop hs (hp hg₁) hl hk (ht.truthy_eq ▸ hf₃.laid_later ha₄.keeps (by simp) hg) he
      (hc hg)

theorem doWhileLoop_meets (hv : Sound t visit)
    (hs : t.form? id = some (.doWhileLoop body condition))
    (h : p.graph.Underway (out.frontier ++ parked)) :
    Meets (doWhileLoop visit id body condition out) p (Delivers t (.node id) parked out p) := by
  refine (place_meets id h).bind fun _ p₁ ⟨block, he, ha₁, hp⟩ => ?_
  subst he
  apply Meets.of_eq (gather_sole_eq id ha₁.underway)
  rw [grow_block_eq]
  refine (join_meets ha₁.underway).bind fun entry p₂ ⟨he, ha₂, hs₂, hb, hj⟩ => ?_
  subst he
  refine (hv.fresh ha₂.underway).bind fun looped p₃ ⟨dead₃, _, hf₃⟩ => ?_
  refine test_meets hv hf₃.underway fun tested truthy falsy dead₄ sides p₄ ht => ?_
  have hi : p₁.graph.nextId.index < p₄.graph.size := by
    have hlt : p₁.graph.size < p₂.graph.size := by omega
    exact Nat.lt_of_lt_of_le hlt (hf₃.keeps.grows.trans ht.keeps.grows).size_le
  have h₀ := ha₁.underway.nextId_ne_zero
  refine (connectAll_meets ht.underway h₀ hi).bind fun _ p₅ ⟨ha₅, hs₅, hc⟩ => ?_
  refine .pure ⟨looped.leaving ++ tested.leaving, dead₃ ++ dead₄, by simp [Outflow.absorb], nofun,
    ha₅.underway.reorder _ ?_, ?_, ?_, fun {g} hg => ?_⟩
  · simp [List.count_append]; omega
  · exact (((ha₁.keeps.trans ha₂.keeps).trans hf₃.keeps).trans ht.keeps.drop).trans
      ha₅.keeps.drop.drop.drop
  · rw [ha₅.unreachable, ht.unreachable, hf₃.unreachable, ha₂.unreachable, ha₁.unreachable,
      List.append_assoc]
  · have hg₃ := ht.keeps.grows.trans (ha₅.keeps.grows.trans hg)
    have hg₂ := hf₃.keeps.grows.trans hg₃
    have hk₃ := ht.keeps.trans ha₅.keeps.drop.drop
    have ⟨hb₂, hj₂⟩ := hj hg₂
    have hl₃ := hf₃.laid_later hk₃ (by simp) hg
    have ⟨_, _, hl, hk⟩ := ht.laid_later ha₅.keeps (by simp) hg
    rw [Graph.looseEnds, List.map_singleton, hb, hs₂] at hl₃
    rw [Graph.looseEnds_append, ha₅.keeps.looseEnds falsy (by simp), ht.falsy_eq, hs₅]
    exact .doWhileLoop hs (hp (ha₂.keeps.grows.trans hg₂)) (hj₂ _ (.head _)) hb₂ hl₃ hl hk
      (ht.truthy_eq ▸ hc hg)

-- The initializers of a loop are done and its header is known.
structure Entered (t : Tree) (id : Syntax.Id) (init : List Syntax.Id) (parked exits : List Exit)
    (p : Progress) (header : NodeId) (left : List Exit) (dead : List Syntax.Id) (p' : Progress) :
    Prop where
  underway    : p'.graph.Underway (.next header :: (left ++ parked))
  keeps       : Graph.Keeps parked p.graph p'.graph
  unreachable : p'.unreachable = p.unreachable ++ dead
  laid        : ∀ {g}, p'.graph.Grows g → ∃ m₁ e m₂ ends,
    g.Places id p.graph.size (p.graph.looseEnds exits) m₁ e ∧
    Laid g t (.parts init) m₁ [e] m₂ ends (p'.graph.looseEnds left) dead ∧
    g.Gathers m₂ ends p'.graph.size ((Exit.next header).looseEnd p'.graph)

theorem enter_meets {rest : Outflow → NodeId → Walk α} {post : α → Progress → Prop}
    (hv : Sound t visit) (h : p.graph.Underway (out.frontier ++ parked))
    (hr : ∀ out' header p' left dead, out'.leaving = out.leaving ++ left →
      Entered t id init parked out.frontier p header left dead p' →
      Meets (rest out' header) p' post) :
    Meets (do
      let out ← place id out
      let out ← sequence visit init out
      let header ← gather id out.frontier
      rest out header) p post := by
  refine (place_meets id h).bind fun _ p₁ ⟨block, he, ha₁, hp⟩ => ?_
  subst he
  refine (sequence_meets hv init ha₁.underway).bind fun out₂ p₂ ⟨left, dead, hl, _, hf⟩ => ?_
  refine (gather_meets id hf.underway).bind fun header p₃ ⟨ha₃, hh⟩ => ?_
  refine hr _ _ _ left dead hl ⟨ha₃.underway, ?_, ?_, fun hg => ?_⟩
  · exact (ha₁.keeps.trans hf.keeps).trans ha₃.keeps.drop
  · rw [ha₃.unreachable, hf.unreachable, ha₁.unreachable]
  · have hg₂ := ha₃.keeps.grows.trans hg
    exact ⟨_, _, _, _, hp (hf.keeps.grows.trans hg₂), hf.laid_later ha₃.keeps (by simp) hg, hh hg⟩

theorem repeat_meets {out₁ : Outflow} {sides : List LooseEnd} (hv : Sound t visit)
    (hs : t.form? id = some (.forLoop init condition? updates body))
    (he : Entered t id init parked out.frontier p header left dead p₁)
    (ht : Tested t (.parts condition?.toList) condition?.isSome (left ++ parked) [.next header] p₁
      truthy falsy left' dead' sides p₂)
    (hl : out₁.leaving = out.leaving ++ left ++ left') :
    Meets (do
      let looped ← visit body { frontier := truthy }
      let out := out₁.absorb looped
      let updated ← sequence visit updates { frontier := looped.frontier }
      let out := out.absorb updated
      connectAll updated.frontier (← loopEntry header)
      return { out with frontier := falsy, terminates := false }) p₂
        (Delivers t (.node id) parked out p) := by
  refine (hv.fresh ht.underway).bind fun looped p₃ ⟨dead₃, _, hf₃⟩ => ?_
  refine (hv.sequence hf₃.underway).bind fun updated p₄ ⟨dead₄, hf₄⟩ => ?_
  refine (loopEntry_meets header).bind fun entry _ ⟨hp, hn⟩ => ?_
  subst hp
  have ⟨h₀, hi⟩ := hf₄.underway.targets hn
  refine (connectAll_meets hf₄.underway h₀ hi).bind fun _ p₅ ⟨ha₅, hs₅, hc⟩ => ?_
  refine .pure ⟨left ++ left' ++ looped.leaving ++ updated.leaving, dead ++ dead' ++ dead₃ ++ dead₄,
    by simp [Outflow.absorb, hl], nofun, ha₅.underway.reorder _ ?_, ?_, ?_, fun {g} hg => ?_⟩
  · simp [List.count_append]; omega
  · exact (((he.keeps.trans ht.keeps.drop).trans hf₃.keeps.drop.drop.drop).trans
      hf₄.keeps.drop.drop.drop.drop).trans ha₅.keeps.drop.drop.drop.drop.drop
  · simp only [ha₅.unreachable, hf₄.unreachable, hf₃.unreachable, ht.unreachable, he.unreachable,
      List.append_assoc]
  · have hg₄ := ha₅.keeps.grows.trans hg
    have hg₃ := hf₄.keeps.grows.trans hg₄
    have hg₂ := hf₃.keeps.grows.trans hg₃
    have hg₁ := ht.keeps.grows.trans hg₂
    have hk₃ := hf₄.keeps.trans ha₅.keeps.drop
    have hk₂ := hf₃.keeps.trans hk₃.drop
    have hk₁ := ht.keeps.trans hk₂.drop.drop
    have ⟨_, _, _, _, hp, hi, hh⟩ := he.laid hg₁
    have ⟨_, _, hlt, hft⟩ := ht.laid_later hk₂ (by simp) hg
    have hn' : g.Leads ((Exit.next header).looseEnd p₁.graph).slot entry := by
      rw [Graph.slot_looseEnd]
      exact hg₄.leads hn
    simp only [Graph.looseEnds_append]
    rw [hk₂.looseEnds falsy (by simp), ht.falsy_eq, hs₅]
    rw [← hk₁.looseEnds left (by simp)] at hi
    exact .forLoop hs hp hi hh hlt hft (ht.truthy_eq ▸ hf₃.laid_later hk₃ (by simp) hg)
      (hf₄.laid_later ha₅.keeps (by simp) hg) hn' (hc hg)

theorem forLoop_meets (hv : Sound t visit)
    (hs : t.form? id = some (.forLoop init condition? updates body))
    (h : p.graph.Underway (out.frontier ++ parked)) :
    Meets (forLoop visit id init condition? updates body out) p
      (Delivers t (.node id) parked out p) := by
  refine enter_meets hv h fun out₁ header p₁ left dead hl he => ?_
  cases condition?
  case none =>
    have hp : (pure { frontier := [.next header] } : Walk Outflow) p₁ =
        .ok ({ frontier := [.next header] }, p₁) := rfl
    apply Meets.of_eq hp
    simp only [Option.isNone_none, ↓reduceIte]
    refine fork_forget_meets he.underway fun truthy falsy sides p₄ ha₄ hy hn hk => ?_
    exact repeat_meets hv hs he (.header ha₄ hy hn hk) (by simp [Outflow.absorb, hl])
  case some condition =>
    refine test_meets hv he.underway fun tested truthy falsy dead₂ sides p₂ ht => ?_
    exact repeat_meets hv hs he ht.sole (by simp [Outflow.absorb, hl])

-- The operators from `id` down to its leftmost operand, innermost first.
inductive Chain (t : Tree) (leftmost : Syntax.Id) : Syntax.Id → List Link → Prop
  | leftmost : Chain t leftmost leftmost []
  | operator {op : Syntax.BinaryOp} : Chain t leftmost l links →
    t.kind? i = some (.binary op l r) →
    Chain t leftmost i (links ++ [⟨i, op, r⟩])

theorem chain_of_followLeft {outer links : List Link}
    (h : followLeft t fuel id outer = some (leftmost, links)) :
    ∃ inner, links = inner ++ outer ∧ Chain t leftmost id inner := by
  fun_induction followLeft t fuel id outer
  case case1 => cases h
  case case2 hk ih =>
    have ⟨inner, he, hc⟩ := ih h
    exact ⟨_, by rw [he, List.append_assoc]; rfl, hc.operator hk⟩
  case case3 => cases h; exact ⟨[], rfl, .leftmost⟩

theorem operator_meets {op : Syntax.BinaryOp} (hv : Sound t visit)
    (hk : t.kind? id = some (.binary op l r))
    (hd : Delivers t (.node l) parked out p out₁ p₁) :
    Meets (operator visit ⟨id, op, r⟩ out₁) p₁ (Delivers t (.node id) parked out p) := by
  have hs : t.form? id = some (Syntax.Kind.binary op l r).form := by simp [Tree.form?, hk]
  cases op
  case and => exact shortCircuit_meets hv hs hd
  case or  => exact shortCircuit_meets hv hs hd
  case other =>
    have ⟨left, dead, hl, ht, hf⟩ := hd
    refine (sequence_meets hv [r] hf.underway).bind fun out₂ p₂ ⟨left', dead', hl', ht', hf'⟩ => ?_
    have hd' : Delivers t (.parts [l, r]) parked out p out₂ p₂ :=
      ⟨_, _, by rw [hl', hl, List.append_assoc], ht' ∘ ht, hf.cons hf'⟩
    apply (place_after hd').mono
    rintro _ _ ⟨_, _, _, rfl, he⟩
    exact he.delivers hs

theorem chain_meets (hv : Sound t visit) (hc : Chain t leftmost id links)
    (h : p.graph.Underway (out.frontier ++ parked)) :
    Meets (do
      let out ← visit leftmost out
      links.foldlM (fun out link => operator visit link out) out) p
        (Delivers t (.node id) parked out p) := by
  induction hc
  case leftmost => exact (hv h).bind fun _ _ hd => .pure hd
  case operator links _ _ _ hk ih =>
    simp only [List.foldlM_append, List.foldlM_cons, List.foldlM_nil, bind_pure]
    rw [← bind_assoc]
    exact ih.bind fun _ _ => operator_meets hv hk

theorem binary_meets (hv : Sound t visit) (h : p.graph.Underway (out.frontier ++ parked)) :
    Meets (binary visit t id out) p (Delivers t (.node id) parked out p) := by
  unfold binary
  split
  case h_1 => exact .throw (fun h => h)
  case h_2 hl =>
    have ⟨_, he, hc⟩ := chain_of_followLeft hl
    rw [List.append_nil] at he
    exact he ▸ chain_meets hv hc h

theorem construct_meets (hv : Sound t visit) (h : p.graph.Underway (out.frontier ++ parked)) :
    Meets (construct visit t id out) p (Delivers t (.node id) parked out p) := by
  unfold construct
  split
  case h_1 => exact .throw (fun h => h)
  case h_2 kind hk =>
    have hs : t.form? id = some kind.form := by simp [Tree.form?, hk]
    cases kind
    case block       => exact block_meets hv hs h
    case ifStmt      => exact branching_meets hv hs h
    case ternary     => exact branching_meets hv hs h
    case whileStmt   => exact whileLoop_meets hv hs h
    case doWhileStmt => exact doWhileLoop_meets hv hs h
    case forStmt     => exact forLoop_meets hv hs h
    case binary      => exact binary_meets hv h
    case returnStmt  => exact jump_meets hv hs h
    case throwStmt   => exact jump_meets hv hs h
    case parens      => exact parens_meets hv hs h
    case declarator  => exact passing_meets hv hs h
    case unary op _  =>
      cases op
      case not   => exact negation_meets hv hs h
      case other => exact strict_meets hv hs h
    case cast        => exact strict_meets hv hs h
    case assignment  => exact strict_meets hv hs h
    case call        => exact strict_meets hv hs h
    case new         => exact strict_meets hv hs h
    case varDecl     => exact strict_meets hv hs h
    all_goals
      have hs' : t.form? id = some (.strict []) := hs
      exact strict_meets hv hs' h

end Visitor

open Walk

theorem skip_delivers (h : p.graph.Underway (out.frontier ++ parked)) (he : out.frontier = []) :
    Delivers t (.node id) parked out p out
      { p with unreachable := p.unreachable ++ [id] } := by
  refine ⟨[], [id], (List.append_nil _).symm, fun ht => ht, h, .refl, rfl, fun _ => ?_⟩
  rw [he]
  exact .skipped

theorem visit_sound (t : Tree) (settings : Settings) (remaining : Nat) :
    Visitor.Sound t (Flow.visit t settings remaining) := by
  induction remaining
  case zero =>
    intro id out parked p h
    unfold Flow.visit
    split
    case isTrue hs => exact skip_delivers h (by simp_all)
    case isFalse   => exact .throw (fun h => h)
  case succ remaining ih =>
    intro id out parked p h
    unfold Flow.visit
    split
    case isTrue hs => exact skip_delivers h (by simp_all)
    case isFalse   => exact Visitor.construct_meets ih h

end RoutineFlow.Flow
