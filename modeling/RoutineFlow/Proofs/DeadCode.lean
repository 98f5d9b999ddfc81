import RoutineFlow.Proofs.Fate
import RoutineFlow.Proofs.Passage
import RoutineFlow.Proofs.Policies

-- The analysis finds exactly the code that is dead by the syntax. Where the flow goes on, every
-- step succeeds; where it does not, the code that follows is left out, or rejected at its first
-- position.

namespace RoutineFlow.Flow

open Syntax (Tree Form deserted)

variable {t : Tree} {policy : Policy} {visit : Visitor} {id scope : Syntax.Id}
  {out out₁ : Outflow} {levels maxDepth : Nat} {p p₁ : Progress}
  {exits parked truthy falsy : List Exit} {dead : List Syntax.Id} {asked : Bool}

namespace Visitor

open Walk

-- What is known of the visits of parts, where the flow goes on and where it does not.
structure Fares (t : Tree) (policy : Policy) (visit : Visitor) (levels : Nat) : Prop where
  sound : Sound t visit
  live  : ∀ {id kind out parked p}, t.kind? id = some kind → t.levels id ≤ levels →
    p.graph.Underway (out.frontier ++ parked) → out.frontier ≠ [] →
    Comes t policy (t.fate id).dead (visit id out) p fun out' _ =>
      (out'.frontier ≠ [] ↔ (t.fate id).completes)
  dead  : ∀ {id out p}, t.IsProper id → t.levels id ≤ levels → out.frontier = [] →
    Comes t policy [id] (visit id out) p fun out' _ => out' = out

namespace Fares

variable (h : Fares t policy visit levels)
include h

theorem visits (hk : t.kind? id = some kind) (hl : t.levels id ≤ levels)
    (hu : p.graph.Underway (out.frontier ++ parked)) (he : out.frontier ≠ []) :
    Comes t policy (t.fate id).dead (visit id out) p fun out' p' =>
      (out'.frontier ≠ [] ↔ (t.fate id).completes) ∧ Delivers t (.node id) parked out p out' p' :=
  (h.live hk hl hu he).and_meets (h.sound hu)

theorem fresh (hk : t.kind? id = some kind) (hl : t.levels id ≤ levels)
    (hu : p.graph.Underway (exits ++ parked)) (he : exits ≠ []) :
    Comes t policy (t.fate id).dead (visit id { frontier := exits }) p fun out p' =>
      (out.frontier ≠ [] ↔ (t.fate id).completes) ∧
      p'.graph.Underway (out.frontier ++ (out.leaving ++ parked)) ∧
      Graph.Keeps parked p.graph p'.graph := by
  refine Comes.mono (h.visits hk hl hu he) fun out p' ⟨hc, left, _, hl, _, hf⟩ => ?_
  rw [hl]
  exact ⟨hc, hf.underway, hf.keeps⟩

theorem skips_run (hp : ∀ i ∈ parts, t.IsProper i) (hl : ∀ i ∈ parts, t.levels i ≤ levels)
    (he : out.frontier = []) :
    Comes t policy parts (sequence visit parts out) p fun out' _ => out' = out := by
  induction parts generalizing p
  case nil => exact .pure rfl
  case cons i is ih =>
    have ⟨hi, hp⟩ := List.forall_mem_cons.mp hp
    have ⟨hli, hl⟩ := List.forall_mem_cons.mp hl
    refine Comes.bind (h.dead hi hli he) fun out' p' he' => ?_
    rw [he']
    exact ih hp hl

theorem runs (hp : ∀ i ∈ parts, t.IsProper i) (hl : ∀ i ∈ parts, t.levels i ≤ levels)
    (hu : p.graph.Underway (out.frontier ++ parked)) (he : out.frontier ≠ []) :
    Comes t policy (Form.deadAlong t.fate parts) (sequence visit parts out) p fun out' _ =>
      (out'.frontier ≠ [] ↔ parts.all fun i => (t.fate i).completes) := by
  induction parts generalizing out p parked
  case nil => exact .pure (by simpa using he)
  case cons i is ih =>
    have ⟨hi, hp⟩ := List.forall_mem_cons.mp hp
    have ⟨hli, hl⟩ := List.forall_mem_cons.mp hl
    have ⟨_, hk, _⟩ := hi
    refine Comes.bind (h.visits hk hli hu he) fun out₁ p₁ ⟨hc, left, _, _, _, hf⟩ => ?_
    cases hcs : (t.fate i).completes
    case true =>
      simp only [List.all_cons, hcs, ↓reduceIte, Bool.true_and]
      exact ih hp hl hf.underway (hc.mpr hcs)
    case false =>
      -- The flow does not get past this one, so it comes to none of the others.
      have he₁ : out₁.frontier = [] := by simpa [hcs] using hc
      simp only [List.all_cons, hcs, Bool.false_and]
      refine (h.skips_run hp hl he₁).mono fun out' _ he' => ?_
      simp [he', he₁]

variable (hw : t.WellShaped)
include hw

-- The flow goes on after any value.
theorem visits_value (hv : t.Valued asked id) (hl : t.levels id ≤ levels)
    (hu : p.graph.Underway (out.frontier ++ parked)) (he : out.frontier ≠ []) :
    Comes t policy [] (visit id out) p fun out' p' =>
      out'.frontier ≠ [] ∧ Delivers t (.node id) parked out p out' p' := by
  have ⟨_, hk⟩ := hv.exists_kind
  have hf := hw.fate_of_valued hv
  have hv := h.visits hk hl hu he
  rw [hf] at hv
  exact hv.mono fun _ _ ⟨hc, hd⟩ => ⟨hc.mpr rfl, hd⟩

theorem runs_values (hv : ∀ i ∈ parts, t.Valued false i) (hl : ∀ i ∈ parts, t.levels i ≤ levels)
    (hu : p.graph.Underway (out.frontier ++ parked)) (he : out.frontier ≠ []) :
    Comes t policy [] (sequence visit parts out) p fun out' p' =>
      out'.frontier ≠ [] ∧ Delivers t (.parts parts) parked out p out' p' := by
  have hs : Comes t policy [] (sequence visit parts out) p fun out' _ => out'.frontier ≠ [] := by
    induction parts generalizing out p parked
    case nil => exact .pure he
    case cons i is ih =>
      have ⟨hi, hv⟩ := List.forall_mem_cons.mp hv
      have ⟨hli, hl⟩ := List.forall_mem_cons.mp hl
      refine Comes.next (h.visits_value hw hi hli hu he) fun out₁ p₁ ⟨he₁, _, _, _, _, hf⟩ => ?_
      exact ih hv hl hf.underway he₁
  exact hs.and_meets (sequence_meets h.sound parts hu)

omit h hw in
theorem forks (hv : t.Valued true condition) (he : out.frontier ≠ [])
    (hd : Delivers t (.node condition) parked out p out₁ p₁) (on : Bool) :
    Comes t policy [] (fork on out₁.frontier) p₁ fun (evaluate, skipped) p' =>
      Splits evaluate skipped parked p p' := by
  have ⟨left, dead, _, _, hf⟩ := hd
  refine .of_plain ?_ (fork_plain on out₁.frontier)
  refine (fork_meets on hf.underway).mono fun (evaluate, skipped) p' ⟨sides, ha, hy, hn, hk⟩ => ?_
  have hlaid := hf.laid ha.keeps.grows
  -- There is no jump in a value.
  have hleft : left = [] := List.map_eq_nil_iff.mp (hlaid.left_eq_nil hv)
  subst hleft
  have he' : p.graph.looseEnds out.frontier ≠ [] := fun hn => he (List.map_eq_nil_iff.mp hn)
  have hs := Splits.of_forks ha hy hn (hk (.refl _)) (hlaid.tells hv he' (hk (.refl _)))
  exact ⟨hs.truthy_ne, hs.falsy_ne, hs.sides, hs.underway, hf.keeps.trans hs.keeps⟩

-- A condition is visited and its outcome told apart.
theorem tests {rest : Outflow → List Exit × List Exit → Walk α} {post : α → Progress → Prop}
    (hc : t.Valued true condition) (hl : t.levels condition ≤ levels)
    (hu : p.graph.Underway (exits ++ parked)) (he : exits ≠ [])
    (hr : ∀ tested truthy falsy p', Splits truthy falsy parked p p' →
      Comes t policy dead (rest tested (truthy, falsy)) p' post) :
    Comes t policy dead (do
      let tested ← visit condition { frontier := exits }
      let told ← fork true tested.frontier
      rest tested told) p post := by
  refine Comes.next (h.visits_value hw hc hl hu he) fun tested p₁ ⟨_, hd⟩ => ?_
  exact Comes.next (forks hc he hd true) fun (truthy, falsy) p₂ hs => hr tested truthy falsy p₂ hs

end Fares

-- A construct that the flow comes to fares as its fate says.
abbrev FaresAs (t : Tree) (policy : Policy) (id : Syntax.Id) (step : Walk Outflow) (p : Progress) :
    Prop :=
  Comes t policy (t.fate id).dead step p fun out' _ => (out'.frontier ≠ [] ↔ (t.fate id).completes)

theorem FaresAs.of_valued {step : Walk Outflow} (hw : t.WellShaped) (hv : t.Valued asked id)
    (h : Comes t policy [] step p fun out' _ => out'.frontier ≠ []) :
    FaresAs t policy id step p := by
  rw [FaresAs, hw.fate_of_valued hv]
  exact h.mono fun _ _ he => ⟨fun _ => rfl, fun _ => he⟩

section

variable (h : Fares t policy visit levels) (hw : t.WellShaped)
  (hu : p.graph.Underway (out.frontier ++ parked)) (he : out.frontier ≠ [])
include h hw hu he

theorem strict_fares (hf : t.form? id = some (.strict operands))
    (hl : ∀ i ∈ operands, t.levels i ≤ levels) :
    FaresAs t policy id (strict visit id operands out) p := by
  have hv : t.Valued true id := .strict hf fun _ => hw.valued_of_evaluated hf
  refine .of_valued hw hv ?_
  refine Comes.next (h.runs_values hw (fun _ => hw.valued_of_evaluated hf) hl hu he) ?_
  intro out₁ p₁ ⟨he₁, _, _, _, _, hf₁⟩
  exact place_comes id hf₁.underway he₁

theorem passing_fares (hf : t.form? id = some (.passing parts))
    (hl : ∀ i ∈ parts, t.levels i ≤ levels) :
    FaresAs t policy id (sequence visit parts out) p := by
  have hv : t.Valued false id := .passing hf fun _ => hw.valued_of_evaluated hf
  refine .of_valued hw hv ?_
  exact (h.runs_values hw (fun _ => hw.valued_of_evaluated hf) hl hu he).mono fun _ _ => And.left

theorem jump_fares (hf : t.form? id = some (.jump operand?.toList))
    (hl : ∀ i ∈ operand?.toList, t.levels i ≤ levels) :
    FaresAs t policy id (jump visit id operand? out) p := by
  have hv : ∀ i ∈ operand?.toList, t.Valued false i := fun _ => hw.valued_of_evaluated hf
  have hd := hw.deadIn_of_valued hv
  rw [FaresAs, hw.fate_eq hf]
  simp only [Form.completes, Form.dead, Form.parts, hd]
  have hs : Comes t policy [] (strict visit id operand?.toList out) p fun _ _ => True := by
    refine (h.runs_values hw hv hl hu he).next ?_
    rintro out₁ p₁ ⟨he₁, _, _, _, _, hf₁⟩
    exact (place_comes id hf₁.underway he₁).mono fun _ _ _ => trivial
  exact hs.last fun _ _ _ => .pure (by simp)

theorem block_fares (hf : t.form? id = some (.block statements))
    (hl : ∀ i ∈ statements, t.levels i ≤ levels) :
    FaresAs t policy id (place id out >>= sequence visit statements) p := by
  rw [FaresAs, hw.fate_eq hf]
  refine placed_first id hu he fun block p₁ ha => ?_
  exact h.runs (fun _ => hw.isProper_part hf nofun) hl ha.underway (List.cons_ne_nil _ _)

theorem parens_fares {inner : Syntax.Id} (hf : t.form? id = some (.parens inner))
    (hl : t.levels inner ≤ levels) :
    FaresAs t policy id (place id out >>= visit inner) p := by
  have hi := hw.valued_of_tested hf (.head _)
  have hv : t.Valued true id := .parens hf hi
  refine .of_valued hw hv ?_
  refine placed_first id hu he fun block p₁ ha => ?_
  exact (h.visits_value hw hi hl ha.underway (List.cons_ne_nil _ _)).mono fun _ _ => And.left

theorem negation_fares (hf : t.form? id = some (.negation operand))
    (hl : t.levels operand ≤ levels) :
    FaresAs t policy id (negation visit id operand out) p := by
  have ho := hw.valued_of_tested hf (.head _)
  have hv : t.Valued true id := .negation hf ho
  refine .of_valued hw hv ?_
  refine placed_first id hu he fun block p₁ ha => ?_
  refine Comes.next (h.visits_value hw ho hl ha.underway (List.cons_ne_nil _ _)) ?_
  intro out₂ p₂ ⟨he₂, _, _, _, _, hf₂⟩
  refine Comes.next (.of_plain (negate_meets hf₂.underway) (negate_plain out₂.frontier)) ?_
  intro exits p₃ ⟨_, _, hn⟩
  refine .pure fun hx => he₂ ?_
  have hx : exits = [] := hx
  rw [hx] at hn
  exact List.map_eq_nil_iff.mp (List.map_eq_nil_iff.mp hn.symm)

theorem branching_fares (hf : t.form? id = some (.branching condition yes no?))
    (hl : ∀ i ∈ condition :: yes :: no?.toList, t.levels i ≤ levels) :
    FaresAs t policy id (branching visit id condition yes no? out) p := by
  have hc := hw.valued_of_tested hf (.head _)
  obtain ⟨hlc, hlp⟩ := List.forall_mem_cons.mp hl
  obtain ⟨hly, hln⟩ := List.forall_mem_cons.mp hlp
  obtain ⟨_, hky⟩ := hw.exists_part hf (.tail _ (.head _))
  rw [FaresAs, hw.fate_eq hf]
  refine placed_first id hu he fun block p₁ ha => ?_
  refine h.tests hw hc hlc ha.underway (List.cons_ne_nil _ _) fun tested truthy falsy p₂ hs => ?_
  have hy := h.fresh hky hly hs.underway hs.truthy_ne
  cases no?
  case none =>
    have hd : Form.dead t.fate (.branching condition yes none) = (t.fate yes).dead := by
      simp [Form.dead, Form.deadIn, Form.parts, hw.fate_of_valued hc]
    rw [hd]
    refine hy.last fun yes p₃ _ => .pure ?_
    simp [Form.completes, hs.falsy_ne]
  case some no =>
    obtain ⟨_, hkn⟩ := hw.exists_part hf (.tail _ (.tail _ (.head _)))
    have hd : Form.dead t.fate (.branching condition yes (some no)) =
        (t.fate yes).dead ++ (t.fate no).dead := by
      simp [Form.dead, Form.deadIn, Form.parts, hw.fate_of_valued hc]
    rw [hd]
    refine hy.bind fun out₃ p₃ hd₃ => ?_
    obtain ⟨hcy, hu₃, _⟩ := hd₃
    have hu₃ := hu₃.reorder (falsy ++ (out₃.frontier ++ (out₃.leaving ++ parked)))
      (by simp [List.count_append]; omega)
    refine (h.fresh hkn (hln _ (.head _)) hu₃ hs.falsy_ne).last fun out₄ p₄ hd₄ => .pure ?_
    have hcn := hd₄.1
    change out₃.frontier ++ out₄.frontier ≠ [] ↔
      ((t.fate yes).completes || (t.fate no).completes) = true
    rw [Bool.or_eq_true, ← hcy, ← hcn, Ne, List.append_eq_nil_iff, not_and_or]

theorem whileLoop_fares (hf : t.form? id = some (.whileLoop condition body))
    (hlc : t.levels condition ≤ levels) (hlb : t.levels body ≤ levels) :
    FaresAs t policy id (whileLoop visit id condition body out) p := by
  have hc := hw.valued_of_tested hf (.head _)
  obtain ⟨_, hkb⟩ := hw.exists_part hf (.tail _ (.head _))
  have hd : Form.dead t.fate (.whileLoop condition body) = (t.fate body).dead := by
    simp [Form.dead, Form.deadIn, Form.parts, hw.fate_of_valued hc]
  rw [FaresAs, hw.fate_eq hf, hd]
  refine placed_first id hu he fun block p₁ ha => ?_
  refine .of_eq (gather_sole_eq id ha.underway) ?_
  refine h.tests hw hc hlc ha.underway (List.cons_ne_nil _ _) fun tested truthy falsy p₂ hs => ?_
  refine (h.fresh hkb hlb hs.underway hs.truthy_ne).last ?_
  rintro looped p₃ ⟨_, hu₃, hk₃⟩
  obtain ⟨entry, hn⟩ := hs.exists_entry ha.underway
  refine (back_comes hu₃ (hk₃.grows.leads hn) ?_).mono fun _ _ he => ⟨fun _ => rfl, fun _ => he⟩
  exact hs.falsy_ne

theorem doWhileLoop_fares (hf : t.form? id = some (.doWhileLoop body condition))
    (hlb : t.levels body ≤ levels) (hlc : t.levels condition ≤ levels) :
    FaresAs t policy id (doWhileLoop visit id body condition out) p := by
  have hc := hw.valued_of_tested hf (.head _)
  obtain ⟨_, hkb⟩ := hw.exists_part hf (.head _)
  have hpc := hw.isProper_part hf (by simp) (.tail _ (.head _))
  rw [FaresAs, hw.fate_eq hf, Form.dead, Form.completes, hw.fate_of_valued hc]
  refine placed_first id hu he fun block p₁ ha₁ => ?_
  refine .of_eq (gather_sole_eq id ha₁.underway) ?_
  have hg := grow_block_eq block ▸ join_meets ha₁.underway
  refine Comes.next (.of_plain hg (grow_block_plain block)) ?_
  rintro entry p₂ ⟨rfl, ha₂, hs₂, _⟩
  refine Comes.bind (h.fresh hkb hlb ha₂.underway (List.cons_ne_nil _ _)) ?_
  rintro looped p₃ ⟨hcb, hu₃, hk₃⟩
  cases hb : (t.fate body).completes
  case true =>
    refine h.tests hw hc hlc hu₃ (hcb.mpr hb) fun tested truthy falsy p₄ hs => ?_
    have hi : p₁.graph.nextId.index < p₄.graph.size := by
      have hlt : p₁.graph.size < p₂.graph.size := by omega
      exact Nat.lt_of_lt_of_le hlt (hk₃.grows.trans hs.keeps.grows).size_le
    have hc := connectAll_meets hs.underway ha₁.underway.nextId_ne_zero hi
    refine (Comes.of_plain hc (connectAll_plain truthy _)).next fun _ _ _ => .pure ?_
    simp [hs.falsy_ne]
  case false =>
    -- The condition is not tested, and nothing leaves the loop.
    have he₃ : looped.frontier = [] := by simpa [hb] using hcb
    rw [he₃]
    refine (h.dead hpc hlc rfl).last fun tested p₄ ht => ?_
    subst ht
    exact .pure (by simp)

omit hu he in
-- The updates come after the body.
theorem repeat_fares {header : NodeId} {out₁ : Outflow} {p₂ : Progress}
    (hf : t.form? id = some (.forLoop init condition? updates body))
    (hlu : ∀ i ∈ updates, t.levels i ≤ levels) (hlb : t.levels body ≤ levels)
    (hu : p₁.graph.Underway (.next header :: parked)) (hs : Splits truthy falsy parked p₁ p₂) :
    Comes t policy ((t.fate body).dead ++ if (t.fate body).completes then [] else updates) (do
      let looped ← visit body { frontier := truthy }
      let out := out₁.absorb looped
      let updated ← sequence visit updates { frontier := looped.frontier }
      let out := out.absorb updated
      connectAll updated.frontier (← loopEntry header)
      return { out with frontier := falsy, terminates := false }) p₂ fun out' _ =>
        out'.frontier ≠ [] := by
  obtain ⟨_, hkb⟩ := hw.exists_part hf (List.mem_append_right _ (.head _))
  have hvu : ∀ i ∈ updates, t.Valued false i := fun i hi =>
    hw.valued_of_evaluated hf (List.mem_append_right _ hi)
  have hpu : ∀ i ∈ updates, t.IsProper i := fun i hi =>
    hw.isProper_part hf (by simp) (by simp [Form.parts, hi])
  obtain ⟨entry, hn⟩ := hs.exists_entry hu
  refine Comes.bind (h.fresh hkb hlb hs.underway hs.truthy_ne) ?_
  rintro looped p₃ ⟨hcb, hu₃, hk₃⟩
  have hr : Comes t policy (if (t.fate body).completes then [] else updates)
      (sequence visit updates { frontier := looped.frontier }) p₃
      (Delivers t (.parts updates) (looped.leaving ++ (falsy ++ parked))
        { frontier := looped.frontier } p₃) := by
    cases hb : (t.fate body).completes
    case true  => exact Comes.mono (h.runs_values hw hvu hlu hu₃ (hcb.mpr hb)) fun _ _ => And.right
    case false =>
      have he : looped.frontier = [] := by simpa [hb] using hcb
      refine Comes.mono (Comes.and_meets (h.skips_run hpu hlu he) ?_) fun _ _ => And.right
      exact sequence_meets h.sound updates hu₃
  refine Comes.last hr ?_
  rintro updated p₄ ⟨_, _, _, _, hf₄⟩
  exact back_comes hf₄.underway (hf₄.keeps.grows.leads (hk₃.grows.leads hn)) hs.falsy_ne

theorem forLoop_fares (hf : t.form? id = some (.forLoop init condition? updates body))
    (hl : ∀ i ∈ init ++ condition?.toList ++ updates ++ [body], t.levels i ≤ levels) :
    FaresAs t policy id (forLoop visit id init condition? updates body out) p := by
  simp only [List.forall_mem_append, List.forall_mem_singleton] at hl
  obtain ⟨⟨⟨hli, hlc⟩, hlu⟩, hlb⟩ := hl
  have hvi : ∀ i ∈ init, t.Valued false i := fun i hi =>
    hw.valued_of_evaluated hf (List.mem_append_left _ hi)
  have hvu : ∀ i ∈ updates, t.Valued false i := fun i hi =>
    hw.valued_of_evaluated hf (List.mem_append_right _ hi)
  have hvc : ∀ c ∈ condition?.toList, t.Valued true c := fun c hc => hw.valued_of_tested hf hc
  have hdi : Form.deadIn t.fate (init ++ condition?.toList) = [] :=
    hw.deadIn_of_valued (List.forall_mem_append.mpr ⟨hvi, fun c hc => (hvc c hc).weaken⟩)
  have hdu := hw.deadIn_of_valued hvu
  rw [FaresAs, hw.fate_eq hf, Form.dead, hdi, hdu, List.nil_append]
  refine placed_first id hu he fun block p₁ ha₁ => ?_
  refine Comes.next (h.runs_values hw hvi hli ha₁.underway (List.cons_ne_nil _ _)) ?_
  rintro out₂ p₂ ⟨he₂, left, dead₂, _, _, hf₂⟩
  have hg := (gather_meets id hf₂.underway).mono fun _ _ => And.left
  refine Comes.next (.of_plain hg ((gather_plain id out₂.frontier).mono fun _ hi => hi he₂)) ?_
  intro header p₃ ha₃
  cases condition?
  case none =>
    have hp : (pure { frontier := [.next header] } : Walk Outflow) p₃ =
        .ok ({ frontier := [.next header] }, p₃) := rfl
    refine .of_eq hp ?_
    simp only [Option.isNone_none, ↓reduceIte]
    refine fork_forget_comes ha₃.underway fun truthy falsy p₄ hs => ?_
    refine (repeat_fares h hw hf hlu hlb ha₃.underway hs).mono fun _ _ he => ?_
    exact ⟨fun _ => rfl, fun _ => he⟩
  case some condition =>
    refine h.tests hw (hvc condition (.head _)) (hlc _ (.head _)) ha₃.underway
      (List.cons_ne_nil _ _) fun tested truthy falsy p₄ hs => ?_
    refine (repeat_fares h hw hf hlu hlb ha₃.underway hs).mono fun _ _ he => ?_
    exact ⟨fun _ => rfl, fun _ => he⟩

omit hu in
theorem shortCircuit_fares (hl : t.Valued true l) (hr : t.Valued true r)
    (hlr : t.levels r ≤ levels) (hd : Delivers t (.node l) parked out p out₁ p₁) (on : Bool) :
    Comes t policy [] (shortCircuit visit on r out₁) p₁ fun out' _ => out'.frontier ≠ [] := by
  refine Comes.next (Fares.forks hl he hd on) fun (evaluate, skipped) p₂ hs => ?_
  refine Comes.next (h.visits_value hw hr hlr hs.underway hs.truthy_ne) fun out₃ p₃ _ => .pure ?_
  cases on <;> simp [hs.falsy_ne]

omit hu in
theorem operator_fares {op : Syntax.BinaryOp} (hk : t.kind? id = some (.binary op l r))
    (hlr : t.levels r ≤ levels) (he₁ : out₁.frontier ≠ [])
    (hd : Delivers t (.node l) parked out p out₁ p₁) :
    Comes t policy [] (operator visit ⟨id, op, r⟩ out₁) p₁ fun out' _ => out'.frontier ≠ [] := by
  have hl := hw.valued (hw.operands hk (.head _))
  have hr := hw.valued (hw.operands hk (.tail _ (.head _)))
  cases op
  case and   => exact shortCircuit_fares h hw he hl hr hlr hd true
  case or    => exact shortCircuit_fares h hw he hl hr hlr hd false
  case other =>
    have ⟨_, _, _, _, hf₁⟩ := hd
    refine Comes.next (h.runs_values hw (List.forall_mem_singleton.mpr hr.weaken)
      (List.forall_mem_singleton.mpr hlr) hf₁.underway he₁) ?_
    intro out₂ p₂ ⟨he₂, _, _, _, _, hf₂⟩
    exact place_comes id hf₂.underway he₂

theorem chain_fares (hc : Chain t leftmost id links) (hv : t.Valued true id)
    (hl : t.levels leftmost ≤ levels) (hr : ∀ link ∈ links, t.levels link.right ≤ levels) :
    Comes t policy [] (do
      let out ← visit leftmost out
      links.foldlM (fun out link => operator visit link out) out) p fun out' _ =>
        out'.frontier ≠ [] := by
  induction hc
  case leftmost => exact (h.visits_value hw hv hl hu he).next fun _ _ ⟨he, _⟩ => .pure he
  case operator hc hk ih =>
    have ⟨hr, hlr⟩ := List.forall_mem_append.mp hr
    have hs := ih (hw.valued (hw.operands hk (.head _))) hr
    simp only [List.foldlM_append, List.foldlM_cons, List.foldlM_nil, bind_pure]
    rw [← bind_assoc]
    refine Comes.next (hs.and_meets (chain_meets h.sound hc hu)) fun out₁ p₁ ⟨he₁, hd⟩ => ?_
    exact operator_fares h hw he hk (hlr _ (.head _)) he₁ hd

theorem binary_fares (hk : t.kind? id = some (.binary op l r))
    (hl : t.levels id ≤ levels + 1) :
    FaresAs t policy id (binary visit t id out) p := by
  have ⟨leftmost, links, hs, hc, hb⟩ := exists_chain hw hk
  have hv : t.Valued true id := hw.valued ⟨_, hk, rfl⟩
  have hle : t.chainLevels id ≤ levels := by
    rw [hw.levels_binary hk] at hl
    exact Nat.le_of_succ_le_succ hl
  have ⟨hd, hr⟩ := (hc.levels_le_iff hw hb).mp hle
  rw [binary, hs]
  exact .of_valued hw hv (chain_fares h hw hu he hc hv hd hr)

theorem construct_fares (hk : t.kind? id = some kind) (hl : t.levels id ≤ levels + 1) :
    FaresAs t policy id (construct visit t id out) p := by
  have hf := Tree.form?_eq hk
  have hp (hb : kind.isBinary = false) : ∀ i ∈ kind.form.parts, t.levels i ≤ levels := by
    have hb : ¬t.IsBinary id := by simp [Tree.IsBinary, hk, hb]
    exact fun i hi => Nat.le_of_lt_succ (Nat.lt_of_lt_of_le (hw.levels_lt hf hb hi) hl)
  unfold construct
  rw [hk]
  cases kind
  case binary      => exact binary_fares h hw hu he hk hl
  case block       => exact block_fares h hw hu he hf (hp rfl)
  case ifStmt      => exact branching_fares h hw hu he hf (hp rfl)
  case ternary     => exact branching_fares h hw hu he hf (hp rfl)
  case whileStmt   =>
    exact whileLoop_fares h hw hu he hf (hp rfl _ (.head _)) (hp rfl _ (.tail _ (.head _)))
  case doWhileStmt =>
    exact doWhileLoop_fares h hw hu he hf (hp rfl _ (.head _)) (hp rfl _ (.tail _ (.head _)))
  case forStmt     => exact forLoop_fares h hw hu he hf (hp rfl)
  case parens      => exact parens_fares h hw hu he hf (hp rfl _ (.head _))
  case returnStmt  => exact jump_fares h hw hu he hf (hp rfl)
  case throwStmt   => exact jump_fares h hw hu he hf (hp rfl)
  case declarator  => exact passing_fares h hw hu he hf (hp rfl)
  case unary op _  =>
    cases op
    case not   => exact negation_fares h hw hu he hf (hp rfl _ (.head _))
    case other => exact strict_fares h hw hu he hf (hp rfl)
  case cast        => exact strict_fares h hw hu he hf (hp rfl)
  case assignment  => exact strict_fares h hw hu he hf (hp rfl)
  case call        => exact strict_fares h hw hu he hf (hp rfl)
  case new         => exact strict_fares h hw hu he hf (hp rfl)
  case varDecl     => exact strict_fares h hw hu he hf (hp rfl)
  all_goals
    have hf' : t.form? id = some (.strict []) := hf
    exact strict_fares h hw hu he hf' (by simp)

end
end Visitor
open Walk

-- Where the flow does not come, it depends on the policy.
theorem visit_comes_of_nil (hw : t.WellShaped) (policy : Policy) (maxDepth : Nat)
    (hp : t.IsProper id) (hl : t.levels id ≤ levels) (he : out.frontier = []) :
    Comes t policy [id] (Flow.visit t { unreachable := policy, maxDepth } levels id out) p
      fun out' _ => out' = out := by
  obtain ⟨kind, hk, hd⟩ := hp
  cases policy
  case reject =>
    exact (visit_stalls hw maxDepth levels hk he).comes hl (hw.placed_ne_nil ⟨kind, hk, hd⟩) p
  case skip   =>
    rw [Comes, visit_skips he]
    exact ⟨fun h => (by cases h), rfl, rfl⟩

theorem visit_fares (hw : t.WellShaped) (policy : Policy) (maxDepth levels : Nat) :
    Visitor.Fares t policy (Flow.visit t { unreachable := policy, maxDepth } levels) levels := by
  have hs := visit_sound t { unreachable := policy, maxDepth }
  induction levels
  case zero =>
    refine ⟨hs 0, fun {id} _ _ _ _ _ hl => ?_, visit_comes_of_nil hw policy maxDepth⟩
    exact absurd (hw.levels_pos id) (Nat.not_lt_of_le hl)
  case succ levels ih =>
    refine ⟨hs _, fun hk hl hu he => ?_, visit_comes_of_nil hw policy maxDepth⟩
    rw [visit_succ he]
    exact Visitor.construct_fares ih hw hu he hk hl

theorem visitBody_comes (hw : t.WellShaped) (policy : Policy)
    (hk : t.kind? scope = some (.block statements isStatic)) (hl : t.levels scope ≤ maxDepth + 1) :
    Comes t policy (t.fate scope).dead
      (visitBody t { unreachable := policy, maxDepth } scope { frontier := [.next ⟨0⟩] }) begun
      fun out p => ∃ finish, out.frontier = [.next finish] ∧
        p.graph.node? finish = some .finish := by
  have hf : t.form? scope = some (.block statements) := Tree.form?_eq hk
  have hb : ¬t.IsBinary scope := by simp [Tree.IsBinary, hk, Syntax.Kind.isBinary]
  have hls : ∀ i ∈ statements, t.levels i ≤ maxDepth := fun i hi =>
    Nat.le_of_lt_succ (Nat.lt_of_lt_of_le (hw.levels_lt hf hb hi) hl)
  have hv := visit_fares hw policy maxDepth maxDepth
  have hp : Comes t policy [] (place scope { frontier := [.next ⟨0⟩] }) begun fun out p =>
      out = { frontier := [.next ⟨1⟩] } ∧ p.graph = .opened scope := by
    rw [Comes, place_begun]
    exact ⟨fun _ => rfl, rfl, rfl, rfl⟩
  rw [hw.fate_eq hf, Form.dead]
  unfold visitBody
  rw [hk]
  refine Comes.next hp ?_
  rintro out p₁ ⟨rfl, hg⟩
  have hu : p₁.graph.Underway ([.next ⟨1⟩] ++ []) := hg ▸ Graph.opened_underway scope
  refine Comes.last (Comes.and_meets (hv.runs (fun _ => hw.isProper_part hf (by simp)) hls hu
    (List.cons_ne_nil _ _)) (Visitor.sequence_meets hv.sound statements hu)) ?_
  rintro out₂ p₂ ⟨_, left, _, hl, ht, hf₂⟩
  have hu₂ : p₂.graph.Underway (out₂.frontier ++ out₂.leaving) := by
    rw [hl]
    simpa using hf₂.underway
  refine .of_plain (close_meets hu₂ (ht (by simp)) fun finish p₃ hc => ?_) (close_plain out₂)
  exact .pure ⟨finish, rfl, hc.isFinish⟩

theorem walkBody_comes (hw : t.WellShaped) (policy : Policy)
    (hk : t.kind? scope = some (.block statements isStatic)) (hl : t.levels scope ≤ maxDepth + 1) :
    Comes t policy (t.fate scope).dead
      (walkBody t { unreachable := policy, maxDepth } scope) {} fun _ _ => True := by
  have hs : Comes t policy [] (grow .start) {} fun start p => start = ⟨0⟩ ∧ p = begun :=
    ⟨fun _ => rfl, rfl, rfl, rfl⟩
  refine Comes.next hs fun start p₁ ⟨he, hp⟩ => ?_
  subst he hp
  refine Comes.last (visitBody_comes hw policy hk hl) fun out p₂ ⟨finish, ho, hn⟩ => ?_
  rw [ho]
  refine Comes.of_eq (rfl : (get : Walk Progress) p₂ = _) ?_
  rw [if_pos hn]
  exact .pure trivial

theorem analyze_comes (hw : t.WellShaped) (policy : Policy)
    (hk : t.kind? scope = some (.block statements isStatic)) (hl : t.levels scope ≤ maxDepth + 1) :
    match analyze t { unreachable := policy, maxDepth } scope with
    | .ok s    =>
      (policy = .reject → (t.fate scope).dead = []) ∧ s.unreachable = (t.fate scope).dead
    | .error e => policy = .reject ∧ ∃ d position, (t.fate scope).dead.head? = some d ∧
      (t.placed d).head? = some position ∧ e = .emptyFrontier position := by
  have h := walkBody_comes hw policy hk hl
  unfold Comes at h
  unfold analyze StateT.run
  split at h
  case h_1 he =>
    rw [he]
    exact ⟨h.1, h.2.1⟩
  case h_2 he =>
    rw [he]
    exact h

-- The dead code is listed if it is to be skipped. Else there must be none of it: the analysis fails
-- at the first position in the first of it.
theorem analyze_deadCode (hw : t.WellShaped)
    (hk : t.kind? scope = some (.block statements isStatic))
    (hl : t.levels scope ≤ maxDepth + 1) :
    (∃ s, analyze t { unreachable := .skip, maxDepth } scope = .ok s ∧
      s.unreachable = (t.fate scope).dead) ∧
    ((∃ s, analyze t { unreachable := .reject, maxDepth } scope = .ok s) ↔
      (t.fate scope).dead = []) ∧
    ∀ d ds, (t.fate scope).dead = d :: ds → ∃ position, (t.placed d).head? = some position ∧
      analyze t { unreachable := .reject, maxDepth } scope = .error (.emptyFrontier position) := by
  have hs := analyze_comes hw .skip hk hl
  have hr := analyze_comes hw .reject hk hl
  refine ⟨?_, ?_, ?_⟩
  · split at hs
    case h_1 he => exact ⟨_, he, hs.2⟩
    case h_2    => cases hs.1
  · split at hr
    case h_1 he => exact iff_of_true ⟨_, he⟩ (hr.1 rfl)
    case h_2 he =>
      have ⟨_, d, _, hd, _⟩ := hr
      refine iff_of_false (fun ⟨_, he'⟩ => ?_) fun hn => ?_
      · cases he.symm.trans he'
      · rw [hn] at hd
        cases hd
  · intro d ds hd
    rw [hd] at hr
    split at hr
    case h_1    => cases hr.1 rfl
    case h_2 he =>
      have ⟨_, _, position, hd', hp, he'⟩ := hr
      cases hd'
      exact ⟨position, hp, he' ▸ he⟩

theorem analyze_deadCode_deserted :
    deserted.2.WellShaped ∧ (deserted.2.fate deserted.1).dead = [⟨0⟩, ⟨9⟩, ⟨11⟩, ⟨13⟩] ∧
    (∃ s, analyze deserted.2 { unreachable := .skip } deserted.1 = .ok s ∧
      s.unreachable = [⟨0⟩, ⟨9⟩, ⟨11⟩, ⟨13⟩]) ∧
    analyze deserted.2 {} deserted.1 = .error (.emptyFrontier ⟨0⟩) := by
  have hw : deserted.2.WellShaped := by decide +kernel
  have hk : deserted.2.kind? deserted.1 = some (.block [⟨7⟩, ⟨12⟩, ⟨13⟩] false) := by
    decide +kernel
  have hl : deserted.2.levels deserted.1 ≤ 256 + 1 :=
    Nat.le_trans (hw.levels_le deserted.1).1 (by decide +kernel)
  have hd : (deserted.2.fate deserted.1).dead = [⟨0⟩, ⟨9⟩, ⟨11⟩, ⟨13⟩] := by decide +kernel
  have hp : deserted.2.placed ⟨0⟩ = [⟨0⟩] := by decide +kernel
  have ⟨⟨s, hs, hu⟩, _, hr⟩ := analyze_deadCode hw hk hl
  have ⟨position, hp', he⟩ := hr _ _ hd
  rw [hp] at hp'
  cases hp'
  exact ⟨hw, hd, ⟨s, hs, hu.trans hd⟩, he⟩

end RoutineFlow.Flow
