import RoutineFlow.Proofs.Passage

-- How far a construct extends in the graph. Its nodes are numbered without a gap, its edges stay
-- among them, and what goes elsewhere starts from one of its ends or jumps. So a construct is
-- entered where its first position is placed, and left where it is said to leave off.

namespace RoutineFlow

theorem Syntax.Tree.WellShaped.isProper_of_tested {t : Syntax.Tree} (hw : t.WellShaped)
    (hf : t.form? i = some form) (hp : part ∈ form.tested) : t.IsProper part := by
  obtain ⟨kind, hk, rfl⟩ := Option.map_eq_some_iff.mp hf
  exact (hw.operands hk (Kind.mem_operands_of_tested hp)).isProper

namespace Flow

open Syntax (Tree Form)

variable {g : Graph} {t : Tree} {task : Task} {lo mid hi : Nat} {i : Syntax.Id}
  {id n entry : NodeId} {slot : Slot} {branch : Branch} {labelled sense : Bool} {e : LooseEnd}
  {ends ends' ends₁ outs outs₁ outs₂ left sides : List LooseEnd} {dead found : List Syntax.Id}

def NodeId.Within (lo hi : Nat) (id : NodeId) : Prop :=
  lo ≤ id.index ∧ id.index < hi

theorem NodeId.Within.widen {lo' hi' : Nat} (h : id.Within lo hi) (hl : lo' ≤ lo) (hh : hi ≤ hi') :
    id.Within lo' hi' :=
  ⟨Nat.le_trans hl h.1, Nat.lt_of_lt_of_le h.2 hh⟩

-- The slot is that of one of the ends.
def LooseEnd.At (ends : List LooseEnd) (slot : Slot) : Prop :=
  ∃ e ∈ ends, e.slot = slot

namespace LooseEnd

theorem at_of_mem (h : e ∈ ends) : At ends e.slot :=
  ⟨e, h, rfl⟩

@[simp, grind =]
theorem at_nil : At [] slot ↔ False := by
  simp [At]

@[simp, grind =]
theorem at_cons : At (e :: ends) slot ↔ e.slot = slot ∨ At ends slot := by
  simp [At]

@[simp, grind =]
theorem at_append : At (ends ++ ends') slot ↔ At ends slot ∨ At ends' slot := by
  simp [At, or_and_right, exists_or]

@[simp, grind =]
theorem at_negate : At (ends.map .negate) slot ↔ At ends slot := by
  simp [At]

theorem at_join {on : Bool} :
    At (if on then ends ++ ends' else ends' ++ ends) slot ↔ At ends slot ∨ At ends' slot := by
  simp only [At, mem_join, or_and_right, exists_or]

theorem At.filter (h : At ends slot) (p : LooseEnd → Bool) :
    At (ends.filter p) slot ∨ At (ends.filter fun e => !p e) slot := by
  obtain ⟨e, hm, rfl⟩ := h
  cases hp : p e
  case true  => exact .inl (at_of_mem (List.mem_filter.mpr ⟨hm, hp⟩))
  case false => exact .inr (at_of_mem (List.mem_filter.mpr ⟨hm, by simp [hp]⟩))

end LooseEnd

open LooseEnd NodeId

namespace Graph

theorem Gathers.slot_next (h : g.Gathers lo ends hi e) : e.slot.2 = .next := by
  cases h <;> rfl

theorem Places.slot_next (h : g.Places i lo ends hi e) : e.slot.2 = .next := by
  cases h
  rfl

-- The edges that start from the nodes `lo` to below `hi`, or from the ends `ends`, lead to these
-- nodes, but for those of the ends `outs`.
structure Confines (g : Graph) (lo hi : Nat) (ends outs : List LooseEnd) : Prop where
  le : lo ≤ hi
  leads {slot : Slot} {target : NodeId} : g.Leads slot target →
    slot.1.Within lo hi ∨ At ends slot → target.Within lo hi ∨ At outs slot

namespace Confines

theorem nil : g.Confines lo lo ends ends where
  le := Nat.le_refl _
  leads _ hs := by
    cases hs
    case inl hs => exact absurd hs.2 (Nat.not_lt_of_le hs.1)
    case inr hs => exact .inr hs

-- What leaves the first nodes goes on to the next ones or is left open.
theorem trans {ends₂ : List LooseEnd} (h : g.Confines lo mid ends outs₁)
    (h' : g.Confines mid hi ends₂ outs₂)
    (h₁ : ∀ slot, At outs₁ slot → At ends₂ slot ∨ At outs slot)
    (h₂ : ∀ slot, At outs₂ slot → At outs slot) : g.Confines lo hi ends outs where
  le := Nat.le_trans h.le h'.le
  leads {slot target} hl hs := by
    have hm := h.le
    have hm' := h'.le
    have hnext (hs : slot.1.Within mid hi ∨ At ends₂ slot) :
        target.Within lo hi ∨ At outs slot := by
      cases h'.leads hl hs
      case inl ht => exact .inl ⟨Nat.le_trans hm ht.1, ht.2⟩
      case inr ho => exact .inr (h₂ _ ho)
    have hfirst (hs : slot.1.Within lo mid ∨ At ends slot) :
        target.Within lo hi ∨ At outs slot := by
      cases h.leads hl hs
      case inl ht => exact .inl ⟨ht.1, Nat.lt_of_lt_of_le ht.2 hm'⟩
      case inr ho => exact (h₁ _ ho).elim (hnext ∘ .inr) .inr
    cases hs
    case inr hs => exact hfirst (.inr hs)
    case inl hs =>
      cases Nat.lt_or_ge slot.1.index mid
      case inl hlt => exact hfirst (.inl ⟨hs.1, hlt⟩)
      case inr hge => exact hnext (.inl ⟨hge, hs.2⟩)

theorem next (h : g.Confines lo mid ends ends₁) (h' : g.Confines mid hi ends₁ outs) :
    g.Confines lo hi ends outs :=
  h.trans h' (fun _ => .inl) fun _ hs => hs

theorem seq (h : g.Confines lo mid ends (ends₁ ++ left)) (h' : g.Confines mid hi ends₁ outs) :
    g.Confines lo hi ends (outs ++ left) := by
  refine h.trans h' (fun slot hs => ?_) fun slot hs => at_append.mpr (.inl hs)
  exact (at_append.mp hs).imp_right fun hs => at_append.mpr (.inr hs)

theorem mono (h : g.Confines lo hi ends outs) (ho : ∀ slot, At outs slot → At outs₁ slot) :
    g.Confines lo hi ends outs₁ :=
  ⟨h.le, fun hl hs => (h.leads hl hs).imp_right (ho _)⟩

-- Ends that are put aside stay open.
theorem aside (h : g.Confines lo hi ends outs) (rest : List LooseEnd) :
    g.Confines lo hi (ends ++ rest) (outs ++ rest) where
  le := h.le
  leads hl hs := by
    rw [at_append, ← or_assoc] at hs ⊢
    exact hs.imp_left (h.leads hl)

-- One of two values goes on, the other one is left open.
theorem arm (h : g.Confines lo mid ends sides) (p : LooseEnd → Bool)
    (h' : g.Confines mid hi (sides.filter p) outs) :
    g.Confines lo hi ends (sides.filter (fun e => !p e) ++ outs) := by
  refine h.trans h' (fun slot hs => ?_) fun slot hs => at_append.mpr (.inr hs)
  exact (hs.filter p).imp_right fun hs => at_append.mpr (.inl hs)

-- What is open may lead back to one of the nodes.
theorem close (h : g.Confines lo hi ends outs) (he : entry.Within lo hi)
    (hb : ∀ e ∈ outs₂, g.Arrives entry e)
    (ho : ∀ slot, At outs slot → At outs₁ slot ∨ At outs₂ slot) :
    g.Confines lo hi ends outs₁ where
  le := h.le
  leads hl hs := by
    cases h.leads hl hs
    case inl ht => exact .inl ht
    case inr hs =>
      cases ho _ hs
      case inl hs => exact .inr hs
      case inr hs =>
        obtain ⟨e, hm, rfl⟩ := hs
        exact .inl (hl.unique (hb e hm).leads ▸ he)

-- Where the flow is told apart at once, the end leads to one of the nodes.
theorem entry_within (h : g.Confines lo hi [e] sides) (hk : g.Forks labelled mid ends hi sides)
    (he : e.slot.2 = .next) (hl : g.Leads e.slot entry) : entry.Within lo hi := by
  refine (h.leads hl (.inr (at_of_mem (.head _)))).resolve_right ?_
  rintro ⟨s, hm, hs⟩
  exact hk.label_ne_next s hm (hs ▸ he)

end Confines

theorem HasBlock.eq_next (hb : g.HasBlock id) (hl : g.Leads slot entry) (hi : slot.1 = id) :
    slot = (id, .next) := by
  obtain ⟨_, _, _, hn⟩ := hb
  obtain ⟨_, label⟩ := slot
  subst hi
  simp only [Leads, slot?, hn, Option.bind_some] at hl
  cases label
  case next   => rfl
  case branch => simp [Node.slot?] at hl

theorem confines_block (hb : g.HasBlock ⟨lo⟩) (ha : ∀ e ∈ ends, g.Arrives ⟨lo⟩ e) :
    g.Confines lo (lo + 1) ends [.block ⟨lo⟩ 0 none false] where
  le := Nat.le_succ _
  leads {slot target} hl hs := by
    cases hs
    case inl hs =>
      have hi : slot.1 = ⟨lo⟩ := NodeId.ext (Nat.le_antisymm (Nat.le_of_lt_succ hs.2) hs.1)
      exact .inr (at_cons.mpr (.inl (hb.eq_next hl hi).symm))
    case inr hs =>
      obtain ⟨e, hm, rfl⟩ := hs
      rw [hl.unique (ha e hm).leads]
      exact .inl ⟨Nat.le_refl _, Nat.lt_succ_self _⟩

theorem Gathers.confines (h : g.Gathers lo ends hi e) : g.Confines lo hi ends [e] := by
  cases h
  case sole          => exact .nil
  case join hb _ _ ha => exact confines_block hb ha

theorem Places.confines (h : g.Places i lo ends hi e) : g.Confines lo hi ends [e] := by
  cases h
  case intro hg _ =>
    have hc := hg.confines
    exact ⟨hc.le, fun hl hs => by simpa [slot] using hc.leads hl hs⟩

theorem confines_condition {first : Bool} (ha : g.Arrives ⟨lo⟩ e)
    (hn : g.node? ⟨lo⟩ = some (.condition on? truthy? falsy? first)) :
    g.Confines lo (lo + 1) [e] [.side ⟨lo⟩ .truthy true, .side ⟨lo⟩ .falsy false] where
  le := Nat.le_succ _
  leads {slot target} hl hs := by
    cases hs
    case inl hs =>
      obtain ⟨id, label⟩ := slot
      have hi : id = ⟨lo⟩ := NodeId.ext (Nat.le_antisymm (Nat.le_of_lt_succ hs.2) hs.1)
      subst hi
      rcases label with _ | _ | _ <;> simp_all [Leads, slot?, Node.slot?, LooseEnd.slot]
    case inr hs =>
      obtain ⟨e', hm, rfl⟩ := hs
      cases List.mem_singleton.mp hm
      rw [hl.unique ha.leads]
      exact .inl ⟨Nat.le_refl _, Nat.lt_succ_self _⟩

theorem Forks.confines (h : g.Forks labelled lo ends hi sides) : g.Confines lo hi ends sides := by
  induction h
  case nil => exact .nil
  case side ih =>
    refine ⟨ih.le, fun hl hs => ?_⟩
    rw [at_cons, or_left_comm] at hs ⊢
    exact hs.imp_right (ih.leads hl)
  case block ha hn _ ih =>
    -- Which value stands for a side does not matter for where it leads.
    refine ((confines_condition ha hn).aside _).trans ih (fun slot hs => ?_) fun slot hs => ?_
    case refine_1 => simp only [at_append, at_cons, at_nil, LooseEnd.slot] at hs ⊢; tauto
    case refine_2 => simp only [at_cons]; exact .inr (.inr hs)

end Graph

open Graph

-- In a test no jump is left open.
theorem Laid.confines_test (h : Laid g t task lo ends mid ends₁ left dead)
    (hv : task.Valued t asked) (hc : g.Confines lo mid ends (ends₁ ++ left))
    (hk : g.Forks labelled mid ends₁ hi sides) : g.Confines lo hi ends sides := by
  rw [h.left_eq_nil hv, List.append_nil] at hc
  exact hc.next hk.confines

theorem Laid.confines (hw : t.WellShaped) (h : Laid g t task lo ends hi ends' left dead) :
    g.Confines lo hi ends (ends' ++ left) := by
  induction h
  case skipped          => exact .nil
  case nil              => exact Confines.nil.mono (by grind)
  case cons ih₁ ih₂     => exact (ih₁.seq ih₂).mono (by grind)
  case strict hp ih     => exact ih.seq hp.confines
  case jump hp ih       => exact (ih.seq hp.confines).mono (by grind)
  case passing ih       => exact ih
  case block hp _ ih    => exact hp.confines.next ih
  case parens hp _ ih   => exact hp.confines.next ih
  case negation hp _ ih => exact (hp.confines.next ih).mono (by grind)
  case shortCircuit hf hc hk _ ih₁ ih₂ =>
    have ht := hc.confines_test (hw.valued_of_tested hf (.head _)) ih₁ hk
    refine (ht.arm _ ih₂).mono fun slot hs => ?_
    simp only [at_append, at_join] at hs ⊢
    tauto
  case branchingOne hf hp hc hk _ ih₁ ih₂ =>
    have ht := hc.confines_test (hw.valued_of_tested hf (.head _)) ih₁ hk
    exact (hp.confines.next (ht.arm _ ih₂)).mono (by grind)
  case branchingTwo hf hp hc hk _ _ ih₁ ih₂ ih₃ =>
    have ht := hc.confines_test (hw.valued_of_tested hf (.head _)) ih₁ hk
    have hy := hp.confines.next (ht.arm _ ih₂)
    exact (hy.seq ih₃).mono (by grind)
  case whileLoop hf hp hc hk _ hn hr ih₁ ih₂ =>
    have ht := hc.confines_test (hw.valued_of_tested hf (.head _)) ih₁ hk
    have he := ht.entry_within hk hp.slot_next hn
    have hb := hp.confines.next (ht.arm _ ih₂)
    exact hb.close (he.widen hp.confines.le ih₂.le) hr (by grind)
  case doWhileLoop hf hp ha hb _ hc hk hr ih₁ ih₂ =>
    have ht := hc.confines_test (hw.valued_of_tested hf (.head _)) ih₂ hk
    have hn := confines_block hb (List.forall_mem_singleton.mpr ha)
    have he : NodeId.Within _ _ ⟨_⟩ := ⟨Nat.le_refl _, ih₁.le⟩
    have hb := ((hp.confines.next hn).next ih₁).seq ht
    refine hb.close (he.widen hp.confines.le ht.le) hr fun slot hs => ?_
    cases at_append.mp hs
    case inl hs => exact (hs.filter (·.hasSense true)).symm.imp_left (by grind)
    case inr hs => exact .inl (by grind)
  case forLoop hf hp _ hg hc hk _ _ hn hr ih₁ ih₂ ih₃ ih₄ =>
    have hv c (hm : c ∈ _) : t.Valued false c := (hw.valued_of_tested hf hm).weaken
    have ht := hc.confines_test ⟨rfl, hv⟩ ih₂ hk
    have he := ht.entry_within hk hg.slot_next hn
    have hb := hg.confines.next (ht.arm _ (ih₃.seq ih₄))
    have hi := (hp.confines.next ih₁).seq hb
    refine hi.close (he.widen ?_ (ih₃.seq ih₄).le) hr (by grind)
    exact ((hp.confines.next ih₁).seq hg.confines).le

theorem Laid.le (hw : t.WellShaped) (h : Laid g t task lo ends hi ends' left dead) : lo ≤ hi :=
  (h.confines hw).le

namespace Graph

-- The ends go on with the first of the positions `found`.
def Begins (g : Graph) (lo : Nat) (ends : List LooseEnd) (hi : Nat) (found : List Syntax.Id) :
    Prop :=
  ∃ x mid e, found.head? = some x ∧ g.Places x lo ends mid e ∧ mid ≤ hi

theorem Places.begins (h : g.Places i lo ends mid e) (hle : mid ≤ hi) (rest : List Syntax.Id) :
    g.Begins lo ends hi (i :: rest) :=
  ⟨i, mid, e, rfl, h, hle⟩

theorem Begins.append (h : g.Begins lo ends mid found) (hle : mid ≤ hi)
    (found' : List Syntax.Id) : g.Begins lo ends hi (found ++ found') := by
  obtain ⟨x, n, e, hx, hp, hn⟩ := h
  exact ⟨x, n, e, by rw [List.head?_append, hx]; rfl, hp, Nat.le_trans hn hle⟩

theorem Places.begins_after
    (h : (found = [] ∧ mid = lo ∧ ends₁ = ends) ∨ g.Begins lo ends mid found)
    (hp : g.Places i mid ends₁ hi e) : g.Begins lo ends hi (found ++ [i]) := by
  cases h
  case inr hb => exact hb.append hp.confines.le _
  case inl hn =>
    obtain ⟨rfl, rfl, rfl⟩ := hn
    exact hp.begins (Nat.le_refl _) []

end Graph

-- A construct goes on with its first position, unless it has none and adds nothing.
theorem Laid.begins (hw : t.WellShaped) (h : Laid g t task lo ends hi ends' left dead)
    (he : ends = [] → dead = []) :
    (t.placedOf task.ids = [] ∧ hi = lo ∧ ends' = ends) ∨
      g.Begins lo ends hi (t.placedOf task.ids) := by
  have hfirst {i lo mid hi ends e form} (hf : t.form? i = some form)
      (hp : g.Places i lo ends mid e) (hc : form.comesLast = false) (hle : mid ≤ hi) :
      g.Begins lo ends hi (t.placed i) := by
    rw [hw.placed_eq hf, hc]
    exact hp.begins hle _
  induction h
  case skipped => exact absurd (he rfl) (List.cons_ne_nil _ _)
  case nil     => exact .inl ⟨rfl, rfl, rfl⟩
  case cons h₂ ih₁ ih₂ =>
    have he hn := List.append_eq_nil_iff.mp (he hn)
    rw [Task.ids, Tree.placedOf_cons]
    cases ih₁ fun hn => (he hn).1
    case inr hb => exact .inr (hb.append (h₂.le hw) _)
    case inl hn =>
      obtain ⟨hn, rfl, rfl⟩ := hn
      change t.placed _ = [] at hn
      rw [hn]
      exact ih₂ fun hn => (he hn).2
  case strict hf _ hp ih =>
    change _ ∨ g.Begins _ _ _ (t.placed _)
    rw [hw.placed_eq hf]
    exact .inr (Places.begins_after (ih he) hp)
  case jump hf _ hp ih =>
    change _ ∨ g.Begins _ _ _ (t.placed _)
    rw [hw.placed_eq hf]
    exact .inr (Places.begins_after (ih he) hp)
  case passing hf _ ih =>
    change (t.placed _ = [] ∧ _) ∨ g.Begins _ _ _ (t.placed _)
    rw [hw.placed_eq hf]
    simpa [Form.comesLast, Form.order, Form.parts, Form.isPlaced] using ih he
  case shortCircuit hf _ hk hr ih₁ _ =>
    change _ ∨ g.Begins _ _ _ (t.placed _)
    have hl := hw.placed_ne_nil (hw.isProper_of_tested hf (.head _))
    have hb := (ih₁ fun hn => (List.append_eq_nil_iff.mp (he hn)).1).resolve_left fun hn => hl hn.1
    rw [hw.placed_eq hf]
    simp only [Form.comesLast, Form.order, Form.parts, Form.isPlaced]
    have hle := Nat.le_trans hk.confines.le (hr.le hw)
    exact .inr (by simpa [Tree.placedOf_cons] using hb.append hle _)
  case block hf hp hl _     => exact .inr (hfirst hf hp rfl (hl.le hw))
  case parens hf hp hl _    => exact .inr (hfirst hf hp rfl (hl.le hw))
  case negation hf hp hl _  => exact .inr (hfirst hf hp rfl (hl.le hw))
  case branchingOne hf hp hl hk hy _ _ =>
    have hle := Nat.le_trans (hl.le hw) (Nat.le_trans hk.confines.le (hy.le hw))
    exact .inr (hfirst hf hp rfl hle)
  case branchingTwo hf hp hl hk hy hn _ _ _ =>
    have ht := Nat.le_trans (hl.le hw) hk.confines.le
    exact .inr (hfirst hf hp rfl (Nat.le_trans ht (Nat.le_trans (hy.le hw) (hn.le hw))))
  case whileLoop hf hp hl hk hb _ _ _ _ =>
    have hle := Nat.le_trans (hl.le hw) (Nat.le_trans hk.confines.le (hb.le hw))
    exact .inr (hfirst hf hp rfl hle)
  case doWhileLoop hf hp _ _ hb hl hk _ _ _ =>
    have hle := Nat.le_trans (hb.le hw) (Nat.le_trans (hl.le hw) hk.confines.le)
    exact .inr (hfirst hf hp rfl (Nat.le_of_succ_le hle))
  case forLoop hf hp hli hg hlc hk hlb hlu _ _ _ _ _ _ =>
    have hi := Nat.le_trans (hli.le hw) hg.confines.le
    have ht := Nat.le_trans (hlc.le hw) hk.confines.le
    have hb := Nat.le_trans (hlb.le hw) (hlu.le hw)
    exact .inr (hfirst hf hp rfl (Nat.le_trans hi (Nat.le_trans ht hb)))

-- A statement has a position.
theorem Laid.begins_proper (hw : t.WellShaped) (hs : t.IsProper i)
    (h : Laid g t (.node i) lo ends hi ends' left dead) (he : ends = [] → dead = []) :
    g.Begins lo ends hi (t.placed i) :=
  (h.begins hw he).resolve_left fun hn => hw.placed_ne_nil hs hn.1

namespace Graph

-- The slot leads to a block that begins with the first of the positions `found`.
def Opens (g : Graph) (slot : Slot) (id : NodeId) (found : List Syntax.Id) : Prop :=
  g.Leads slot id ∧ ∃ x, found.head? = some x ∧ (g.positions id).head? = some x

-- Behind a side of a condition there is no block yet.
theorem Begins.opens (h : g.Begins lo [.side n branch sense] hi found) :
    g.Opens (n, .branch branch) ⟨lo⟩ found := by
  obtain ⟨x, _, _, hx, hp, -⟩ := h
  cases hp
  case intro hg hp =>
    cases hg
    case join _ _ _ ha =>
      exact ⟨ha _ (.head _), x, hx, by rw [List.head?_eq_getElem?]; exact hp⟩

end Graph

theorem Laid.opens_proper (hw : t.WellShaped) (hs : t.IsProper i)
    (h : Laid g t (.node i) lo [.side n branch sense] hi ends' left dead) :
    g.Opens (n, .branch branch) ⟨lo⟩ (t.placed i) :=
  (h.begins_proper hw hs nofun).opens

end Flow
end RoutineFlow
