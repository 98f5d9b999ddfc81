import RoutineFlow.Proofs.Connected
import RoutineFlow.Proofs.Policies
import RoutineFlow.Proofs.Untested

-- Blocks are as long as they can be. Where one block follows another, the flow comes there from
-- somewhere else, too, and the branches of a condition lead to different nodes. Both need that
-- nothing is left out: a loop whose end the flow does not come to is entered from one place only.

namespace RoutineFlow.Flow

open Syntax (Tree Form)

variable {g : Graph} {t : Tree} {task : Task} {lo mid hi m n : Nat} {i scope : Syntax.Id}
  {id u v entry header : NodeId} {slot : Slot} {e : LooseEnd} {labelled value value' : Bool}
  {ends ends' ends₁ ends₂ left left₁ sides : List LooseEnd} {dead dead₁ found : List Syntax.Id}
  {s : Summary}

-- Whether the node is one of the first `n`.
def Slot.below (n : Nat) (slot : Slot) : Nat :=
  if slot.1.index < n then 1 else 0

theorem Slot.below_succ (n : Nat) (slot : Slot) :
    Slot.below (n + 1) slot = Slot.below n slot + if slot.1 = ⟨n⟩ then 1 else 0 := by
  obtain ⟨⟨k⟩, _⟩ := slot
  simp only [below, NodeId.mk.injEq]
  grind

namespace LooseEnd

theorem slot_fst (e : LooseEnd) : e.slot.1 = e.node := by
  cases e <;> rfl

-- How many of the ends have the slot.
def sharing (ends : List LooseEnd) (slot : Slot) : Nat :=
  (ends.map LooseEnd.slot).count slot

-- The ends have different slots, all of them slots of the first `n` nodes.
def Single (n : Nat) (ends : List LooseEnd) : Prop :=
  ∀ slot, sharing ends slot ≤ Slot.below n slot

@[simp]
theorem sharing_nil : sharing [] slot = 0 :=
  rfl

@[simp]
theorem sharing_cons :
    sharing (e :: ends) slot = sharing ends slot + if e.slot = slot then 1 else 0 := by
  simp [sharing, List.count_cons]

@[simp]
theorem sharing_append : sharing (ends ++ ends') slot = sharing ends slot + sharing ends' slot := by
  simp [sharing]

@[simp]
theorem sharing_negate : sharing (ends.map .negate) slot = sharing ends slot := by
  simp [sharing, Function.comp_def]

theorem sharing_le (h : ends'.Sublist ends) : sharing ends' slot ≤ sharing ends slot :=
  (h.map _).count_le _

theorem sharing_filter (p : LooseEnd → Bool) :
    sharing (ends.filter p) slot + sharing (ends.filter fun e => !p e) slot =
      sharing ends slot := by
  induction ends
  case nil          => rfl
  case cons e _ ih  => cases hp : p e <;> simp [hp] <;> omega

end LooseEnd

open LooseEnd

namespace Graph

-- A block that follows another one is entered from somewhere else, too.
def Joined (g : Graph) (id : NodeId) : Prop :=
  g.HasBlock id → ∀ {u}, g.HasBlock u → g.Leads (u, .next) id →
    ∃ a b, a ≠ b ∧ g.Step a id ∧ g.Step b id

-- What goes on from `ends` over the nodes `lo` to below `hi` and leaves off at `ends'` leaves no
-- slot open twice, and makes no block but where it has to.
structure Merges (g : Graph) (lo hi : Nat) (ends ends' : List LooseEnd) : Prop where
  once (slot : Slot) :
    sharing ends' slot + Slot.below lo slot ≤ sharing ends slot + Slot.below hi slot
  joins : Single lo ends → Between g.Joined lo hi

namespace Merges

theorem nil : g.Merges lo lo ends ends where
  once _  := Nat.le_refl _
  joins _ := .nil

theorem single (h : g.Merges lo hi ends ends') (hs : Single lo ends) : Single hi ends' := by
  intro slot
  have ho := h.once slot
  have hs := hs slot
  omega

theorem next (h : g.Merges lo mid ends ends₁) (h' : g.Merges mid hi ends₁ ends') :
    g.Merges lo hi ends ends' where
  once slot := by
    have ho  := h.once slot
    have ho' := h'.once slot
    omega
  joins hs := (h.joins hs).append (h'.joins (h.single hs))

-- What is put aside stays open. Of what is left open, some may be dropped.
theorem frame (h : g.Merges lo hi ends₁ ends₂) (rest : List LooseEnd)
    (he : ∀ slot, sharing ends₁ slot + sharing rest slot ≤ sharing ends slot)
    (he' : ∀ slot, sharing ends' slot ≤ sharing ends₂ slot + sharing rest slot) :
    g.Merges lo hi ends ends' where
  once slot := by
    have ho := h.once slot
    have he := he slot
    have he' := he' slot
    omega
  joins hs := h.joins fun slot => by
    have hs := hs slot
    have he := he slot
    omega

theorem fewer (h : g.Merges lo hi ends ends₁)
    (he : ∀ slot, sharing ends' slot ≤ sharing ends₁ slot) : g.Merges lo hi ends ends' :=
  h.frame [] (fun _ => Nat.le_refl _) he

theorem sublist (h : g.Merges lo hi ends ends₁) (hs : ends'.Sublist ends₁) :
    g.Merges lo hi ends ends' :=
  h.fewer fun _ => sharing_le hs

theorem behind (h : g.Merges lo hi ends ends') (rest : List LooseEnd) :
    g.Merges lo hi (rest ++ ends) (rest ++ ends') :=
  h.frame rest (fun _ => by simp [Nat.add_comm]) fun _ => by simp [Nat.add_comm]

theorem aside (h : g.Merges lo hi ends ends') (rest : List LooseEnd) :
    g.Merges lo hi (ends ++ rest) (ends' ++ rest) :=
  h.frame rest (fun _ => by simp) fun _ => by simp

-- One of two values goes on, the other one is left open.
theorem arm (h : g.Merges lo mid ends sides) (p : LooseEnd → Bool)
    (h' : g.Merges mid hi (sides.filter p) ends') :
    g.Merges lo hi ends (ends' ++ sides.filter fun e => !p e) :=
  h.next (h'.frame _ (fun _ => Nat.le_of_eq (sharing_filter p)) fun _ => by simp)

theorem block (hj : Single lo ends → g.Joined ⟨lo⟩) :
    g.Merges lo (lo + 1) ends [.block ⟨lo⟩ 0 none false] where
  once slot := by
    have hs : sharing [.block ⟨lo⟩ 0 none false] slot ≤ if slot.1 = ⟨lo⟩ then 1 else 0 := by
      simp [LooseEnd.slot]
      grind
    rw [Slot.below_succ]
    omega
  joins hd := .one (hj hd)

theorem condition (hc : ¬g.HasBlock ⟨lo⟩) :
    g.Merges lo (lo + 1) [e] [.side ⟨lo⟩ .truthy value, .side ⟨lo⟩ .falsy value'] where
  once slot := by
    have hs : sharing [.side ⟨lo⟩ .truthy value, .side ⟨lo⟩ .falsy value'] slot ≤
        if slot.1 = ⟨lo⟩ then 1 else 0 := by
      simp [LooseEnd.slot]
      grind
    rw [Slot.below_succ]
    omega
  joins _ := .one fun hb => absurd hb hc

end Merges

theorem Gathers.joined (hn : ends ≠ [])
    (hs : ∀ {node passed last? inverted},
      ends = [.block node passed last? inverted] → ¬g.HasBlock node)
    (ha : ∀ e ∈ ends, g.Arrives id e) (hd : Single n ends) : g.Joined id := by
  intro _ u hu hl
  by_cases hne : ∃ e ∈ ends, e.node ≠ u
  case pos =>
    obtain ⟨e, hm, hne⟩ := hne
    exact ⟨e.node, u, hne, (ha e hm).step, _, hl⟩
  case neg =>
    -- Then every end is that of the one block, so there is only one of them.
    have hu' e (hm : e ∈ ends) : e.slot = (u, .next) := by
      refine hu.eq_next (ha e hm).leads ?_
      rw [slot_fst]
      exact Classical.not_not.mp fun he => hne ⟨e, hm, he⟩
    have hd := hd (u, .next)
    rcases ends with _ | ⟨e, _ | ⟨e', _⟩⟩
    case nil => exact absurd rfl hn
    case cons.nil =>
      have he := hu' e (.head _)
      cases e
      case block => cases he; exact absurd hu (hs rfl)
      case side  => cases he
    case cons.cons =>
      have he  := hu' e (.head _)
      have he' := hu' e' (.tail _ (.head _))
      simp [he, he', Slot.below] at hd
      split at hd <;> omega

theorem Gathers.merges (h : g.Gathers lo ends hi e) : g.Merges lo hi ends [e] := by
  cases h
  case sole            => exact .nil
  case join _ hn hs ha => exact .block fun hd => Gathers.joined hn hs ha hd

theorem Places.merges (h : g.Places i lo ends hi e) : g.Merges lo hi ends [e] := by
  cases h
  case intro hg _ => exact hg.merges.fewer fun _ => Nat.le_refl _

theorem Forks.merges (h : g.Forks labelled lo ends hi sides) : g.Merges lo hi ends sides := by
  induction h
  case nil     => exact .nil
  case side ih => exact ih.behind [_]
  case block hn _ ih =>
    refine ((Merges.condition ?_).aside _).next (ih.behind [_, _])
    rintro ⟨_, _, _, hb⟩
    cases hn.symm.trans hb

theorem Begins.ends_ne_nil (h : g.Begins lo ends hi found) : ends ≠ [] := by
  obtain ⟨_, _, _, _, hp, -⟩ := h
  cases hp
  case intro hg _ =>
    cases hg
    case sole          => exact List.cons_ne_nil _ _
    case join hn _ _ _ => exact hn

-- The block at the beginning of a loop's body is entered from the header and from the test at the
-- end of the body.
theorem joined_entry (hb : g.HasBlock header) (ha : g.Leads (header, .next) id)
    (hk : g.Forks labelled mid ends hi sides) (hm : e ∈ sides) (hr : g.Arrives id e) :
    g.Joined id := by
  intro _ _ _ _
  refine ⟨header, e.node, ?_, ⟨_, ha⟩, hr.step⟩
  rintro rfl
  have he := hb.eq_next hr.leads (slot_fst e)
  exact hk.label_ne_next e hm (by rw [he])

end Graph

open Graph

theorem Laid.merges (hw : t.WellShaped) (h : Laid g t task lo ends hi ends' left dead)
    (hd : dead = []) : g.Merges lo hi ends ends' := by
  induction h
  case skipped          => cases hd
  case nil              => exact .nil
  case strict hp ih     => exact (ih hd).next hp.merges
  case jump hp ih       => exact ((ih hd).next hp.merges).sublist (List.nil_sublist _)
  case passing ih       => exact ih hd
  case block hp _ ih    => exact hp.merges.next (ih hd)
  case parens hp _ ih   => exact hp.merges.next (ih hd)
  case negation hp _ ih => exact (hp.merges.next (ih hd)).fewer fun _ => by simp
  case cons ih₁ ih₂ =>
    obtain ⟨hd₁, hd₂⟩ := List.append_eq_nil_iff.mp hd
    exact (ih₁ hd₁).next (ih₂ hd₂)
  case shortCircuit hk _ ih₁ ih₂ =>
    obtain ⟨hd₁, hd₂⟩ := List.append_eq_nil_iff.mp hd
    refine (((ih₁ hd₁).next hk.merges).arm _ (ih₂ hd₂)).fewer fun _ => ?_
    split <;> simp [Nat.add_comm]
  case branchingOne hp _ hk _ ih₁ ih₂ =>
    obtain ⟨hd₁, hd₂⟩ := List.append_eq_nil_iff.mp hd
    exact (hp.merges.next ((ih₁ hd₁).next hk.merges)).arm _ (ih₂ hd₂)
  case branchingTwo hp _ hk _ _ ih₁ ih₂ ih₃ =>
    obtain ⟨hd, hd₃⟩ := List.append_eq_nil_iff.mp hd
    obtain ⟨hd₁, hd₂⟩ := List.append_eq_nil_iff.mp hd
    have hy := (hp.merges.next ((ih₁ hd₁).next hk.merges)).arm _ (ih₂ hd₂)
    exact hy.next ((ih₃ hd₃).behind _)
  case whileLoop hp _ hk _ _ _ ih₁ ih₂ =>
    obtain ⟨hd₁, hd₂⟩ := List.append_eq_nil_iff.mp hd
    have hb := (hp.merges.next ((ih₁ hd₁).next hk.merges)).arm _ (ih₂ hd₂)
    exact hb.sublist (List.sublist_append_right ..)
  case doWhileLoop hf hp ha _ _ hl hk hr ih₁ ih₂ =>
    obtain ⟨hd₁, hd₂⟩ := List.append_eq_nil_iff.mp hd
    have hc := hw.valued_of_tested hf (.head _)
    -- The flow comes to the test, and goes back from there.
    have hn := (hl.begins_proper hw (hw.isProper_of_tested hf (.head _)) fun _ => hd₂).ends_ne_nil
    obtain ⟨s, hm, hs⟩ := hl.tells hc hn hk true
    obtain ⟨_, _, _, _, rfl, hb⟩ := hp.exists_block
    have he := joined_entry hb ha.leads hk hm (hr s (List.mem_filter.mpr ⟨hm, hs⟩))
    have hi := (hp.merges.next (.block fun _ => he)).next (ih₁ hd₁)
    exact ((hi.next (ih₂ hd₂)).next hk.merges).sublist List.filter_sublist
  case forLoop hp _ hg _ hk _ _ _ _ ih₁ ih₂ ih₃ ih₄ =>
    obtain ⟨hd, hd₄⟩ := List.append_eq_nil_iff.mp hd
    obtain ⟨hd, hd₃⟩ := List.append_eq_nil_iff.mp hd
    obtain ⟨hd₁, hd₂⟩ := List.append_eq_nil_iff.mp hd
    have ht := ((hp.merges.next (ih₁ hd₁)).next hg.merges).next ((ih₂ hd₂).next hk.merges)
    exact (ht.arm _ ((ih₃ hd₃).next (ih₄ hd₄))).sublist (List.sublist_append_right ..)

namespace Graph

-- The branches of a condition lead to different nodes.
def Parted (g : Graph) (id : NodeId) : Prop :=
  ∀ v, g.Leads (id, .branch .truthy) v → ¬g.Leads (id, .branch .falsy) v

theorem HasBlock.parted (hb : g.HasBlock id) : g.Parted id := fun _ hl _ => by
  cases hb.eq_next hl rfl

theorem Gathers.parted (h : g.Gathers lo ends hi e) : Between g.Parted lo hi := by
  cases h
  case sole          => exact .nil
  case join hb _ _ _ => exact .one hb.parted

theorem Places.parted (h : g.Places i lo ends hi e) : Between g.Parted lo hi := by
  cases h
  case intro hg _ => exact hg.parted

-- Of a new condition one side has the value, and the other one has not.
theorem Forks.parted (h : g.Forks labelled lo ends hi sides)
    (hy : ∀ e ∈ sides.filter (·.hasSense value), g.Arrives entry e)
    (hn : ∀ {slot v}, At (sides.filter (!·.hasSense value)) slot → g.Leads slot v → v ≠ entry) :
    Between g.Parted lo hi := by
  have hs : ∀ e ∈ sides, ∀ v, g.Leads e.slot v → (v = entry ↔ e.hasSense value) := by
    intro e hm v hl
    cases hv : e.hasSense value
    case true  =>
      exact iff_of_true (hl.unique (hy e (List.mem_filter.mpr ⟨hm, hv⟩)).leads) rfl
    case false =>
      have hm : e ∈ sides.filter (!·.hasSense value) := List.mem_filter.mpr ⟨hm, by rw [hv]; rfl⟩
      exact iff_of_false (hn (at_of_mem hm) hl) Bool.false_ne_true
  clear hy hn
  induction h
  case nil     => exact .nil
  case side ih => exact ih (List.forall_mem_cons.mp hs).2
  case block inverted _ _ _ _ ih =>
    obtain ⟨ht, hs⟩ := List.forall_mem_cons.mp hs
    obtain ⟨hf, hs⟩ := List.forall_mem_cons.mp hs
    refine .append (.one fun _ hl hl' => ?_) (ih hs)
    have ht := ht _ hl
    rw [hf _ hl'] at ht
    cases inverted <;> cases value <;> simp [hasSense] at ht

-- What goes on from the sides of conditions begins behind them.
theorem Begins.enters (h : g.Begins lo ends hi found) (hs : ∀ e ∈ ends, e.slot.2 ≠ .next) :
    lo < hi ∧ ∀ e ∈ ends, g.Arrives ⟨lo⟩ e := by
  obtain ⟨_, _, _, _, hp, hle⟩ := h
  cases hp
  case intro hg _ =>
    cases hg
    case sole      => exact absurd rfl (hs _ (.head _))
    case join ha _ => exact ⟨hle, ha⟩

end Graph

theorem Laid.enters {p : LooseEnd → Bool} (hw : t.WellShaped) (hs : t.IsProper i)
    (h : Laid g t (.node i) lo (sides.filter p) hi ends' left dead)
    (hk : g.Forks labelled m ends n sides) (hd : dead = []) :
    lo < hi ∧ ∀ e ∈ sides.filter p, g.Arrives ⟨lo⟩ e :=
  (h.begins_proper hw hs fun _ => hd).enters fun e hm =>
    hk.label_ne_next e (List.mem_filter.mp hm).1

namespace Summary.Around

variable {m₁ m₂ m₃ : Nat}

theorem dead_eq_nil (ha : s.Around lo hi ends left dead) (hr : s.unreachable = []) : dead = [] :=
  List.subset_nil.mp (hr ▸ ha.skipped)

-- What comes before the end of a construct.
theorem first (ha : s.Around lo hi ends left dead) (hc : s.graph.Confines mid hi ends₁ ends₂)
    (ho : ∀ slot, At ends₂ slot → At ends slot ∨ At left slot) (hl : left₁ ⊆ left)
    (hd : dead₁ ⊆ dead) : s.Around lo mid ends₁ left₁ dead₁ :=
  ha.part hc.le hl hd fun hs ht =>
    ha.apart_next (Nat.le_refl _) hc (fun hs _ => (ho _ hs).imp_right .inl) hs ht

-- What leads back to a node before it.
theorem back (ha : s.Around lo hi ends left dead) (hh : m₂ ≤ hi) (hl : left₁ ⊆ left)
    (hd : dead₁ ⊆ dead) (hr : ∀ e ∈ ends₁, s.graph.Arrives entry e) (he : ¬entry.Within m₁ m₂) :
    s.Around m₁ m₂ ends₁ left₁ dead₁ :=
  ha.part hh hl hd fun hs ht => hs.eq_target hr ht ▸ he

-- What is left open leads neither to a node of the construct nor to one of a part of it.
theorem elsewhere (ha : s.Around lo hi ends left dead) (he : entry.Within lo hi) (hl : lo ≤ m₁)
    (hh : m₂ ≤ hi) (ho : ∀ slot, At ends₁ slot → At ends slot) (hs : At ends₁ slot)
    (ht : s.graph.Leads slot v) : v ≠ entry ∧ ¬v.Within m₁ m₂ :=
  have hn := ha.apart (ho _ hs) ht
  ⟨fun hv => hn (hv ▸ he), fun hv => hn (hv.widen hl hh)⟩

section

variable (ha : s.Around lo hi ends left dead) (hh : m₃ ≤ hi) (hl : left₁ ⊆ left)
  (hd : dead₁ ⊆ dead) (hy : ∀ e ∈ sides.filter (·.hasSense value), s.graph.Arrives entry e)
  (he : ¬entry.Within m₁ m₂)
  (hn : ∀ {slot v}, At (sides.filter (!·.hasSense value)) slot → s.graph.Leads slot v →
    v ≠ entry ∧ ¬v.Within m₁ m₂)
include ha hh hl hd hy he hn

-- What comes before the flow is told apart, where neither side leads back there.
theorem before (hc : s.graph.Confines m₂ m₃ ends₁ sides) : s.Around m₁ m₂ ends₁ left₁ dead₁ :=
  ha.part (Nat.le_trans hc.le hh) hl hd fun hs ht hw => by
    rcases hc.leads ht (.inr hs) with hw' | hs
    case inl => exact Nat.not_lt_of_le hw'.1 hw.2
    case inr =>
      rcases hs.filter (·.hasSense value) with hs | hs
      case inl => exact he (hs.eq_target hy ht ▸ hw)
      case inr => exact (hn hs ht).2 hw

theorem test (hk : s.graph.Forks labelled m₂ ends₁ m₃ sides)
    (hb : s.Around m₁ m₂ ends₁ left₁ dead₁ → Between s.graph.Parted m₁ m₂) :
    Between s.graph.Parted m₁ m₃ :=
  (hb (ha.before hh hl hd hy he hn hk.confines)).append
    (hk.parted hy fun hs ht => (hn hs ht).1)

end

-- One side goes on right behind the test, the other one is left open.
theorem test_arm (ha : s.Around lo hi ends left dead) (hl : left₁ ⊆ left) (hd : dead₁ ⊆ dead)
    (hlo : lo ≤ m₁) (hle : m₁ ≤ m₂) (hk : s.graph.Forks labelled m₂ ends₁ m₃ sides)
    (hy : m₃ < hi ∧ ∀ e ∈ sides.filter (·.hasSense value), s.graph.Arrives ⟨m₃⟩ e)
    (ho : ∀ slot, At (sides.filter (!·.hasSense value)) slot → At ends slot)
    (hb : s.Around m₁ m₂ ends₁ left₁ dead₁ → Between s.graph.Parted m₁ m₂) :
    Between s.graph.Parted m₁ m₃ := by
  obtain ⟨hlt, hy⟩ := hy
  have hle' := hk.confines.le
  have he : NodeId.Within lo hi ⟨m₃⟩ := ⟨Nat.le_trans hlo (Nat.le_trans hle hle'), hlt⟩
  refine ha.test (Nat.le_of_lt hlt) hl hd hy (fun he => Nat.not_lt_of_le hle' he.2) ?_ hk hb
  exact ha.elsewhere he hlo (Nat.le_trans hle' (Nat.le_of_lt hlt)) ho

end Summary.Around

section

variable {init update : List Syntax.Id} {condition? : Option Syntax.Id} {body : Syntax.Id}
  {header : LooseEnd} {m₁ m₂ m₃ m₄ m₅ m₆ : Nat}
  {ends₁ ends₂ ends₃ ends₄ left₁ left₂ left₃ left₄ : List LooseEnd}
  {dead₁ dead₂ dead₃ dead₄ : List Syntax.Id}

theorem Laid.parted_forLoop (hw : t.WellShaped) (hr : s.unreachable = [])
    (hf : t.form? i = some (.forLoop init condition? update body))
    (hp : s.graph.Places i lo ends m₁ e)
    (hli : Laid s.graph t (.parts init) m₁ [e] m₂ ends₁ left₁ dead₁)
    (hg : s.graph.Gathers m₂ ends₁ m₃ header)
    (hlc : Laid s.graph t (.parts condition?.toList) m₃ [header] m₄ ends₂ left₂ dead₂)
    (hk : s.graph.Forks condition?.isSome m₄ ends₂ m₅ sides)
    (hlb : Laid s.graph t (.node body) m₅ (sides.filter (·.hasSense true)) m₆ ends₃ left₃ dead₃)
    (hlu : Laid s.graph t (.parts update) m₆ ends₃ hi ends₄ left₄ dead₄)
    (hn : s.graph.Leads header.slot entry) (hb : ∀ e ∈ ends₄, s.graph.Arrives entry e)
    (ha : s.Around lo hi (sides.filter (!·.hasSense true)) (left₁ ++ left₂ ++ left₃ ++ left₄)
      (dead₁ ++ dead₂ ++ dead₃ ++ dead₄))
    (h₁ : s.Around m₁ m₂ ends₁ left₁ dead₁ → Between s.graph.Parted m₁ m₂)
    (h₂ : s.Around m₃ m₄ ends₂ left₂ dead₂ → Between s.graph.Parted m₃ m₄)
    (h₃ : s.Around m₅ m₆ ends₃ left₃ dead₃ → Between s.graph.Parted m₅ m₆)
    (h₄ : s.Around m₆ hi ends₄ left₄ dead₄ → Between s.graph.Parted m₆ hi) :
    Between s.graph.Parted lo hi := by
  obtain ⟨hd, _⟩ := List.append_eq_nil_iff.mp (ha.dead_eq_nil hr)
  obtain ⟨_, hd⟩ := List.append_eq_nil_iff.mp hd
  obtain ⟨hlt, hy⟩ := hlb.enters hw (hw.isProper_part hf (by simp) (by simp [Form.parts])) hk hd
  have hv c (hm : c ∈ condition?.toList) : t.Valued false c := (hw.valued_of_tested hf hm).weaken
  have hc := hlc.confines_test ⟨rfl, hv⟩ (hlc.confines hw) hk
  have he := hc.entry_within hk hg.slot_next hn
  have hall := hg.confines.next hc
  have hlo := hp.confines.le
  have hlo' := Nat.le_trans hlo (Nat.le_trans (hli.le hw) hg.confines.le)
  have hhi := Nat.lt_of_lt_of_le hlt (hlu.le hw)
  have hinit := h₁ (ha.before (Nat.le_of_lt hhi) (by simp) (by simp) hy
    (fun hi => Nat.not_lt_of_le hall.le hi.2)
    (ha.elsewhere ⟨Nat.le_trans hlo' hc.le, hhi⟩ hlo (Nat.le_trans hall.le (Nat.le_of_lt hhi))
      fun _ => id) hall)
  have htest := ha.test_arm (by simp) (by simp) hlo' (hlc.le hw) hk ⟨hhi, hy⟩ (fun _ => id) h₂
  have hbody := h₃ (.forBody hw hf hp hli hg hlc hk hlu hn hb ha)
  have hupdate := h₄ (ha.back (Nat.le_refl _) (List.subset_append_right ..)
    (List.subset_append_right ..) hb
    fun hi => Nat.not_lt_of_le hi.1 (Nat.lt_of_lt_of_le he.2 (hlb.le hw)))
  exact (((hp.parted.append hinit).append (hg.parted.append htest)).append hbody).append hupdate

end

-- Of a test one side goes on with the next part, which has a first position, so it leads into that
-- part. The other side leads out of the construct, or into another part of it.
theorem Laid.parted (hw : t.WellShaped) (hr : s.unreachable = [])
    (h : Laid s.graph t task lo ends hi ends' left dead) (ha : s.Around lo hi ends' left dead) :
    Between s.graph.Parted lo hi := by
  induction h
  case skipped => exact .nil
  case nil     => exact .nil
  case cons h₁ h₂ ih₁ ih₂ =>
    refine (ih₁ (ha.first (h₂.confines hw) (by grind) ?_ ?_)).append
      (ih₂ (ha.inner (h₁.le hw) (Nat.le_refl _) (fun _ => id) ?_ ?_))
    all_goals simp
  case strict hp ih  =>
    exact (ih (ha.first hp.confines (fun _ => .inl) (by simp) (by simp))).append hp.parted
  case jump hp ih    =>
    exact (ih (ha.first hp.confines (by grind) (by simp) (by simp))).append hp.parted
  case passing ih    => exact ih ha
  case block hp _ ih =>
    exact hp.parted.append
      (ih (ha.inner hp.confines.le (Nat.le_refl _) (fun _ => id) (fun _ => id) fun _ => id))
  case parens hp _ ih =>
    exact hp.parted.append
      (ih (ha.inner hp.confines.le (Nat.le_refl _) (fun _ => id) (fun _ => id) fun _ => id))
  case negation hp _ ih =>
    exact hp.parted.append
      (ih (ha.inner hp.confines.le (Nat.le_refl _) (by simp) (fun _ => id) fun _ => id))
  case shortCircuit hf hl hk h₂ ih₁ ih₂ =>
    obtain ⟨_, hd⟩ := List.append_eq_nil_iff.mp (ha.dead_eq_nil hr)
    have hy := h₂.enters hw (hw.isProper_of_tested hf (by simp [Form.tested])) hk hd
    have hle := Nat.le_trans (hl.le hw) hk.confines.le
    refine (ha.test_arm (by simp) (by simp) (Nat.le_refl _) (hl.le hw) hk hy ?_ ih₁).append
      (ih₂ (ha.inner hle (Nat.le_refl _) ?_ (by simp) (by simp)))
    case refine_1 => exact fun _ hs => at_join.mpr (.inr hs)
    case refine_2 => exact fun _ hs => at_join.mpr (.inl hs)
  case branchingOne hf hp hl hk h₂ ih₁ ih₂ =>
    obtain ⟨_, hd⟩ := List.append_eq_nil_iff.mp (ha.dead_eq_nil hr)
    have hy := h₂.enters hw (hw.isProper_part hf (by simp) (.tail _ (.head _))) hk hd
    have hle := Nat.le_trans hp.confines.le (Nat.le_trans (hl.le hw) hk.confines.le)
    have ht := ha.test_arm (by simp) (by simp) hp.confines.le (hl.le hw) hk hy (by grind) ih₁
    exact (hp.parted.append ht).append
      (ih₂ (ha.inner hle (Nat.le_refl _) (by grind) (by simp) (by simp)))
  case branchingTwo hf hp hl hk h₂ h₃ ih₁ ih₂ ih₃ =>
    obtain ⟨hd, hd₃⟩ := List.append_eq_nil_iff.mp (ha.dead_eq_nil hr)
    obtain ⟨_, hd₂⟩ := List.append_eq_nil_iff.mp hd
    obtain ⟨hlt, hy⟩ := h₂.enters hw (hw.isProper_part hf (by simp) (.tail _ (.head _))) hk hd₂
    obtain ⟨_, hno⟩ :=
      h₃.enters hw (hw.isProper_part hf (by simp) (.tail _ (.tail _ (.head _)))) hk hd₃
    have hle := hk.confines.le
    have hle' := Nat.le_trans hp.confines.le (Nat.le_trans (hl.le hw) hle)
    have ht := ha.test (Nat.le_trans (h₂.le hw) (h₃.le hw)) (by simp) (by simp) hy
      (fun he => Nat.not_lt_of_le hle he.2) (fun hs ht => ?_) hk ih₁
    case refine_1 =>
      cases hs.eq_target hno ht
      exact ⟨fun he => by cases he; exact Nat.lt_irrefl _ hlt,
        fun he => Nat.not_lt_of_le (Nat.le_trans hle (Nat.le_of_lt hlt)) he.2⟩
    have hyes := ih₂ (ha.inner hle' (h₃.le hw) (by grind) (by simp) (by simp))
    have hle := Nat.le_trans hle' (h₂.le hw)
    have hno := ih₃ (ha.inner hle (Nat.le_refl _) (by grind) (by simp) (by simp))
    exact ((hp.parted.append ht).append hyes).append hno
  case whileLoop hf hp hl hk h₂ hn hb ih₁ ih₂ =>
    obtain ⟨_, hd⟩ := List.append_eq_nil_iff.mp (ha.dead_eq_nil hr)
    have hy := h₂.enters hw (hw.isProper_part hf (by simp) (.tail _ (.head _))) hk hd
    have hc := hl.confines_test (hw.valued_of_tested hf (.head _)) (hl.confines hw) hk
    have he := hc.entry_within hk hp.slot_next hn
    have ht := ha.test_arm (by simp) (by simp) hp.confines.le (hl.le hw) hk hy (fun _ => id) ih₁
    have hbody := ih₂ (ha.back (Nat.le_refl _) (by simp) (by simp) hb
      fun hi => Nat.not_lt_of_le hi.1 he.2)
    exact (hp.parted.append ht).append hbody
  case doWhileLoop hf hp _ hb h₁ hl hk hr' ih₁ ih₂ =>
    have hc := hl.confines_test (hw.valued_of_tested hf (.head _)) (hl.confines hw) hk
    have hlo := hp.confines.le
    have hm := h₁.le hw
    have he : NodeId.Within _ _ ⟨_⟩ := ⟨hlo, Nat.lt_of_lt_of_le hm hc.le⟩
    have hbody := ih₁ (ha.before (Nat.le_refl _) (by simp) (by simp) hr'
      (fun hi => Nat.not_succ_le_self _ hi.1)
      (ha.elsewhere he (Nat.le_succ_of_le hlo) hc.le fun _ => id) hc)
    have ht := ha.test (Nat.le_refl _) (by simp) (by simp) hr'
      (fun hi => Nat.not_lt_of_le hi.1 hm)
      (ha.elsewhere he (Nat.le_trans hlo (Nat.le_of_succ_le hm)) hk.confines.le fun _ => id) hk ih₂
    exact ((hp.parted.append (.one hb.parted)).append hbody).append ht
  case forLoop hf hp hli hg hl hk h₃ hu hn hb ih₁ ih₂ ih₃ ih₄ =>
    exact Laid.parted_forLoop hw hr hf hp hli hg hl hk h₃ hu hn hb ha ih₁ ih₂ ih₃ ih₄

namespace Summary

-- A block that follows a block has another predecessor, too (1), so the two could not be one block.
-- The branches of a condition never lead to the same node (2).
structure Maximal (s : Summary) : Prop where
  joins {u v : NodeId} {label : EdgeLabel} :                                      -- (1)
    ⟨u, label, v⟩ ∈ s.graph.edges → s.graph.HasBlock u → s.graph.HasBlock v →
      ∃ a ∈ s.graph.predecessors v, ∃ b ∈ s.graph.predecessors v, a ≠ b
  parts {c v : NodeId} :                                                          -- (2)
    ⟨c, .branch .truthy, v⟩ ∈ s.graph.edges → ⟨c, .branch .falsy, v⟩ ∉ s.graph.edges

end Summary

namespace Summary.Draws

theorem joined (hw : t.WellShaped) (h : s.Draws t scope) (hr : s.unreachable = [])
    (hi : id.index < s.nodeCount) : s.graph.Joined id := by
  obtain ⟨_, _, hl, _⟩ := h.laid
  have hs : Single 1 [.first] := fun ⟨⟨_⟩, _⟩ => by
    simp [LooseEnd.first, LooseEnd.slot, Slot.below]
    grind
  refine h.forall_node ?_ ((hl.merges hw hr).joins hs) ?_ hi
  case refine_1 =>
    rintro ⟨_, _, _, hn⟩
    rw [h.start, h.underway.start.mpr ⟨rfl, rfl⟩] at hn
    cases hn
  case refine_2 =>
    rintro ⟨_, _, _, hn⟩
    rw [h.finish] at hn
    cases hn

theorem parted (hw : t.WellShaped) (h : s.Draws t scope) (hr : s.unreachable = [])
    (hi : id.index < s.nodeCount) : s.graph.Parted id := by
  obtain ⟨_, _, hl, ha⟩ := h.laid
  have h₀ : s.graph.Parted s.start := fun _ hl => by
    rw [Graph.Leads, Graph.slot?, h.start, h.underway.start.mpr ⟨rfl, rfl⟩] at hl
    cases hl
  have hf : s.graph.Parted s.finish := fun _ hl => by
    rw [Graph.Leads, Graph.slot?, h.finish] at hl
    cases hl
  exact h.forall_node h₀ (hl.parted hw hr (around ha)) hf hi

end Summary.Draws

theorem analyze_maximal (hw : t.WellShaped)
    (h : analyze t { unreachable := .reject, maxDepth } scope = .ok s) : s.Maximal := by
  have hd := draws_of_analyze h
  have hr := ((analyze_reject_iff hw maxDepth scope).mp h).2
  constructor
  case joins =>
    intro u v label he hu hv
    have hl := mem_edges_iff.mp he
    cases hu.eq_next hl rfl
    obtain ⟨a, b, hne, ha, hb⟩ := hd.joined hw hr (hd.underway.targets hl).2 hv hu hl
    exact ⟨a, mem_predecessors_iff.mpr ha, b, mem_predecessors_iff.mpr hb, hne⟩
  case parts =>
    intro c v ht hf
    have ht := mem_edges_iff.mp ht
    obtain ⟨_, hn, _⟩ := Option.bind_eq_some_iff.mp ht
    exact hd.parted hw hr (lt_size_of_node? hn) v ht (mem_edges_iff.mp hf)

open Syntax Build in
-- { do { if (a) { b(); } } while (c); }
def polling : Syntax.Id × Tree :=
  poll.run .empty
where
  poll : Syntax.Build Syntax.Id := do
    let yes  ← block [← call none "b" []]
    let body ← block [← ifStmt (← identifier "a") yes none]
    block [← doWhileStmt body (← identifier "c")]

-- The loop begins with a block behind a block, and so does what follows `b()`.
theorem analyze_maximal_polling :
    polling.2.WellShaped ∧
    ∃ s, analyze polling.2 {} polling.1 = .ok s ∧
      ⟨⟨1⟩, .next, ⟨2⟩⟩ ∈ s.graph.edges ∧ ⟨⟨4⟩, .next, ⟨5⟩⟩ ∈ s.graph.edges ∧ s.Maximal := by
  have hw : polling.2.WellShaped := by decide +kernel
  have ⟨s, h⟩ : ∃ s, analyze polling.2 {} polling.1 = .ok s := exists_of_isSome (by decide +kernel)
  have he : (analyze polling.2 {} polling.1).toOption.any fun s =>
      ⟨⟨1⟩, .next, ⟨2⟩⟩ ∈ s.graph.edges ∧ ⟨⟨4⟩, .next, ⟨5⟩⟩ ∈ s.graph.edges := by decide +kernel
  rw [h] at he
  obtain ⟨h₁, h₂⟩ := of_decide_eq_true he
  exact ⟨hw, s, h, h₁, h₂, analyze_maximal hw h⟩

end RoutineFlow.Flow
