import RoutineFlow.Proofs.Arena
import RoutineFlow.Proofs.Places
import RoutineFlow.Proofs.Statements

-- The syntax error that is reported is the first one. Rows with an error below them are marked, so
-- it is enough to look into these, and the first faulty row is the one that starts first in the
-- text.

namespace RoutineFlow

namespace Concrete

namespace Point

-- The place after some bytes: the line feeds among them, and the bytes since the last of these.
theorem foldl_step (bytes : List UInt8) : bytes.foldl step {} =
    ⟨bytes.count 10, (bytes.reverse.takeWhile (· ≠ 10)).length⟩ := by
  induction bytes using List.reverseRecOn
  case nil => rfl
  case append_singleton bytes byte ih =>
    rw [List.foldl_append, ih, List.foldl_cons, List.foldl_nil, step, List.count_append,
      List.reverse_append]
    split
    case isTrue h  => simp [h]
    case isFalse h => simp [h]

end Point

namespace Source

-- The line of an offset, counted from one.
def lineAt (bytes : ByteArray) (offset : Nat) : Nat :=
  (bytes.data.toList.take offset).count 10 + 1

-- The byte of its line at which an offset stands, counted from one.
def columnAt (bytes : ByteArray) (offset : Nat) : Nat :=
  ((bytes.data.toList.take offset).reverse.takeWhile (· ≠ 10)).length + 1

theorem pointAt_eq {bytes : ByteArray} {offset : Nat} (h : offset ≤ bytes.size) :
    let point := (ofBytes bytes).pointAt offset
    point.row + 1 = lineAt bytes offset ∧ point.column + 1 = columnAt bytes offset := by
  rw [pointAt_ofBytes h, Point.foldl_step]
  exact ⟨rfl, rfl⟩

end Source

namespace Node

variable {root n m : Node}

theorem mem_rows_self (n : Node) : n ∈ n.rows := by
  rw [rows_eq]
  exact .head _

theorem rows_subset (h : n ∈ root.children) : n.rows ⊆ root.rows := by
  intro m hm
  rw [rows_eq]
  exact .tail _ (List.mem_flatMap.mpr ⟨n, h, hm⟩)

theorem holds_of_mem_rows {n m : Node} (h : m ∈ n.rows) : n.Holds m := by
  rw [rows_eq] at h
  cases h
  case head   => exact .self
  case tail h =>
    have ⟨c, hc, h⟩ := List.mem_flatMap.mp h
    have := height_lt_of_mem hc
    exact .trans (.child .self hc) (holds_of_mem_rows h)
termination_by n.height

-- What starts first in the text comes first.
theorem Nested.rows_sorted {n : Node} (hr : root.Nested) (ho : root.Ordered) (hn : root.Holds n) :
    n.rows.Pairwise fun a b => a.row.startByte ≤ b.row.startByte := by
  rw [rows_eq, List.pairwise_cons, List.pairwise_flatMap]
  refine ⟨fun m hm => ?_, fun c hc => ?_, ?_⟩
  · have ⟨c, hc, hm⟩ := List.mem_flatMap.mp hm
    exact (hr.holds hn (.trans (.child .self hc) (holds_of_mem_rows hm))).1
  · have := height_lt_of_mem hc
    exact Nested.rows_sorted hr ho (hn.child hc)
  · refine List.pairwise_iff_forall_sublist.mpr fun {c d} hs a ha b hb => ?_
    have hc : root.Holds c := hn.child (hs.subset (.head _))
    have hd : root.Holds d := hn.child (hs.subset (.tail _ (.head _)))
    have ha := holds_of_mem_rows ha
    calc
      a.row.startByte ≤ a.row.endByte   := hr.start_le (hc.trans ha)
      _               ≤ c.row.endByte   := (hr.holds hc ha).2
      _               ≤ d.row.startByte := ho.le hn hs
      _               ≤ b.row.startByte := (hr.holds hd (holds_of_mem_rows hb)).1
termination_by n.height

-- No row with a property starts before the first of them in preorder.
theorem Nested.find?_starts_first {e : Node} {p : Node → Bool} (hr : root.Nested)
    (ho : root.Ordered) (he : root.rows.find? p = some e) (hm : m ∈ root.rows) (hp : p m) :
    e.row.startByte ≤ m.row.startByte := by
  obtain ⟨_, before, after, hrows, hnone⟩ := List.find?_eq_some_iff_append.mp he
  have hsorted := hr.rows_sorted ho .self
  rw [hrows] at hm hsorted
  have hsorted := (List.pairwise_append.mp hsorted).2.1
  cases List.mem_append.mp hm
  case inl hm =>
    have := hnone m hm
    simp [hp] at this
  case inr hm =>
    cases hm
    case head    => exact Nat.le_refl _
    case tail hm => exact List.rel_of_pairwise_cons hsorted hm

-- An error, or what the text does not have.
def isFaulty (n : Node) : Bool :=
  n.row.isError || n.row.isMissing

-- All rows with a faulty one at or below them are marked.
def Flagged (root : Node) : Prop :=
  ∀ n ∈ root.rows, ∀ m ∈ n.rows, m.isFaulty → n.row.hasError

instance : Decidable root.Flagged :=
  inferInstanceAs (Decidable (∀ n ∈ root.rows, ∀ m ∈ n.rows, _ → _))

theorem Flagged.child (h : root.Flagged) (hn : n ∈ root.children) : n.Flagged :=
  fun m hm => h m (rows_subset hn hm)

-- There is nothing to find below rows that are not looked into.
theorem Flagged.find?_eq_none (h : n.Flagged) (hs : n.suspect = false) :
    n.rows.find? isFaulty = none := by
  refine List.find?_eq_none.mpr fun m hm hf => ?_
  rw [suspect, h n n.mem_rows_self m hm hf] at hs
  cases hs

theorem firstErrorAmong?_eq (ns : List Node) :
    firstErrorAmong? ns = (ns.filter suspect).findSome? firstError? := by
  induction ns
  case nil          => rfl
  case cons n ns ih =>
    rw [firstErrorAmong?, List.filter_cons]
    split
    case isTrue  =>
      rw [List.findSome?_cons, ih]
      cases n.firstError? <;> rfl
    case isFalse => exact ih

theorem firstError?_eq (n : Node) : n.firstError? =
    if n.isFaulty then some n else (n.children.filter suspect).findSome? firstError? := by
  cases n
  rw [firstError?, firstErrorAmong?_eq]
  rfl

theorem Flagged.firstError?_eq_find? {n : Node} (h : n.Flagged) :
    n.firstError? = n.rows.find? isFaulty := by
  rw [firstError?_eq, rows_eq, List.find?_cons]
  cases n.isFaulty
  case true  => rfl
  case false =>
    have hc : ∀ c ∈ n.children, c.firstError? = c.rows.find? isFaulty := fun c hc =>
      have := height_lt_of_mem hc
      (h.child hc).firstError?_eq_find?
    have hs : ∀ c ∈ n.children, c.suspect = false → c.rows.find? isFaulty = none := fun c hc =>
      (h.child hc).find?_eq_none
    rw [if_neg Bool.false_ne_true, List.find?_flatMap]
    generalize n.children = cs at hc hs
    induction cs
    case nil          => rfl
    case cons c cs ih =>
      rw [List.forall_mem_cons] at hc hs
      have ih := ih hc.2 hs.2
      rw [List.filter_cons, List.findSome?_cons]
      split
      case isTrue            => rw [List.findSome?_cons, hc.1, ih]
      case isFalse hsuspect  => rw [hs.1 (Bool.not_eq_true _ ▸ hsuspect), ih]
termination_by n.height

-- The rows still to be looked at, the next one on top, and what was found.
structure Hunt where
  stack  : List Node
  found? : Option Node

-- Takes the row on top. If it is not faulty, the children to look into take its place.
def Hunt.next? (h : Hunt) : Option Hunt :=
  match h.found?, h.stack with
  | none, n :: stack =>
    some (if n.isFaulty then ⟨stack, some n⟩ else ⟨n.children.filter suspect ++ stack, none⟩)
  | _,    _          => none

-- The search of the rows on a stack comes to an end with an answer.
def Hunts (stack : List Node) (found? : Option Node) : Prop :=
  ∃ rounds rest, Trail Hunt.next? ⟨stack, none⟩ rounds ⟨rest, found?⟩

namespace Hunts

variable {stack ns : List Node} {found? : Option Node}

theorem nil : Hunts [] none :=
  ⟨_, _, .last rfl⟩

theorem append (hn : ∀ n ∈ ns, ∀ {stack found?}, Hunts stack found? →
    Hunts (n :: stack) (n.firstError?.or found?)) (h : Hunts stack found?) :
    Hunts (ns ++ stack) ((ns.findSome? firstError?).or found?) := by
  induction ns
  case nil          => exact h
  case cons n ns ih =>
    have ⟨hn, hns⟩ := List.forall_mem_cons.mp hn
    have h := hn (ih hns)
    rw [← Option.or_assoc] at h
    rw [List.findSome?_cons]
    cases hf : n.firstError?
    all_goals rwa [hf] at h

theorem cons (n : Node) {stack : List Node} {found? : Option Node} (h : Hunts stack found?) :
    Hunts (n :: stack) (n.firstError?.or found?) := by
  rw [firstError?_eq]
  cases hf : n.isFaulty
  case true  =>
    rw [if_pos rfl, Option.some_or]
    exact ⟨_, stack, .next (congrArg some (if_pos hf)) (.last rfl)⟩
  case false =>
    have hc : ∀ c ∈ n.children.filter suspect, ∀ {stack found?}, Hunts stack found? →
        Hunts (c :: stack) (c.firstError?.or found?) := fun c hc _ _ h =>
      have := height_lt_of_mem (List.mem_filter.mp hc).1
      cons c h
    have ⟨_, _, ht⟩ := append hc h
    rw [if_neg Bool.false_ne_true]
    exact ⟨_, _, .next (congrArg some (if_neg (Bool.eq_false_iff.mp hf))) ht⟩
termination_by n.height

end Hunts

theorem hunts_firstError? (root : Node) : Hunts [root] root.firstError? := by
  have h := Hunts.nil.cons root
  rwa [Option.or_none] at h

end Node

-- a;
-- b(;
-- (
def twoErrors : Node :=
  marked "program" 0 8 [
    .spanning "expression_statement" 0 2 none [
      .spanning "identifier" 0 1 none []],
    marked "expression_statement" 3 6 [
      marked "call_expression" 3 5 [
        .spanning "identifier" 3 4 (some "function") [],
        marked "arguments" 4 5 [
          .mk { kind := ")", isMissing := true, hasError := true, startByte := 5, endByte := 5 }
            []]]],
    .mk { kind := "ERROR", isError := true, hasError := true, startByte := 7, endByte := 8 } []]
where
  marked (kind : String) (startByte endByte : Nat) (children : List Node) : Node :=
    .mk { kind, hasError := true, startByte, endByte } children

end Concrete

namespace Lowering

open Concrete (Node Source)

theorem lower_of_hasError {source : Source} {root : Node} (h : root.row.hasError) :
    lower source root =
      let place := source.startOf (root.firstError?.getD root)
      .error ⟨place.row + 1, place.column + 1⟩ :=
  if_pos h

-- The search for an error comes to an end with the first faulty row in preorder, if there is one.
-- Then its place is reported, and no faulty row starts before it. If there is no mark at the root,
-- nothing is reported.
theorem lower_firstError (bytes : ByteArray) (root : Node) (hf : root.Flagged) (hn : root.Nested)
    (ho : root.Ordered) (hb : root.row.endByte ≤ bytes.size) :
    Node.Hunts [root] (root.rows.find? Node.isFaulty) ∧
    (∀ m ∈ root.rows, m.isFaulty → ∃ e, root.rows.find? Node.isFaulty = some e ∧
      e.row.startByte ≤ m.row.startByte ∧ lower (.ofBytes bytes) root = .error
        ⟨Source.lineAt bytes e.row.startByte, Source.columnAt bytes e.row.startByte⟩) ∧
    (root.row.hasError = false → ∃ t, lower (.ofBytes bytes) root = .ok t) := by
  have he := hf.firstError?_eq_find?
  have hok (hr : root.row.hasError = false) := lower_eq_ok (o := ⟨root, .ofBytes bytes⟩) hr
  refine ⟨he ▸ root.hunts_firstError?, fun m hm hfm => ?_, fun hr => ⟨_, hok hr⟩⟩
  cases hs : root.rows.find? Node.isFaulty
  case none   => exact absurd hfm (List.find?_eq_none.mp hs m hm)
  case some e =>
    have hroot := hf root root.mem_rows_self m hm hfm
    have hmem := Node.holds_of_mem_rows (List.mem_of_find?_eq_some hs)
    have hle : e.row.startByte ≤ bytes.size :=
      Nat.le_trans (hn.start_le hmem) (Nat.le_trans (hn.holds .self hmem).2 hb)
    have ⟨hline, hcolumn⟩ := Source.pointAt_eq hle
    refine ⟨e, rfl, hn.find?_starts_first ho hs hm hfm, ?_⟩
    rw [lower_of_hasError hroot, he, hs, ← hline, ← hcolumn]
    rfl

theorem lower_firstError_twoErrors :
    Concrete.twoErrors.Flagged ∧ Concrete.twoErrors.Nested ∧ Concrete.twoErrors.Ordered ∧
    lower (.ofString "a;\nb(;\n(") Concrete.twoErrors = .error ⟨2, 3⟩ := by
  let bytes := "a;\nb(;\n(".toUTF8
  have hf : Concrete.twoErrors.Flagged := by decide +kernel
  have hn : Concrete.twoErrors.Nested := by decide +kernel
  have ho : Concrete.twoErrors.Ordered := by decide +kernel
  have ⟨m, hm, hfm⟩ : ∃ m ∈ Concrete.twoErrors.rows, m.isFaulty := by decide +kernel
  have ⟨_, h, _⟩ := lower_firstError bytes _ hf hn ho (by decide +kernel)
  have ⟨e, he, _, hl⟩ := h m hm hfm
  -- The missing parenthesis comes before the error on the last line.
  have hs : (Concrete.twoErrors.rows.find? Node.isFaulty).map (·.row.startByte) = some 5 := by
    decide +kernel
  rw [he, Option.map_some, Option.some.injEq] at hs
  have hline : Source.lineAt bytes 5 = 2 := by decide +kernel
  have hcolumn : Source.columnAt bytes 5 = 3 := by decide +kernel
  rw [hs, hline, hcolumn] at hl
  exact ⟨hf, hn, ho, hl⟩

end Lowering
end RoutineFlow
