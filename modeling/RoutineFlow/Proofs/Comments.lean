import RoutineFlow.Proofs.Rows

-- Comments, and concrete syntax trees without them. What is asked for below a row is the same
-- without its comments, unless a comment plays a part there.

namespace RoutineFlow.Concrete

namespace Node

-- No grammar has anything below a comment.
def isBareComment (n : Node) : Bool :=
  n.rule = .comment && n.children.isEmpty

mutual

-- The tree without its comments.
def uncommented : Node → Node
  | mk row children => mk row (uncommentedAmong children)

def uncommentedAmong : List Node → List Node
  | []      => []
  | n :: ns =>
    if n.isBareComment then uncommentedAmong ns else n.uncommented :: uncommentedAmong ns

end

theorem uncommentedAmong_eq (ns : List Node) :
    uncommentedAmong ns = (ns.filter (!·.isBareComment)).map uncommented := by
  induction ns
  case nil          => rfl
  case cons n ns ih =>
    rw [uncommentedAmong, ih, List.filter_cons]
    cases n.isBareComment <;> rfl

@[simp] theorem row_uncommented (n : Node) : n.uncommented.row = n.row := by
  cases n
  rfl

@[simp] theorem rule_uncommented (n : Node) : n.uncommented.rule = n.rule := by
  rw [rule, kind, row_uncommented]
  rfl

theorem children_uncommented (n : Node) :
    n.uncommented.children = (n.children.filter (!·.isBareComment)).map uncommented := by
  cases n
  exact uncommentedAmong_eq _

theorem rule_of_isBareComment {n : Node} (h : n.isBareComment) : n.rule = .comment := by
  simp only [isBareComment, Bool.and_eq_true, decide_eq_true_eq] at h
  exact h.1

-- No comment right below plays the part.
def Free (n : Node) (part : String) : Prop :=
  ∀ m ∈ n.children, m.isBareComment → m.row.field? ≠ some part

end Node

namespace Source

variable (s : Source) (n : Node)

@[simp] theorem text_uncommented : s.text n.uncommented = s.text n := by
  rw [text, Node.row_uncommented]
  rfl

@[simp] theorem startOf_uncommented : s.startOf n.uncommented = s.startOf n := by
  rw [startOf, Node.row_uncommented]
  rfl

@[simp] theorem span_uncommented : s.span n.uncommented = s.span n := by
  rw [span, Node.row_uncommented]
  rfl

end Source

namespace Cursor

variable {c d : Cursor} {part : String}

def uncommented (c : Cursor) : Cursor where
  node    := c.node.uncommented
  parent? := c.parent?.map Node.uncommented

@[simp] theorem rule_uncommented (c : Cursor) : c.uncommented.rule = c.rule :=
  c.node.rule_uncommented

@[simp] theorem row_uncommented (c : Cursor) : c.uncommented.node.row = c.node.row :=
  c.node.row_uncommented

theorem children_uncommented (c : Cursor) :
    c.uncommented.children = (c.children.filter (!·.node.isBareComment)).map uncommented := by
  rw [children, uncommented, Node.children_uncommented, children, List.filter_map]
  simp [Function.comp_def, uncommented]

-- What is asked for among the children, if it is read off their rows alone.
theorem filter_children_uncommented (c : Cursor) {p : Cursor → Bool}
    (hp : ∀ d : Cursor, p d.uncommented = p d) :
    c.uncommented.children.filter p =
      ((c.children.filter p).filter (!·.node.isBareComment)).map uncommented := by
  have he : p ∘ uncommented = p := funext hp
  rw [children_uncommented, List.filter_map, he, List.filter_filter, List.filter_filter]
  simp only [Bool.and_comm]

theorem isBareComment_of_mem_namedChildren (h : d ∈ c.namedChildren) :
    d.node.isBareComment = false := by
  have ⟨_, hn⟩ := List.mem_filter.mp h
  by_contra hb
  have hr : d.rule = .comment := Node.rule_of_isBareComment (by simpa using hb)
  simp [hr] at hn

theorem namedChildren_uncommented (c : Cursor) :
    c.uncommented.namedChildren = c.namedChildren.map uncommented := by
  rw [namedChildren, filter_children_uncommented c fun d => by simp]
  refine congrArg _ (List.filter_eq_self.mpr fun d hd => ?_)
  rw [isBareComment_of_mem_namedChildren hd]
  rfl

theorem firstNamed?_uncommented (c : Cursor) :
    c.uncommented.firstNamed? = c.firstNamed?.map uncommented := by
  rw [firstNamed?, namedChildren_uncommented, List.head?_map]
  rfl

theorem fieldAll_uncommented (c : Cursor) (part : String) : c.uncommented.fieldAll part =
    ((c.fieldAll part).filter (!·.node.isBareComment)).map uncommented :=
  filter_children_uncommented c fun d => by simp

theorem isBareComment_of_mem_fieldAll (h : c.node.Free part) (hd : d ∈ c.fieldAll part) :
    d.node.isBareComment = false := by
  have ⟨hm, hf⟩ := mem_fieldAll.mp hd
  by_contra hb
  exact h d.node (node_mem_of_mem_children hm) (by simpa using hb) hf

theorem field?_uncommented (h : c.node.Free part) :
    c.uncommented.field? part = (c.field? part).map uncommented := by
  have hs : (c.fieldAll part).filter (!·.node.isBareComment) = c.fieldAll part :=
    List.filter_eq_self.mpr fun d hd => by rw [isBareComment_of_mem_fieldAll h hd]; rfl
  rw [field?, fieldAll_uncommented, hs, List.head?_map]
  rfl

end Cursor

-- A case of a `switch`. No grammar has one right below a `try`. What is there would be taken for a
-- clause, whatever it is called, and of its body only the first row counts, even if that is a
-- comment. So these trees are left out.
def Standing.IsCase (s : Standing) : Prop :=
  s.node.kind ∈ ["switch_case", "switch_default"] ∧
    ∀ n ∈ s.above.head?, n.rule ≠ .tryStatement

-- Comments right below play no part, if it is not in the header of a `for` or among the statements
-- of a case.
def Standing.Annotated (s : Standing) : Prop :=
  ∀ m ∈ s.node.children, m.isBareComment → ∀ part ∈ m.row.field?,
    s.node.rule = .forStatement ∧ part ∈ ["initializer", "condition", "increment"] ∨
    s.IsCase ∧ part = "body"

def Node.Annotated (root : Node) : Prop :=
  ∀ s ∈ root.standings, s.Annotated

instance (s : Standing) : Decidable s.IsCase :=
  inferInstanceAs (Decidable (_ ∧ ∀ n ∈ s.above.head?, _))

instance (s : Standing) : Decidable s.Annotated :=
  inferInstanceAs (Decidable (∀ m ∈ s.node.children, m.isBareComment → ∀ part ∈ m.row.field?, _))

instance (root : Node) : Decidable root.Annotated :=
  inferInstanceAs (Decidable (∀ s ∈ root.standings, s.Annotated))

-- A `try` whose handler is the case of a `switch`.
def caseAsHandler : Node :=
  .spanning "program" 0 40 none [
    .spanning "try_statement" 0 40 none [
      .spanning "statement_block" 4 6 (some "body") [],
      .spanning "switch_default" 7 40 (some "handler") [
        .spanning "comment" 16 27 (some "body") [],
        .spanning "statement_block" 28 40 (some "body") []]]]

example : ¬caseAsHandler.Annotated := by decide +kernel

namespace Cursor

-- At the root, or below.
inductive In (root : Node) : Cursor → Prop
  | root                   : In root { node := root }
  | child {c d : Cursor}   : In root c → d ∈ c.children → In root d

variable {root : Node} {c d : Cursor} {part : String}

theorem parent?_of_mem_children (h : d ∈ c.children) : d.parent? = some c.node := by
  have ⟨_, _, he⟩ := List.mem_map.mp h
  exact he ▸ rfl

theorem In.exists_above (h : c.In root) :
    ∃ above, ⟨c.node, above⟩ ∈ root.standings ∧ above.head? = c.parent? := by
  induction h
  case root            => exact ⟨[], root.mem_standingsFrom_self [], rfl⟩
  case child hd ih =>
    have ⟨_, hs, _⟩ := ih
    refine ⟨_, Node.mem_standingsFrom_child hs (node_mem_of_mem_children hd), ?_⟩
    rw [parent?_of_mem_children hd]
    rfl

theorem In.free_or (h : c.In root) (hr : root.Annotated) : c.node.Free part ∨
    c.rule = .forStatement ∧ part ∈ ["initializer", "condition", "increment"] ∨
    c.rule = .other ∧ part = "body" ∧ ∀ n ∈ c.parent?, n.rule ≠ .tryStatement := by
  have ⟨_, hs, ha⟩ := h.exists_above
  by_cases hf : c.node.Free part
  case pos => exact .inl hf
  case neg =>
    simp only [Node.Free, not_forall, not_not] at hf
    have ⟨m, hm, hb, hp⟩ := hf
    refine .inr ((hr _ hs m hm hb part hp).imp id fun ⟨⟨hk, ht⟩, he⟩ => ⟨?_, he, ha ▸ ht⟩)
    simp only [List.mem_cons, List.not_mem_nil, or_false] at hk
    cases hk
    case inl hk => rw [rule, Node.rule, hk]; rfl
    case inr hk => rw [rule, Node.rule, hk]; rfl

-- Of what has a rule, only the header of a `for` holds comments that play a part.
theorem In.free (h : c.In root) (hr : root.Annotated) (hf : c.rule ≠ .forStatement)
    (ho : c.rule ≠ .other) (part : String) : c.node.Free part :=
  (h.free_or hr).elim id (·.elim (fun ⟨h, _⟩ => absurd h hf) fun ⟨h, _⟩ => absurd h ho)

theorem In.free_body (h : c.In root) (hr : root.Annotated) (ho : c.rule ≠ .other) :
    c.node.Free "body" :=
  (h.free_or hr).elim id (·.elim (fun ⟨_, h⟩ => absurd h (by decide)) fun ⟨h, _⟩ => absurd h ho)

theorem In.free_handler (h : c.In root) (hr : root.Annotated) (ht : c.rule = .tryStatement)
    (hd : d ∈ c.children) : d.node.Free "body" := by
  refine ((h.child hd).free_or hr).elim id (·.elim (fun ⟨_, h⟩ => absurd h (by decide)) ?_)
  intro ⟨_, _, hp⟩
  exact absurd ht (hp _ (parent?_of_mem_children hd))

end Cursor
end RoutineFlow.Concrete
