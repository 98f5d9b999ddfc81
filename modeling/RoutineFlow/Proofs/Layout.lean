import RoutineFlow.Proofs.Form
import RoutineFlow.Proofs.Slot

-- How a construct lies in a finished flow graph: between which nodes its parts stand, which edges
-- connect them, and where it leaves off. The nodes of a construct are numbered without a gap, so a
-- layout names the numbers at which they begin and end.

namespace RoutineFlow.Flow

open Syntax (Tree Form)

-- An exit, as it stands at the time when it is open.
inductive LooseEnd
  -- The end of a block that holds so many positions, with the last of them and the flag.
  | block (node : NodeId) (passed : Nat) (last? : Option Syntax.Id) (inverted : Bool)
  | side  (node : NodeId) (branch : Branch) (sense : Bool)
deriving DecidableEq

namespace LooseEnd

def node : LooseEnd → NodeId
  | block node .. => node
  | side node ..  => node

def slot : LooseEnd → Slot
  | block node ..      => (node, .next)
  | side node branch _ => (node, .branch branch)

def hasSense (value : Bool) : LooseEnd → Bool
  | block ..       => false
  | side _ _ sense => sense = value

def negate : LooseEnd → LooseEnd
  | block node passed last? inverted => block node passed last? !inverted
  | side node branch sense           => side node branch !sense

-- Whether the expression at hand may have the value where this end is left.
def May (value : Bool) : LooseEnd → Prop
  | block ..       => True
  | side _ _ sense => sense = value

theorem may_of_hasSense {e : LooseEnd} (h : e.hasSense value) : e.May value := by
  cases e
  case block => trivial
  case side  => simpa [hasSense, May] using h

theorem may_negate {e : LooseEnd} (h : e.May !value) : e.negate.May value := by
  cases e
  case block => trivial
  case side  => simp_all [May, negate]

@[simp]
theorem slot_negate (e : LooseEnd) : e.negate.slot = e.slot := by
  cases e <;> rfl

@[simp]
theorem node_negate (e : LooseEnd) : e.negate.node = e.node := by
  cases e <;> rfl

theorem forall_told {sides : List LooseEnd} {P : LooseEnd → Prop}
    (hy : ∀ e ∈ sides.filter (·.hasSense value), P e)
    (hn : ∀ e ∈ sides.filter (!·.hasSense value), P e) : ∀ e ∈ sides, P e := by
  intro e hm
  cases hs : e.hasSense value
  case true  => exact hy e (List.mem_filter.mpr ⟨hm, hs⟩)
  case false => exact hn e (List.mem_filter.mpr ⟨hm, by rw [hs]; rfl⟩)

theorem mem_join {e : LooseEnd} {ends ends' : List LooseEnd} {on : Bool} :
    e ∈ (if on then ends ++ ends' else ends' ++ ends) ↔ e ∈ ends ∨ e ∈ ends' := by
  cases on
  case true  => exact List.mem_append
  case false => exact List.mem_append.trans or_comm

end LooseEnd

def Exit.looseEnd (g : Graph) : Exit → LooseEnd
  | .next node              =>
    match g.node? node with
    | some (.block positions _ inverted) =>
      .block node positions.length positions.getLast? inverted
    | _                                  => .block node 0 none false
  | .branch node side sense => .side node side sense

namespace Graph

def looseEnds (g : Graph) (exits : List Exit) : List LooseEnd :=
  exits.map (·.looseEnd g)

def positions (g : Graph) (id : NodeId) : List Syntax.Id :=
  (g.node? id).elim [] Node.positions

def HasBlock (g : Graph) (id : NodeId) : Prop :=
  ∃ ps follower? inverted, g.node? id = some (.block ps follower? inverted)

-- What follows an end: nothing is placed behind it before the edge.
def Arrives (g : Graph) (target : NodeId) : LooseEnd → Prop
  | .block node passed _ _ => g.Leads (node, .next) target ∧ (g.positions node).length = passed
  | .side node branch _    => g.Leads (node, .branch branch) target

-- A block ends that are to come together is the only one of them, or else new.
inductive Gathers (g : Graph) : Nat → List LooseEnd → Nat → LooseEnd → Prop
  | sole : g.HasBlock node →
    Gathers g lo [.block node passed last? inverted] lo (.block node passed last? inverted)
  | join : ends ≠ [] →
    (∀ {node passed last? inverted},
      ends = [.block node passed last? inverted] → ¬g.HasBlock node) →
    (∀ e ∈ ends, g.Arrives ⟨lo⟩ e) → g.HasBlock ⟨lo⟩ →
    Gathers g lo ends (lo + 1) (.block ⟨lo⟩ 0 none false)

inductive Places (g : Graph) (id : Syntax.Id) : Nat → List LooseEnd → Nat → LooseEnd → Prop
  | intro : g.Gathers lo ends hi (.block node passed last? inverted) →
    (g.positions node)[passed]? = some id →
    Places g id lo ends hi (.block node (passed + 1) (some id) false)

-- Each block among the ends becomes a condition on its last position, unless that is forgotten.
inductive Forks (g : Graph) (labelled : Bool) : Nat → List LooseEnd → Nat → List LooseEnd → Prop
  | nil   : Forks g labelled lo [] lo []
  | side  : Forks g labelled lo ends hi sides →
    Forks g labelled lo (.side node branch sense :: ends) hi (.side node branch sense :: sides)
  | block : g.Arrives ⟨lo⟩ (.block node passed last? inverted) →
    g.node? ⟨lo⟩ = some (.condition (if labelled then last? else none) truthy? falsy? first) →
    Forks g labelled (lo + 1) ends hi sides →
    Forks g labelled lo (.block node passed last? inverted :: ends) hi
      (.side ⟨lo⟩ .truthy (!inverted) :: .side ⟨lo⟩ .falsy inverted :: sides)

end Graph

inductive Task
  | node  (id : Syntax.Id)
  | parts (ids : List Syntax.Id)

@[simp]
def Task.ids : Task → List Syntax.Id
  | node i   => [i]
  | parts is => is

-- `Laid g t task lo ends hi ends' left dead` says that in the graph `g` the task goes on from the
-- ends `ends` and leaves off at `ends'`, that its nodes are those from `lo` to below `hi`, that its
-- jumps leave off at `left` and that `dead` was left out. It does not say what follows it.
inductive Laid (g : Graph) (t : Tree) :
    Task → Nat → List LooseEnd → Nat → List LooseEnd → List LooseEnd → List Syntax.Id → Prop
  | skipped : Laid g t (.node i) lo [] lo [] [] [i]
  | nil : Laid g t (.parts []) lo ends lo ends [] []
  | cons : Laid g t (.node i) lo ends mid ends₁ left dead →
    Laid g t (.parts is) mid ends₁ hi ends₂ left' dead' →
    Laid g t (.parts (i :: is)) lo ends hi ends₂ (left ++ left') (dead ++ dead')
  | strict : t.form? i = some (.strict operands) →
    Laid g t (.parts operands) lo ends mid ends₁ left dead →
    g.Places i mid ends₁ hi e →
    Laid g t (.node i) lo ends hi [e] left dead
  | block : t.form? i = some (.block statements) →
    g.Places i lo ends mid e →
    Laid g t (.parts statements) mid [e] hi ends' left dead →
    Laid g t (.node i) lo ends hi ends' left dead
  | parens {inner : Syntax.Id} : t.form? i = some (.parens inner) →
    g.Places i lo ends mid e →
    Laid g t (.node inner) mid [e] hi ends' left dead →
    Laid g t (.node i) lo ends hi ends' left dead
  | negation : t.form? i = some (.negation operand) →
    g.Places i lo ends mid e →
    Laid g t (.node operand) mid [e] hi ends' left dead →
    Laid g t (.node i) lo ends hi (ends'.map .negate) left dead
  | shortCircuit : t.form? i = some (.shortCircuit on l r) →
    Laid g t (.node l) lo ends mid ends₁ left dead →
    g.Forks true mid ends₁ mid' sides →
    Laid g t (.node r) mid' (sides.filter (·.hasSense on)) hi ends₂ left' dead' →
    Laid g t (.node i) lo ends hi
      (if on then ends₂ ++ sides.filter (!·.hasSense on) else sides.filter (!·.hasSense on) ++ ends₂)
      (left ++ left') (dead ++ dead')
  | branchingOne : t.form? i = some (.branching condition yes none) →
    g.Places i lo ends m₁ e →
    Laid g t (.node condition) m₁ [e] m₂ ends₁ left₁ dead₁ →
    g.Forks true m₂ ends₁ m₃ sides →
    Laid g t (.node yes) m₃ (sides.filter (·.hasSense true)) hi ends₂ left₂ dead₂ →
    Laid g t (.node i) lo ends hi (ends₂ ++ sides.filter (!·.hasSense true))
      (left₁ ++ left₂) (dead₁ ++ dead₂)
  | branchingTwo : t.form? i = some (.branching condition yes (some no)) →
    g.Places i lo ends m₁ e →
    Laid g t (.node condition) m₁ [e] m₂ ends₁ left₁ dead₁ →
    g.Forks true m₂ ends₁ m₃ sides →
    Laid g t (.node yes) m₃ (sides.filter (·.hasSense true)) m₄ ends₂ left₂ dead₂ →
    Laid g t (.node no) m₄ (sides.filter (!·.hasSense true)) hi ends₃ left₃ dead₃ →
    Laid g t (.node i) lo ends hi (ends₂ ++ ends₃)
      (left₁ ++ left₂ ++ left₃) (dead₁ ++ dead₂ ++ dead₃)
  | whileLoop : t.form? i = some (.whileLoop condition body) →
    g.Places i lo ends m₁ e →
    Laid g t (.node condition) m₁ [e] m₂ ends₁ left₁ dead₁ →
    g.Forks true m₂ ends₁ m₃ sides →
    Laid g t (.node body) m₃ (sides.filter (·.hasSense true)) hi ends₂ left₂ dead₂ →
    g.Leads e.slot entry →
    (∀ e ∈ ends₂, g.Arrives entry e) →
    Laid g t (.node i) lo ends hi (sides.filter (!·.hasSense true))
      (left₁ ++ left₂) (dead₁ ++ dead₂)
  | doWhileLoop : t.form? i = some (.doWhileLoop body condition) →
    g.Places i lo ends m₁ e →
    g.Arrives ⟨m₁⟩ e → g.HasBlock ⟨m₁⟩ →
    Laid g t (.node body) (m₁ + 1) [.block ⟨m₁⟩ 0 none false] m₂ ends₁ left₁ dead₁ →
    Laid g t (.node condition) m₂ ends₁ m₃ ends₂ left₂ dead₂ →
    g.Forks true m₃ ends₂ hi sides →
    (∀ e ∈ sides.filter (·.hasSense true), g.Arrives ⟨m₁⟩ e) →
    Laid g t (.node i) lo ends hi (sides.filter (!·.hasSense true))
      (left₁ ++ left₂) (dead₁ ++ dead₂)
  | forLoop : t.form? i = some (.forLoop init condition? update body) →
    g.Places i lo ends m₁ e →
    Laid g t (.parts init) m₁ [e] m₂ ends₁ left₁ dead₁ →
    g.Gathers m₂ ends₁ m₃ header →
    Laid g t (.parts condition?.toList) m₃ [header] m₄ ends₂ left₂ dead₂ →
    g.Forks condition?.isSome m₄ ends₂ m₅ sides →
    Laid g t (.node body) m₅ (sides.filter (·.hasSense true)) m₆ ends₃ left₃ dead₃ →
    Laid g t (.parts update) m₆ ends₃ hi ends₄ left₄ dead₄ →
    g.Leads header.slot entry →
    (∀ e ∈ ends₄, g.Arrives entry e) →
    Laid g t (.node i) lo ends hi (sides.filter (!·.hasSense true))
      (left₁ ++ left₂ ++ left₃ ++ left₄) (dead₁ ++ dead₂ ++ dead₃ ++ dead₄)
  | jump : t.form? i = some (.jump operands) →
    Laid g t (.parts operands) lo ends mid ends₁ left dead →
    g.Places i mid ends₁ hi e →
    Laid g t (.node i) lo ends hi [] (left ++ [e]) dead
  | passing : t.form? i = some (.passing parts) →
    Laid g t (.parts parts) lo ends hi ends' left dead →
    Laid g t (.node i) lo ends hi ends' left dead

theorem Laid.sole (h : Laid g t (.node i) lo ends hi ends' left dead) :
    Laid g t (.parts [i]) lo ends hi ends' left dead := by
  have hc := h.cons .nil
  rwa [List.append_nil, List.append_nil] at hc

def Between (P : NodeId → Prop) (lo hi : Nat) : Prop :=
  ∀ i, lo ≤ i → i < hi → P ⟨i⟩

namespace Between

variable {P : NodeId → Prop} {lo mid hi : Nat}

theorem nil : Between P lo lo :=
  fun _ hl hh => absurd hh (Nat.not_lt_of_le hl)

theorem one (h : P ⟨lo⟩) : Between P lo (lo + 1) := by
  intro i hl hh
  have he : i = lo := by omega
  exact he ▸ h

theorem append (h : Between P lo mid) (h' : Between P mid hi) : Between P lo hi := by
  intro i hl hh
  cases Nat.lt_or_ge i mid
  case inl hm => exact h i hl hm
  case inr hm => exact h' i hm hh

end Between
end RoutineFlow.Flow
