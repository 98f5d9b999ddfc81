import RoutineFlow.Lowering.Program
import RoutineFlow.Proofs.Roles
import RoutineFlow.Proofs.Rows

-- What lowering keeps while it builds a syntax tree: the nodes form a forest, each has the range of
-- a row, its parts come from rows below that do not overlap, and they are admitted where they stand
-- if the rows keep to the grammar. A step hands over the roots that it adds.

namespace RoutineFlow

open Concrete (Node Cursor Source)
open Syntax (Tree Kind Role Id)

namespace Syntax.Kind

-- What lowering adds beyond the rows: stand-ins for what is absent, and commas.
def isFiller : Kind → Bool
  | other kind           => kind = "missing"
  | binary (.other op) _ _ => op = ","
  | _                    => false

end Syntax.Kind

namespace Lowering

-- The root of what is lowered, and the text it was found in.
structure Origin where
  root   : Node
  source : Source

variable {o : Origin} {t t' : Tree} {n m : Node} {id : Id} {xs ys rest roots roots' : List Id}
  {kind : Kind} {role role' : Role}

-- The node has the range of a row at or below `n`.
def Stems (o : Origin) (t : Tree) (n : Node) (x : Id) : Prop :=
  ∃ m, n.Holds m ∧ t.span? x = some (o.source.span m)

-- The nodes have ranges of rows side by side.
def Apart (o : Origin) (t : Tree) (x y : Id) : Prop :=
  ∃ n m, o.root.Beside n m ∧ t.span? x = some (o.source.span n) ∧ t.span? y = some (o.source.span m)

-- A node that was added to a row and has all of its range.
def Fills (o : Origin) (t : Tree) (n : Node) (x : Id) : Prop :=
  t.span? x = some (o.source.span n) ∧ (t.kind? x).any Kind.isFiller

-- What is in the range of `x` is not in that of `y`, but for what was added to the row `n`.
inductive Behind (o : Origin) (t : Tree) (n : Node) (x : Id) : Id → Prop
  | apart   : Apart o t x y → Behind o t n x y
  | missing : t.kind? y = some (.other "missing") → t.span? y = some (o.source.span n) →
    Behind o t n x y
  | comma   : t.kind? y = some (.binary (.other ",") l r) → t.span? y = some (o.source.span n) →
    Behind o t n x l → Behind o t n x r → Behind o t n x y

-- The second of two parts of `n` is not hidden by the first, unless the first was added.
def Clear (o : Origin) (t : Tree) (n : Node) (x y : Id) : Prop :=
  Fills o t n x ∨ Behind o t n x y

theorem Stems.mono (h : Stems o t n x) (hg : t.Grows t') : Stems o t' n x :=
  have ⟨m, hm, hs⟩ := h
  ⟨m, hm, hg.span? hs⟩

theorem Stems.up (h : Stems o t m x) (hn : n.Holds m) : Stems o t n x :=
  have ⟨k, hk, hs⟩ := h
  ⟨k, hn.trans hk, hs⟩

theorem Stems.apart (hx : Stems o t n x) (hy : Stems o t m y) (hb : o.root.Beside n m) :
    Apart o t x y :=
  have ⟨a, ha, hx⟩ := hx
  have ⟨b, hb', hy⟩ := hy
  ⟨a, b, hb.below ha hb', hx, hy⟩

theorem Apart.mono (h : Apart o t x y) (hg : t.Grows t') : Apart o t' x y :=
  have ⟨n, m, hb, hx, hy⟩ := h
  ⟨n, m, hb, hg.span? hx, hg.span? hy⟩

theorem Apart.clear (h : Apart o t x y) : Clear o t n x y :=
  .inr (.apart h)

theorem Fills.mono (h : Fills o t n x) (hg : t.Grows t') : Fills o t' n x :=
  ⟨hg.span? h.1, hg.any_kind? h.2⟩

theorem Behind.mono (h : Behind o t n x y) (hg : t.Grows t') : Behind o t' n x y := by
  induction h
  case apart h               => exact .apart (h.mono hg)
  case missing hk hs         => exact .missing (hg.kind? hk) (hg.span? hs)
  case comma hk hs _ _ hl hr => exact .comma (hg.kind? hk) (hg.span? hs) hl hr

theorem Clear.mono (h : Clear o t n x y) (hg : t.Grows t') : Clear o t' n x y :=
  h.imp (·.mono hg) (·.mono hg)

-- The node was made for the part that some children of `n` play, or was added in its place.
inductive Plays (o : Origin) (t : Tree) (n : Node) (part : String) : Id → Prop
  | stems   : q ∈ n.children → q.row.field? = some part → Stems o t q x → Plays o t n part x
  | missing : t.kind? x = some (.other "missing") → t.span? x = some (o.source.span n) →
    Plays o t n part x
  | comma   : t.kind? x = some (.binary (.other ",") l r) → t.span? x = some (o.source.span n) →
    Plays o t n part l → Plays o t n part r → Plays o t n part x

namespace Plays

variable {part' : String}

theorem mono (h : Plays o t n part x) (hg : t.Grows t') : Plays o t' n part x := by
  induction h
  case stems hq hf hs        => exact .stems hq hf (hs.mono hg)
  case missing hk hs         => exact .missing (hg.kind? hk) (hg.span? hs)
  case comma hk hs _ _ hl hr => exact .comma (hg.kind? hk) (hg.span? hs) hl hr

theorem toStems (h : Plays o t n part x) : Stems o t n x := by
  cases h
  case stems hq _ hs    => exact hs.up (.child .self hq)
  case missing hs       => exact ⟨n, .self, hs⟩
  case comma hs         => exact ⟨n, .self, hs⟩

-- Different parts are played by different rows.
theorem clear (hx : Plays o t n part x) (hy : Plays o t n part' y) (hn : o.root.Holds n)
    (hp : part ≠ part') : Clear o t n x y := by
  cases hx
  case missing hk hs     => exact .inl ⟨hs, by rw [hk]; rfl⟩
  case comma hk hs       => exact .inl ⟨hs, by rw [hk]; rfl⟩
  case stems q hq hf hs  =>
    refine .inr ?_
    induction hy
    case missing hk hs'         => exact .missing hk hs'
    case comma hk hs' _ _ hl hr => exact .comma hk hs' hl hr
    case stems hq' hf' hs'      =>
      have hb := Node.HoldsIn.beside ⟨q, hq, hf, .self⟩ ⟨_, hq', hf', .self⟩ hn hp
      exact .apart (hs.apart hs' hb)

end Plays

-- What is found in a place: it is tolerated there in any case (1), and no static block unless the
-- place is for members (2), which static blocks keep to if their rows do; and it is admitted if all
-- rows keep to the grammar (3).
structure Origin.Admits (o : Origin) (role : Role) (kind : Kind) : Prop where
  tolerated : role.tolerates kind                                           -- (1)
  sheltered : o.root.Sheltered → kind.isStaticBlock → role = .member        -- (2)
  admitted  : o.root.Grammatical → role.admits kind                         -- (3)

namespace Origin.Admits

theorem of_admits (h : role.admits kind) : o.Admits role kind :=
  ⟨Role.tolerates_of_admits h, fun _ => Role.member_of_isStaticBlock h, fun _ => h⟩

theorem weaken (h : o.Admits role kind) (hr : role ≠ .member)
    (ht : role.tolerates kind → role'.tolerates kind) (ha : role.admits kind → role'.admits kind) :
    o.Admits role' kind :=
  ⟨ht h.tolerated, fun hS hk => absurd (h.sheltered hS hk) hr, fun hG => ha (h.admitted hG)⟩

theorem initial_of_value (h : o.Admits .value kind) : o.Admits .initial kind :=
  h.weaken nofun id Role.initial_of_value

theorem statement_of_value (h : o.Admits .value kind) : o.Admits .statement kind :=
  h.weaken nofun Role.tolerates_statement_of_value Role.statement_of_value

theorem statement_of_body (h : o.Admits .body kind) : o.Admits .statement kind :=
  h.weaken nofun Role.tolerates_statement_of_body Role.statement_of_body

theorem member_of_value (h : o.Admits .value kind) : o.Admits .member kind :=
  h.weaken nofun Role.tolerates_statement_of_value Role.member_of_value

end Origin.Admits

def Admitted (o : Origin) (t : Tree) (role : Role) (x : Id) : Prop :=
  ∃ kind, t.kind? x = some kind ∧ o.Admits role kind

theorem Admitted.mono (h : Admitted o t role x) (hg : t.Grows t') : Admitted o t' role x :=
  have ⟨kind, hk, ha⟩ := h
  ⟨kind, hg.kind? hk, ha⟩

-- How a node came about: it was made for a row (1), and its parts for rows at or below that one (2)
-- that do not overlap (3).
structure Drawn (o : Origin) (t : Tree) (id : Id) (kind : Kind) (n : Node) : Prop where
  span  : t.span? id = some (o.source.span n)                      -- (1)
  stems : ∀ x ∈ kind.children, Stems o t n x                       -- (2)
  clear : kind.children.Pairwise (Clear o t n)                     -- (3)

structure Growing (o : Origin) (t : Tree) (roots : List Id) : Prop where
  forest   : t.Forest roots
  drawn    : ∀ {id kind}, t.kind? id = some kind → ∃ n, o.root.Holds n ∧ Drawn o t id kind n
  arranged : ∀ {id kind}, t.kind? id = some kind → ∀ slot ∈ kind.slots, Admitted o t slot.2 slot.1

theorem Drawn.mono (h : Drawn o t id kind n) (hg : t.Grows t') : Drawn o t' id kind n where
  span       := hg.span? h.span
  stems x hx := (h.stems x hx).mono hg
  clear      := h.clear.imp (·.mono hg)

-- Nodes that a node for the row `n` can take for its parts.
structure Ready (o : Origin) (n : Node) (t : Tree) (slots : List (Id × Role)) : Prop where
  stems  : ∀ x ∈ slots.map (·.1), Stems o t n x
  clear  : (slots.map (·.1)).Pairwise (Clear o t n)
  admits : ∀ slot ∈ slots, Admitted o t slot.2 slot.1

namespace Growing

theorem empty : Growing o .empty [] where
  forest   := .empty
  drawn    := by simp [Tree.kind?, Tree.get?, Tree.empty]
  arranged := by simp [Tree.kind?, Tree.get?, Tree.empty]

theorem reorder (h : Growing o t roots) (hp : roots.Perm roots') : Growing o t roots' :=
  ⟨h.forest.reorder hp, h.drawn, h.arranged⟩

theorem add (h : Growing o t (kind.slots.map (·.1) ++ rest)) (hn : o.root.Holds n)
    (hr : Ready o n t kind.slots) :
    Growing o (t.add kind (o.source.span n)) (t.nextId :: rest) := by
  have hg : t.Grows (t.add kind (o.source.span n)) := .add ..
  have ⟨hs, hc, ha⟩ := hr
  rw [Kind.slots_map_fst] at h hs hc
  refine ⟨h.forest.add _, fun {id kind'} hk => ?_, fun {id kind'} hk => ?_⟩
  all_goals
    rw [Tree.kind?_add] at hk
    split at hk
  · cases hk
    have hs' : (t.add kind (o.source.span n)).span? id = some (o.source.span n) := by
      rw [Tree.span?_add, if_pos ‹_›]
    exact ⟨n, hn, hs', fun x hx => (hs x hx).mono hg, hc.imp (·.mono hg)⟩
  · have ⟨n', hn', hd⟩ := h.drawn hk
    exact ⟨n', hn', hd.mono hg⟩
  · cases hk
    exact fun slot hs => (ha slot hs).mono hg
  · exact fun slot hs => (h.arranged hk slot hs).mono hg

end Growing

-- Nodes made for rows at or below those of `ns` (1), one beside the other (2), that are admitted
-- for one role (3).
structure Stand (o : Origin) (ns : List Node) (role : Role) (t : Tree) (xs : List Id) : Prop where
  stems  : ∀ x ∈ xs, ∃ n ∈ ns, Stems o t n x                                   -- (1)
  apart  : xs.Pairwise (Apart o t)                                             -- (2)
  admits : ∀ x ∈ xs, Admitted o t role x                                       -- (3)

namespace Stand

variable {ns ns' : List Node}

theorem nil : Stand o ns role t [] :=
  ⟨nofun, .nil, nofun⟩

theorem mono (h : Stand o ns role t xs) (hg : t.Grows t') : Stand o ns role t' xs where
  stems x hx  := have ⟨n, hn, hs⟩ := h.stems x hx; ⟨n, hn, hs.mono hg⟩
  apart       := h.apart.imp (·.mono hg)
  admits x hx := (h.admits x hx).mono hg

theorem within (h : Stand o ns role t xs) (hn : ∀ n ∈ ns, ∃ m ∈ ns', m.Holds n) :
    Stand o ns' role t xs where
  stems x hx :=
    have ⟨n, hm, hs⟩ := h.stems x hx
    have ⟨m, hm, hn⟩ := hn n hm
    ⟨m, hm, hs.up hn⟩
  apart      := h.apart
  admits     := h.admits

theorem weaken (h : Stand o ns role t xs)
    (hr : ∀ {kind}, o.Admits role kind → o.Admits role' kind) : Stand o ns role' t xs where
  stems       := h.stems
  apart       := h.apart
  admits x hx := have ⟨kind, hk, ha⟩ := h.admits x hx; ⟨kind, hk, hr ha⟩

theorem append (h : Stand o ns role t xs) (h' : Stand o ns' role t ys)
    (hb : ∀ n ∈ ns, ∀ m ∈ ns', o.root.Beside n m) : Stand o (ns ++ ns') role t (xs ++ ys) where
  stems      := List.forall_mem_append.mpr
    ⟨fun x hx => have ⟨n, hn, hs⟩ := h.stems x hx; ⟨n, List.mem_append_left _ hn, hs⟩,
      fun x hx => have ⟨n, hn, hs⟩ := h'.stems x hx; ⟨n, List.mem_append_right _ hn, hs⟩⟩
  apart      := List.pairwise_append.mpr ⟨h.apart, h'.apart, fun x hx y hy =>
    have ⟨n, hn, hx⟩ := h.stems x hx
    have ⟨m, hm, hy⟩ := h'.stems y hy
    hx.apart hy (hb n hn m hm)⟩
  admits     := List.forall_mem_append.mpr ⟨h.admits, h'.admits⟩

theorem ready (h : Stand o [n] role t xs) : Ready o n t (xs.map (·, role)) := by
  refine ⟨fun x hx => ?_, ?_, List.forall_mem_map.mpr h.admits⟩
  · have ⟨m, hm, hs⟩ := h.stems x (by simpa [Function.comp_def] using hx)
    exact List.mem_singleton.mp hm ▸ hs
  · simpa [Function.comp_def] using h.apart.imp Apart.clear

end Stand

-- Nodes that play one part of `n`.
structure Part (o : Origin) (n : Node) (part : String) (role : Role) (t : Tree) (xs : List Id) :
    Prop where
  plays  : ∀ x ∈ xs, Plays o t n part x
  clear  : xs.Pairwise (Clear o t n)
  admits : ∀ x ∈ xs, Admitted o t role x

theorem Stand.part {ns : List Node} {part : String} (h : Stand o ns role t xs)
    (hn : ∀ q ∈ ns, q ∈ n.children ∧ q.row.field? = some part) : Part o n part role t xs where
  plays x hx :=
    have ⟨q, hq, hs⟩ := h.stems x hx
    have ⟨hm, hf⟩ := hn q hq
    .stems hm hf hs
  clear      := h.apart.imp Apart.clear
  admits     := h.admits

-- The parts of `n` that are there so far, with the places they take.
structure Gathered (o : Origin) (n : Node) (rest : List Id) (parts : List String) (t : Tree)
    (slots : List (Id × Role)) : Prop where
  growing : Growing o t (slots.map (·.1) ++ rest)
  plays   : ∀ x ∈ slots.map (·.1), ∃ part ∈ parts, Plays o t n part x
  clear   : (slots.map (·.1)).Pairwise (Clear o t n)
  admits  : ∀ slot ∈ slots, Admitted o t slot.2 slot.1

namespace Gathered

variable {parts : List String} {slots : List (Id × Role)}

theorem nil (h : Growing o t rest) : Gathered o n rest [] t [] :=
  ⟨h, nofun, .nil, nofun⟩

theorem append (h : Gathered o n rest parts t slots) (hg : t.Grows t')
    (ha : Growing o t' (xs ++ (slots.map (·.1) ++ rest))) (hx : Part o n part role t' xs)
    (hn : o.root.Holds n) (hp : part ∉ parts) :
    Gathered o n rest (part :: parts) t' (slots ++ xs.map (·, role)) := by
  have hm : (slots ++ xs.map (·, role)).map (·.1) = slots.map (·.1) ++ xs := by
    simp [Function.comp_def]
  refine ⟨?_, hm ▸ List.forall_mem_append.mpr ⟨fun x hs => ?_, fun x hs => ?_⟩, ?_, ?_⟩
  · rw [hm, List.append_assoc]
    exact ha.reorder (List.perm_append_comm_assoc ..)
  · have ⟨part', hm, hp⟩ := h.plays x hs
    exact ⟨part', .tail _ hm, hp.mono hg⟩
  · exact ⟨part, .head _, hx.plays x hs⟩
  · rw [hm, List.pairwise_append]
    refine ⟨h.clear.imp (·.mono hg), hx.clear, fun x hs y hy => ?_⟩
    have ⟨part', hm, hp'⟩ := h.plays x hs
    exact (hp'.mono hg).clear (hx.plays y hy) hn fun he => hp (he ▸ hm)
  · rw [List.forall_mem_append, List.forall_mem_map]
    exact ⟨fun slot hs => (h.admits slot hs).mono hg, hx.admits⟩

theorem ready (h : Gathered o n rest parts t slots) : Ready o n t slots where
  stems x hx := have ⟨_, _, hp⟩ := h.plays x hx; hp.toStems
  clear      := h.clear
  admits     := h.admits

end Gathered

end Lowering
end RoutineFlow
