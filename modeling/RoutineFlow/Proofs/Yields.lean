import RoutineFlow.Proofs.Growing

-- Steps of lowering, and what they yield. A step is started on any tree under construction, leaves
-- its roots alone and adds some of its own.

namespace RoutineFlow.Lowering

open Concrete (Node Cursor)
open Syntax (Tree Kind Role Id)

variable {α β : Type} {o : Origin} {t t' : Tree} {c d : Cursor} {n : Node} {xs rest : List Id}
  {kind : Kind} {role role' : Role}

-- A step from `t` on only adds to the tree, and ends as `post` says.
def Meets (o : Origin) (step : Lower α) (t : Tree) (post : α → Tree → Prop) : Prop :=
  t.Grows (step o.source t).2 ∧ post (step o.source t).1 (step o.source t).2

-- A step that leaves the tree as it is.
def Reads (step : Lower α) : Prop :=
  ∀ s t, (step s t).2 = t

namespace Meets

variable {step : Lower α} {post post' : α → Tree → Prop}

theorem pure {a : α} (h : post a t) : Meets o (pure a) t post :=
  ⟨.refl, h⟩

theorem mono (h : Meets o step t post) (hp : ∀ a t', t.Grows t' → post a t' → post' a t') :
    Meets o step t post' :=
  ⟨h.1, hp _ _ h.1 h.2⟩

theorem bind {f : α → Lower β} {post' : β → Tree → Prop} (h : Meets o step t post)
    (hf : ∀ a t', t.Grows t' → post a t' → Meets o (f a) t' post') :
    Meets o (step >>= f) t post' :=
  have ⟨hg, hp⟩ := hf _ _ h.1 h.2
  ⟨h.1.trans hg, hp⟩

theorem read {f : α → Lower β} {post' : β → Tree → Prop} (h : Reads step)
    (hf : ∀ a, Meets o (f a) t post') : Meets o (step >>= f) t post' := by
  have hf := hf (step o.source t).1
  have he : (step >>= f) o.source t = f (step o.source t).1 o.source t := by
    change f _ _ (step o.source t).2 = _
    rw [h]
  rwa [Meets, he]

end Meets

namespace Reads

theorem pure (a : α) : Reads (pure a) :=
  fun _ _ => rfl

theorem text (c : Cursor) : Reads (text c) :=
  fun _ _ => rfl

theorem textOf (c? : Option Cursor) : Reads (textOf c?) := by
  cases c?
  case none   => exact .pure ""
  case some c => exact .text c

theorem anonymous (c : Cursor) : Reads (anonymous c) :=
  fun _ _ => rfl

theorem routineName (c : Cursor) : Reads (routineName c) := by
  unfold Lowering.routineName
  split
  case h_1 => exact .text _
  case h_2 => exact .anonymous c

end Reads

theorem emit_meets (hn : o.root.Holds c.node)
    (hg : Growing o t (kind.slots.map (·.1) ++ rest)) (hr : Ready o c.node t kind.slots) :
    Meets o (emit kind c) t fun x t' => Growing o t' (x :: rest) ∧ t'.kind? x = some kind ∧
      t'.span? x = some (o.source.span c.node) := by
  refine ⟨.add .., hg.add hn hr, ?_, ?_⟩
  · exact (Tree.kind?_add ..).trans (if_pos rfl)
  · exact (Tree.span?_add ..).trans (if_pos rfl)

theorem Stand.one (hk : t.kind? x = some kind) (hs : t.span? x = some (o.source.span n))
    (hr : role.admits kind) : Stand o [n] role t [x] where
  stems    := List.forall_mem_singleton.mpr ⟨n, .head _, n, .self, hs⟩
  apart    := List.pairwise_singleton ..
  admits   := List.forall_mem_singleton.mpr ⟨kind, hk, .of_admits hr⟩

-- A step that adds some roots of which `post` holds.
def Yields (o : Origin) (ids : α → List Id) (step : Lower α) (post : Tree → List Id → Prop) :
    Prop :=
  ∀ ⦃t rest⦄, Growing o t rest →
    Meets o step t fun a t' => Growing o t' (ids a ++ rest) ∧ post t' (ids a)

namespace Yields

variable {ids : α → List Id} {ids' : β → List Id} {step : Lower α}
  {post post' : Tree → List Id → Prop}

theorem mono (h : Yields o ids step post) (hp : ∀ t xs, post t xs → post' t xs) :
    Yields o ids step post' :=
  fun _ _ hg => (h hg).mono fun _ _ _ ⟨hg, h⟩ => ⟨hg, hp _ _ h⟩

theorem pure {a : α} (ha : ids a = []) (h : ∀ t, post t []) : Yields o ids (pure a) post :=
  fun t _ hg => .pure (by rw [ha]; exact ⟨hg, h t⟩)

-- The roots are handed over in another form.
theorem map (h : Yields o ids step post) (f : α → β) (hf : ∀ a, ids' (f a) = ids a) :
    Yields o ids' (f <$> step) post :=
  fun _ _ hg => (h hg).bind fun a _ _ hp => .pure (by rw [hf]; exact hp)

theorem read {f : β → Lower α} {reading : Lower β} (hr : Reads reading)
    (h : ∀ b, Yields o ids (f b) post) : Yields o ids (reading >>= f) post :=
  fun _ _ hg => .read hr fun b => h b hg

-- A node all of whose parts have the same place.
theorem emit {f : α → Kind} {r : Role} (h : Yields o ids step (Stand o [c.node] role))
    (hn : o.root.Holds c.node) (hk : ∀ a, (f a).slots = (ids a).map (·, role))
    (hr : ∀ a, r.admits (f a)) :
    Yields o (fun x => [x]) (step >>= fun a => emit (f a) c) (Stand o [c.node] r) := by
  intro t rest hg
  refine (h hg).bind fun a t₁ _ ⟨hg₁, hs⟩ => ?_
  have hm : ((ids a).map (·, role)).map (·.1) = ids a := by simp [Function.comp_def]
  refine (emit_meets hn ?_ ?_).mono fun x t₂ _ ⟨hg₂, hk₂, hs₂⟩ => ⟨hg₂, .one hk₂ hs₂ (hr a)⟩
  · rwa [hk, hm]
  · exact hk a ▸ hs.ready

theorem up {m : Node} (h : Yields o ids step (Stand o [m] role)) (hn : n.Holds m) :
    Yields o ids step (Stand o [n] role) :=
  h.mono fun _ _ hs => hs.within fun _ hm => ⟨n, .head _, List.mem_singleton.mp hm ▸ hn⟩

theorem weaken (h : Yields o ids step (Stand o ns role))
    (hr : ∀ {kind}, o.Admits role kind → o.Admits role' kind) :
    Yields o ids step (Stand o ns role') :=
  h.mono fun _ _ hs => hs.weaken hr

theorem part {part : String} (h : Yields o ids step (Stand o [d.node] role)) (hd : d ∈ c.children)
    (hf : d.node.row.field? = some part) : Yields o ids step (Part o c.node part role) :=
  h.mono fun _ _ hs => hs.part fun _ hm =>
    List.mem_singleton.mp hm ▸ ⟨Cursor.node_mem_of_mem_children hd, hf⟩

-- One row after the other, where no two overlap.
theorem each {step : Cursor → Lower α} {cs : List Cursor}
    (hs : ∀ c ∈ cs, Yields o ids (step c) (Stand o [c.node] role))
    (hb : cs.Pairwise fun c d => o.root.Beside c.node d.node) :
    Yields o (·.flatMap ids) (cs.mapM step) (Stand o (cs.map (·.node)) role) := by
  induction cs
  case nil            => exact .pure rfl fun _ => .nil
  case cons c cs ih   =>
    have ⟨hsc, hs⟩ := List.forall_mem_cons.mp hs
    have ⟨hbc, hb⟩ := List.pairwise_cons.mp hb
    rw [List.mapM_cons]
    intro t rest hg
    refine (hsc hg).bind fun a t₁ _ ⟨hg₁, hs₁⟩ => ?_
    refine (ih hs hb hg₁).bind fun as t₂ hgr ⟨hg₂, hs₂⟩ => .pure ⟨?_, ?_⟩
    · simp only [List.flatMap_cons, List.append_assoc]
      exact hg₂.reorder (List.perm_append_comm_assoc ..)
    · simp only [List.flatMap_cons, List.map_cons]
      refine (hs₁.mono hgr).append hs₂ fun n hn m hm => ?_
      have ⟨d, hd, he⟩ := List.mem_map.mp hm
      exact List.mem_singleton.mp hn ▸ he ▸ hbc d hd

-- Children of one row.
theorem children {step : Cursor → Lower α} {cs : List Cursor} (hn : o.root.Holds c.node)
    (hc : cs.Sublist c.children) (hs : ∀ d ∈ cs, Yields o ids (step d) (Stand o [d.node] role)) :
    Yields o (·.flatMap ids) (cs.mapM step) (Stand o [c.node] role) := by
  refine (each hs ((Cursor.children_beside hn).sublist hc)).mono
    fun _ _ h => h.within fun n hm => ?_
  have ⟨d, hd, he⟩ := List.mem_map.mp hm
  exact ⟨c.node, .head _, he ▸ Cursor.holds_of_mem_children (hc.subset hd)⟩

-- The children that play one part.
theorem playing {step : Cursor → Lower α} {part : String} (hn : o.root.Holds c.node)
    (hs : ∀ d ∈ c.fieldAll part, Yields o ids (step d) (Stand o [d.node] role)) :
    Yields o (·.flatMap ids) ((c.fieldAll part).mapM step) (Part o c.node part role) := by
  refine (each hs ((Cursor.children_beside hn).sublist List.filter_sublist)).mono
    fun _ _ h => h.part fun n hm => ?_
  have ⟨d, hd, he⟩ := List.mem_map.mp hm
  have ⟨hd, hf⟩ := Cursor.mem_fieldAll.mp hd
  exact he ▸ ⟨Cursor.node_mem_of_mem_children hd, hf⟩

theorem congr {ids'' : α → List Id} (h : Yields o ids step post) (hi : ∀ a, ids a = ids'' a) :
    Yields o ids'' step post :=
  funext hi ▸ h

end Yields

-- The next part of a node.
theorem Gathered.next {ids : α → List Id} {step : Lower α} {f : α → Lower β}
    {post : β → Tree → Prop} {part : String} {parts : List String} {slots : List (Id × Role)}
    (h : Gathered o n rest parts t slots) (hy : Yields o ids step (Part o n part role))
    (hn : o.root.Holds n) (hp : part ∉ parts)
    (hf : ∀ a t', Gathered o n rest (part :: parts) t' (slots ++ (ids a).map (·, role)) →
      Meets o (f a) t' post) : Meets o (step >>= f) t post :=
  (hy h.growing).bind fun a t' hg ⟨ha, hx⟩ => hf a t' (h.append hg ha hx hn hp)

-- The node itself, once its parts are there.
theorem Gathered.emit {parts : List String} {slots : List (Id × Role)}
    (h : Gathered o c.node rest parts t slots) (hn : o.root.Holds c.node) (hk : kind.slots = slots)
    (hr : role.admits kind) :
    Meets o (Lowering.emit kind c) t fun x t' => Growing o t' ([x] ++ rest) ∧
      Stand o [c.node] role t' [x] := by
  subst hk
  exact (emit_meets hn h.growing h.ready).mono fun x t₂ _ ⟨hg, hk, hs⟩ => ⟨hg, .one hk hs hr⟩

end RoutineFlow.Lowering
