import Mathlib.Data.List.Nodup
import Mathlib.Data.List.TakeWhile
import RoutineFlow.Command.Collect
import RoutineFlow.Proofs.Resolution

-- Which files are found. Each argument gives the files below it that are in a dialect, but for what
-- is ignored or lies below what is ignored. The list has each file once for each argument that
-- gives it, in the order of the paths, so the order of the arguments makes no difference.

namespace RoutineFlow

namespace Path

variable {p q r : Path} {name : String} {names names' : List String} {a b c : Component}
  {as bs cs : List Component}

theorem Component.lt_trans (h : a.lt b) (h' : b.lt c) : a.lt c := by
  cases a <;> cases b <;> cases c
  case name.name.name =>
    simp only [Component.lt, decide_eq_true_eq] at h h' ⊢
    exact String.lt_trans h h'
  all_goals first
    | rfl
    | exact Bool.noConfusion h
    | exact Bool.noConfusion h'

theorem Component.lt_total (a b : Component) : a.lt b ∨ a = b ∨ b.lt a := by
  cases a <;> cases b
  case name.name s t =>
    simp only [Component.lt, decide_eq_true_eq, name.injEq]
    exact Std.lt_trichotomy s t
  all_goals first
    | exact .inl rfl
    | exact .inr (.inl rfl)
    | exact .inr (.inr rfl)

theorem componentsLe_trans (h : componentsLe as bs) (h' : componentsLe bs cs) :
    componentsLe as cs := by
  induction as generalizing bs cs
  case nil => rfl
  case cons a as ih =>
    obtain _ | ⟨b, bs⟩ := bs
    case nil => cases h
    obtain _ | ⟨c, cs⟩ := cs
    case nil => cases h'
    simp only [componentsLe, Bool.or_eq_true, Bool.and_eq_true, decide_eq_true_eq] at h h' ⊢
    obtain h | ⟨rfl, h⟩ := h
    case inl =>
      obtain h' | ⟨rfl, _⟩ := h'
      case inl => exact .inl (Component.lt_trans h h')
      case inr => exact .inl h
    case inr => exact h'.imp_right fun ⟨he, h'⟩ => ⟨he, ih h h'⟩

theorem componentsLe_total (as bs : List Component) : componentsLe as bs ∨ componentsLe bs as := by
  induction as generalizing bs
  case nil => exact .inl rfl
  case cons a as ih =>
    obtain _ | ⟨b, bs⟩ := bs
    case nil => exact .inr rfl
    simp only [componentsLe, Bool.or_eq_true, Bool.and_eq_true, decide_eq_true_eq]
    obtain h | rfl | h := Component.lt_total a b
    case inl     => exact .inl (.inl h)
    case inr.inl => exact (ih bs).imp (.inr ⟨rfl, ·⟩) (.inr ⟨rfl, ·⟩)
    case inr.inr => exact .inr (.inl h)

theorem le_trans (h : p.le q) (h' : q.le r) : p.le r :=
  componentsLe_trans h h'

theorem le_total (p q : Path) : p.le q ∨ q.le p :=
  componentsLe_total p.components q.components

theorem Component.not_lt_self (a : Component) : ¬a.lt a := by
  cases a
  case name s => simp [lt]
  all_goals exact Bool.false_ne_true

theorem componentsLe_antisymm (h : componentsLe as bs) (h' : componentsLe bs as) : as = bs := by
  induction as generalizing bs
  case nil =>
    cases bs
    case nil  => rfl
    case cons => cases h'
  case cons a as ih =>
    cases bs
    case nil       => cases h
    case cons b bs =>
      simp only [componentsLe, Bool.or_eq_true, Bool.and_eq_true, decide_eq_true_eq] at h h'
      cases h
      case inl h =>
        cases h'
        case inl h' => exact absurd (Component.lt_trans h h') a.not_lt_self
        case inr h' => exact absurd (h'.1 ▸ h) a.not_lt_self
      case inr h =>
        obtain ⟨rfl, h⟩ := h
        cases h'
        case inl h' => exact absurd h' a.not_lt_self
        case inr h' => rw [ih h h'.2]

-- How all paths below a path begin.
def lead (p : Path) : List Char :=
  if p.text.isEmpty || p.text.toList.getLast? = some '/' then p.text.toList
  else p.text.toList ++ ['/']

theorem toList_join (p : Path) (name : String) :
    (p.join name).text.toList = p.lead ++ name.toList := by
  unfold join lead
  split
  case isTrue  => exact String.toList_append
  case isFalse => rw [String.toList_append, String.toList_append]; rfl

theorem lead_join (h : IsName name) : (p.join name).lead = p.lead ++ (name.toList ++ ['/']) := by
  have hn := h.toList_ne_nil
  have hl : (p.lead ++ name.toList).getLast? ≠ some '/' := by
    rw [List.getLast?_append_of_ne_nil _ hn]
    exact fun he => h.2 (List.mem_of_getLast? he)
  have hc : ¬((p.join name).text.isEmpty || (p.join name).text.toList.getLast? = some '/') := by
    simp only [Bool.or_eq_true, decide_eq_true_eq, String.isEmpty_iff, toList_join, not_or]
    exact ⟨text_join_ne_empty h, hl⟩
  rw [lead, if_neg hc, toList_join, List.append_assoc]

theorem lead_below (h : ∀ name ∈ names, IsName name) :
    (p.below names).lead = p.lead ++ names.flatMap fun name => name.toList ++ ['/'] := by
  induction names generalizing p
  case nil              => exact (List.append_nil _).symm
  case cons name _ ih   =>
    have ⟨hn, h⟩ := List.forall_mem_cons.mp h
    rw [below, List.foldl_cons, ← below, ih h, lead_join hn, List.flatMap_cons, List.append_assoc]

-- A name ends at the first slash.
theorem IsName.takeWhile (h : IsName name) (cs : List Char) :
    (name.toList ++ '/' :: cs).takeWhile (· ≠ '/') = name.toList := by
  have hn : ∀ c ∈ name.toList, decide (c ≠ '/') := by
    intro c hc
    exact decide_eq_true (ne_of_mem_of_not_mem hc h.2)
  rw [List.takeWhile_append_of_pos hn]
  exact List.append_nil _

theorem flatMap_slash_injective (h : ∀ name ∈ names, IsName name)
    (h' : ∀ name ∈ names', IsName name)
    (he : (names.flatMap fun name => name.toList ++ ['/']) =
      names'.flatMap fun name => name.toList ++ ['/']) : names = names' := by
  induction names generalizing names'
  case nil             =>
    cases names'
    case nil  => rfl
    case cons => simp at he
  case cons name _ ih  =>
    cases names'
    case nil           => simp at he
    case cons name' _  =>
      have ⟨hn, h⟩ := List.forall_mem_cons.mp h
      have ⟨hn', h'⟩ := List.forall_mem_cons.mp h'
      simp only [List.flatMap_cons, List.append_assoc, List.singleton_append] at he
      have hname : name.toList = name'.toList := by
        rw [← hn.takeWhile, he, hn'.takeWhile]
      rw [hname, List.append_cancel_left_eq, List.cons.injEq] at he
      rw [String.toList_injective hname, ih h h' he.2]

-- Different names lead to different paths.
theorem below_injective (h : ∀ name ∈ names, IsName name) (h' : ∀ name ∈ names', IsName name)
    (he : p.below names = p.below names') : names = names' := by
  have he := congrArg lead he
  rw [lead_below h, lead_below h'] at he
  exact flatMap_slash_injective h h' (List.append_cancel_left he)

end Path

namespace Command.Entry

-- The entries of each directory have names, and different ones.
inductive WellNamed : Entry → Prop
  | file      : WellNamed (file text?)
  | directory : (entries.map (·.1)).Nodup → (∀ x ∈ entries, Path.IsName x.1) →
    (∀ x ∈ entries, WellNamed x.2) → WellNamed (directory entries)

variable {ignored : Path → Bool} {e e' : Entry} {p found : Path} {text? : Option String}
  {entries : List (String × Entry)} {name : String} {names : List String}

theorem lookup_eq_some_iff (h : (entries.map (·.1)).Nodup) :
    entries.lookup name = some e ↔ (name, e) ∈ entries := by
  rw [List.lookup_eq_some_iff]
  constructor
  case mp  =>
    rintro ⟨before, after, rfl, _⟩
    exact List.mem_append_right _ (.head _)
  case mpr =>
    intro hm
    obtain ⟨before, after, rfl⟩ := List.append_of_mem hm
    refine ⟨before, after, rfl, fun x hx => ?_⟩
    rw [List.map_append, List.nodup_append] at h
    exact bne_iff_ne.mpr (h.2.2 _ (List.mem_map_of_mem hx) _ (.head _)).symm

theorem WellNamed.of_lookup (h : WellNamed (.directory entries))
    (hl : entries.lookup name = some e) : Path.IsName name ∧ e.WellNamed := by
  cases h
  case directory hd hn he =>
    have hm := (lookup_eq_some_iff hd).mp hl
    exact ⟨hn _ hm, he _ hm⟩

theorem WellNamed.of_at? (h : e.WellNamed) (ha : e.at? names = some e') :
    (∀ name ∈ names, Path.IsName name) ∧ e'.WellNamed := by
  induction names generalizing e
  case nil             => cases ha; exact ⟨nofun, h⟩
  case cons name _ ih  =>
    cases e
    case file      => cases ha
    case directory =>
      have ⟨_, hl, ha⟩ := Option.bind_eq_some_iff.mp ha
      have ⟨hname, he⟩ := h.of_lookup hl
      have ⟨hn, he'⟩ := ih he ha
      exact ⟨List.forall_mem_cons.mpr ⟨hname, hn⟩, he'⟩

mutual

-- The files in a dialect at a path and below it. What is ignored is not looked into.
def sources (ignored : Path → Bool) (p : Path) : Entry → List Path
  | file _            => if ignored p || (Dialect.ofPath? p).isNone then [] else [p]
  | directory entries => if ignored p then [] else sourcesAmong ignored p entries

def sourcesAmong (ignored : Path → Bool) (p : Path) : List (String × Entry) → List Path
  | []                   => []
  | (name, e) :: entries => sources ignored (p.join name) e ++ sourcesAmong ignored p entries

end

theorem sources_directory (ignored : Path → Bool) (p : Path) (entries : List (String × Entry)) :
    sources ignored p (directory entries) =
      if ignored p then [] else entries.flatMap fun x => sources ignored (p.join x.1) x.2 := by
  have hs : sourcesAmong ignored p entries =
      entries.flatMap fun x => sources ignored (p.join x.1) x.2 := by
    induction entries
    case nil         => rfl
    case cons x _ ih => rw [sourcesAmong, List.flatMap_cons, ih]
  rw [sources, hs]

mutual

theorem depth_le_of_mem_walk {depth : Nat} {p : Path} {stop : Stop} :
    ∀ e : Entry, stop ∈ walk depth p e → depth ≤ stop.depth
  | file _,            h => by
    rw [walk, List.mem_singleton] at h
    rw [h]
  | directory entries, h => by
    rw [walk] at h
    cases h
    case head   => exact Nat.le_refl _
    case tail h => exact Nat.le_of_succ_le (depth_le_of_mem_walkAmong entries h)

theorem depth_le_of_mem_walkAmong {depth : Nat} {p : Path} {stop : Stop} :
    ∀ entries : List (String × Entry), stop ∈ walkAmong depth p entries → depth ≤ stop.depth
  | [],                   h => nomatch h
  | (name, e) :: entries, h => by
    rw [walkAmong] at h
    cases List.mem_append.mp h
    case inl h => exact depth_le_of_mem_walk e h
    case inr h => exact depth_le_of_mem_walkAmong entries h

end

theorem depth_of_head?_walkAmong {depth : Nat} {p : Path} {stop : Stop}
    (h : (walkAmong depth p entries).head? = some stop) : stop.depth = depth := by
  cases entries
  case nil      => cases h
  case cons x _ =>
    have ⟨_, e⟩ := x
    cases e
    all_goals
      cases h
      rfl

theorem gather_skip {depth : Nat} {stops rest : List Stop}
    (h : ∀ stop ∈ stops, depth < stop.depth) :
    gather ignored (some depth) (stops ++ rest) = gather ignored (some depth) rest := by
  induction stops
  case nil             => rfl
  case cons stop _ ih  =>
    have ⟨hs, h⟩ := List.forall_mem_cons.mp h
    have hs : (some depth).any (· < stop.depth) := decide_eq_true hs
    rw [List.cons_append, gather, if_pos hs, ih h]

theorem gather_resume {depth : Nat} {rest : List Stop}
    (h : ∀ stop ∈ rest.head?, stop.depth ≤ depth) :
    gather ignored (some depth) rest = gather ignored none rest := by
  cases rest
  case nil            => rfl
  case cons stop rest =>
    have hs : ¬(some depth).any (· < stop.depth) := by simpa using h stop rfl
    rw [gather, if_neg hs]
    rfl

-- What is skipped after a directory is just what it holds.
theorem gather_walkAmong_skip {depth : Nat} {rest : List Stop}
    (hr : ∀ stop ∈ rest.head?, stop.depth ≤ depth) :
    gather ignored (some depth) (walkAmong (depth + 1) p entries ++ rest) =
      gather ignored none rest := by
  rw [gather_skip fun _ h => depth_le_of_mem_walkAmong entries h, gather_resume hr]

mutual

-- The induction is on the entry: the rest of a walk goes on no deeper than it began.
theorem gather_walk {ignored : Path → Bool} {depth : Nat} {p : Path} {rest : List Stop} :
    ∀ e : Entry, (∀ stop ∈ rest.head?, stop.depth ≤ depth) →
      gather ignored none (walk depth p e ++ rest) = sources ignored p e ++ gather ignored none rest
  | file _,            hr => by
    rw [walk, List.singleton_append, gather, sources]
    cases ignored p
    case true  => rfl
    case false => cases Dialect.ofPath? p <;> rfl
  | directory entries, hr => by
    rw [walk, List.cons_append, gather, sources]
    cases ignored p
    case true  => exact gather_walkAmong_skip hr
    case false => exact gather_walkAmong entries fun stop hs => Nat.le_succ_of_le (hr stop hs)

theorem gather_walkAmong {ignored : Path → Bool} {depth : Nat} {p : Path} {rest : List Stop} :
    ∀ entries : List (String × Entry), (∀ stop ∈ rest.head?, stop.depth ≤ depth) →
      gather ignored none (walkAmong depth p entries ++ rest) =
        sourcesAmong ignored p entries ++ gather ignored none rest
  | [],                   _  => rfl
  | (name, e) :: entries, hr => by
    rw [walkAmong, sourcesAmong, List.append_assoc, List.append_assoc, gather_walk e ?_,
      gather_walkAmong entries hr]
    intro stop hs
    rw [List.head?_append] at hs
    cases Option.or_eq_some_iff.mp hs
    case inl hs => exact Nat.le_of_eq (depth_of_head?_walkAmong hs)
    case inr hs => exact hr stop hs.2

end

-- A walk that skips what lies below ignored directories collects the same files.
theorem gather_eq_sources (ignored : Path → Bool) (p : Path) (e : Entry) :
    gather ignored none (walk 0 p e) = sources ignored p e := by
  have h : gather ignored none (walk 0 p e ++ []) = sources ignored p e ++ [] := gather_walk e nofun
  rwa [List.append_nil, List.append_nil] at h

-- From the entry at a path, names lead to the file, which is in a dialect. The path itself is not
-- ignored, and neither is any on the way or that of the file.
def Offers (ignored : Path → Bool) (p : Path) (e : Entry) (found : Path) : Prop :=
  ∃ names text?, e.at? names = some (.file text?) ∧ found = p.below names ∧
    (∀ before, before <+: names → ignored (p.below before) = false) ∧
    (Dialect.ofPath? found).isSome

theorem offers_file : Offers ignored p (file text?) found ↔
    ignored p = false ∧ (Dialect.ofPath? p).isSome ∧ found = p := by
  constructor
  case mp  =>
    rintro ⟨names, _, ha, rfl, hi, hd⟩
    cases names
    case cons => cases ha
    case nil  => exact ⟨hi [] (List.prefix_refl _), hd, rfl⟩
  case mpr =>
    rintro ⟨hi, hd, rfl⟩
    refine ⟨[], text?, rfl, rfl, fun before hb => ?_, hd⟩
    rw [List.prefix_nil.mp hb]
    exact hi

theorem offers_directory (h : (entries.map (·.1)).Nodup) :
    Offers ignored p (directory entries) found ↔
      ignored p = false ∧ ∃ x ∈ entries, Offers ignored (p.join x.1) x.2 found := by
  constructor
  case mp  =>
    rintro ⟨names, text?, ha, hp, hi, hd⟩
    cases names
    case nil             => cases ha
    case cons name names =>
      have ⟨e, hl, ha⟩ := Option.bind_eq_some_iff.mp ha
      have hx : (name, e) ∈ entries := (lookup_eq_some_iff h).mp hl
      refine ⟨hi [] List.nil_prefix, (name, e), hx, names, text?, ha, hp, fun before hb => ?_, hd⟩
      exact hi (name :: before) ((List.prefix_cons_inj name).mpr hb)
  case mpr =>
    rintro ⟨hi, ⟨name, e⟩, hx, names, text?, ha, hp, hb, hd⟩
    refine ⟨name :: names, text?, ?_, hp, fun before hb' => ?_, hd⟩
    · rw [at?, (lookup_eq_some_iff h).mpr hx, Option.bind_some, ha]
    · obtain rfl | ⟨before, rfl, hn⟩ := List.prefix_cons_iff.mp hb'
      · exact hi
      · exact hb before hn

theorem mem_sources_iff (h : e.WellNamed) :
    found ∈ sources ignored p e ↔ Offers ignored p e found := by
  induction h generalizing p
  case file                          =>
    rw [sources, offers_file]
    cases ignored p
    case true  => simp
    case false => cases Dialect.ofPath? p <;> simp
  case directory entries hd hn he ih =>
    rw [sources_directory, offers_directory hd]
    cases ignored p
    case true  => simp
    case false =>
      rw [if_neg Bool.false_ne_true, List.mem_flatMap, and_iff_right rfl]
      exact exists_congr fun x => and_congr_right fun hx => ih x hx

-- The paths of the files that are offered differ.
theorem nodup_sources (h : e.WellNamed) : (sources ignored p e).Nodup := by
  induction h generalizing p
  case file                          =>
    rw [sources]
    split
    case isTrue  => exact .nil
    case isFalse => exact List.nodup_singleton _
  case directory entries hd hn he ih =>
    rw [sources_directory]
    split
    case isTrue  => exact .nil
    case isFalse =>
      refine List.nodup_flatMap.mpr ⟨fun x hx => ih x hx, ?_⟩
      refine (List.pairwise_map.mp hd).imp_of_mem fun {x y} hx hy hne found hfx hfy => hne ?_
      obtain ⟨names, _, hax, hpx, _⟩ := (mem_sources_iff (he x hx)).mp hfx
      obtain ⟨names', _, hay, hpy, _⟩ := (mem_sources_iff (he y hy)).mp hfy
      have hp : p.below (x.1 :: names) = p.below (y.1 :: names') := hpx.symm.trans hpy
      have hnx := List.forall_mem_cons.mpr ⟨hn x hx, ((he x hx).of_at? hax).1⟩
      have hny := List.forall_mem_cons.mpr ⟨hn y hy, ((he y hy).of_at? hay).1⟩
      exact (List.cons.inj (Path.below_injective hnx hny hp)).1

end Entry

namespace Files

open Entry

variable {fs : Files} {ignored : Path → Bool} {p found : Path} {arguments : List Path}

-- The file is at or below a path that is an argument.
def Gives (fs : Files) (ignored : Path → Bool) (found p : Path) : Prop :=
  ∃ e, fs.Leads p e ∧ Offers ignored p e found

open Classical in
-- The files are in the order of their paths (1). Each is there once for each argument that gives
-- it, and nothing else is (2), and its path leads to it (3).
structure Collects (fs : Files) (ignored : Path → Bool) (arguments files : List Path) : Prop where
  sorted : files.Pairwise (·.le ·)                                              -- (1)
  counts : ∀ found,                                                             -- (2)
    files.count found = arguments.countP fun p => Gives fs ignored found p
  placed : ∀ found ∈ files, ∃ text?, fs.Leads found (.file text?)               -- (3)

theorem given_eq (fs : Files) (ignored : Path → Bool) (p : Path) :
    fs.given ignored p = (fs.find? p).elim [] (sources ignored p) := by
  unfold given
  cases fs.find? p
  case none   => rfl
  case some e =>
    cases e
    case file      =>
      rw [Option.elim_some, sources]
      cases ignored p <;> cases Dialect.ofPath? p <;> rfl
    case directory => exact gather_eq_sources ..

theorem Leads.wellNamed (hp : fs.Leads p e) (h : fs.root.WellNamed) : e.WellNamed :=
  have ⟨_, ha, _⟩ := hp.moves
  (h.of_at? ha).2

theorem mem_given_iff (h : fs.root.WellNamed) :
    found ∈ fs.given ignored p ↔ Gives fs ignored found p := by
  rw [given_eq, Gives]
  cases hp : fs.find? p
  case none   => simp [← find?_eq_some_iff, hp]
  case some e =>
    have hp := find?_eq_some_iff.mp hp
    rw [Option.elim_some, mem_sources_iff (hp.wellNamed h)]
    exact ⟨fun ho => ⟨e, hp, ho⟩, fun ⟨_, hp', ho⟩ => hp.unique hp' ▸ ho⟩

theorem nodup_given (h : fs.root.WellNamed) : (fs.given ignored p).Nodup := by
  rw [given_eq]
  cases hp : fs.find? p
  case none   => exact .nil
  case some e => exact nodup_sources ((find?_eq_some_iff.mp hp).wellNamed h)

theorem Gives.leads (h : fs.root.WellNamed) (hg : Gives fs ignored found p) :
    ∃ text?, fs.Leads found (.file text?) := by
  obtain ⟨e, hp, names, text?, ha, rfl, _⟩ := hg
  exact ⟨text?, hp.below ((hp.wellNamed h).of_at? ha).1 ha⟩

theorem pairwise_discover (fs : Files) (ignored : Path → Bool) (arguments : List Path) :
    (fs.discover ignored arguments).Pairwise (·.le ·) := by
  unfold discover
  apply List.pairwise_mergeSort
  case trans => exact fun _ _ _ => Path.le_trans
  case total => exact fun p q => (Bool.or_eq_true _ _).mpr (Path.le_total p q)

theorem discover_perm (fs : Files) (ignored : Path → Bool) (arguments : List Path) :
    (fs.discover ignored arguments).Perm (arguments.flatMap (fs.given ignored)) :=
  List.mergeSort_perm ..

open Classical in
theorem count_given (h : fs.root.WellNamed) (arguments : List Path) :
    (arguments.flatMap (fs.given ignored)).count found =
      arguments.countP fun p => Gives fs ignored found p := by
  induction arguments
  case nil            => rfl
  case cons p rest ih =>
    rw [List.flatMap_cons, List.count_append, ih, (nodup_given h).count, List.countP_cons,
      Nat.add_comm]
    simp only [mem_given_iff h, decide_eq_true_eq]

theorem collects_discover (h : fs.root.WellNamed) (ignored : Path → Bool) (arguments : List Path) :
    Collects fs ignored arguments (fs.discover ignored arguments) where
  sorted          := pairwise_discover ..
  counts found    := by rw [(discover_perm fs ignored arguments).count_eq, count_given h]
  placed found hf := by
    have ⟨_, _, hg⟩ := List.mem_flatMap.mp ((discover_perm fs ignored arguments).mem_iff.mp hf)
    exact ((mem_given_iff h).mp hg).leads h

-- The order of the arguments makes no difference, but for paths with the same steps.
theorem discover_collects (h : fs.root.WellNamed) (ignored : Path → Bool) (arguments : List Path) :
    Collects fs ignored arguments (fs.discover ignored arguments) ∧
    ∀ arguments', arguments.Perm arguments' →
      (fs.discover ignored arguments).Perm (fs.discover ignored arguments') ∧
      (fs.discover ignored arguments).map Path.components =
        (fs.discover ignored arguments').map Path.components := by
  refine ⟨collects_discover h ignored arguments, fun arguments' ha => ?_⟩
  have hp := discover_perm fs ignored
  have hperm := (hp arguments).trans ((ha.flatMap_right _).trans (hp arguments').symm)
  have hsorted (arguments : List Path) :
      ((fs.discover ignored arguments).map Path.components).Pairwise (Path.componentsLe · ·) :=
    List.pairwise_map.mpr (pairwise_discover ..)
  refine ⟨hperm, List.Perm.eq_of_pairwise ?_ (hsorted _) (hsorted _) (hperm.map _)⟩
  exact fun _ _ _ _ => Path.componentsLe_antisymm

-- /home/a.js
-- /home/src/b.ts
-- /home/src/notes.txt
-- /home/src/vendor/c.js
def withVendor : Files where
  working := ["home"]
  root    := .directory [
    ("home", .directory [
      ("a.js", .file none),
      ("src", .directory [
        ("b.ts", .file none),
        ("notes.txt", .file none),
        ("vendor", .directory [("c.js", .file none)])])])]

theorem wellNamed_withVendor : withVendor.root.WellNamed := by
  refine .directory (by decide) (by decide +kernel) (List.forall_mem_singleton.mpr ?_)
  refine .directory (by decide) (by decide +kernel) ?_
  refine List.forall_mem_cons.mpr ⟨.file, List.forall_mem_singleton.mpr ?_⟩
  refine .directory (by decide) (by decide +kernel) ?_
  refine List.forall_mem_cons.mpr ⟨.file, List.forall_mem_cons.mpr ⟨.file, ?_⟩⟩
  refine List.forall_mem_singleton.mpr (.directory (by decide) (by decide +kernel) ?_)
  exact List.forall_mem_singleton.mpr .file

-- Three arguments lead to one directory, and one of them is spelled as what is ignored below it.
theorem discover_collects_withVendor :
    let ignored (p : Path) : Bool := p.text = "src/vendor"
    let arguments : List Path := [⟨"/home/src"⟩, ⟨"./src"⟩, ⟨"../../home/a.js"⟩, ⟨"src"⟩]
    let files : List Path :=
      [⟨"/home/src/b.ts"⟩, ⟨"/home/src/vendor/c.js"⟩, ⟨"./src/b.ts"⟩, ⟨"./src/vendor/c.js"⟩,
        ⟨"../../home/a.js"⟩, ⟨"src/b.ts"⟩]
    withVendor.root.WellNamed ∧
    withVendor.discover ignored arguments = files ∧
    Collects withVendor ignored arguments files ∧
    arguments.Perm arguments.reverse ∧
    (withVendor.discover ignored arguments.reverse).map Path.components =
      files.map Path.components := by
  intro ignored arguments files
  have ⟨hc, h⟩ := discover_collects wellNamed_withVendor ignored arguments
  have hp : arguments.Perm arguments.reverse := (List.reverse_perm _).symm
  have hg : arguments.flatMap (withVendor.given ignored) = files := by decide +kernel
  have hf : withVendor.discover ignored arguments = files :=
    hg ▸ List.mergeSort_of_pairwise (by decide +kernel)
  exact ⟨wellNamed_withVendor, hf, hf ▸ hc, hp, hf ▸ (h _ hp).2.symm⟩

end Files
end Command
end RoutineFlow
