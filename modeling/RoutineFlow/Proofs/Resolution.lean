import RoutineFlow.Command.Entry

-- What paths lead to. A place is given by the names that lead to it from the root, and each segment
-- of a path leads on from a place where there is a directory.

namespace RoutineFlow

namespace Path

variable {p : Path} {name : String} {names : List String} {c : Char} {cs ds : List Char}

-- The names that an entry of a directory may have.
def IsName (name : String) : Prop :=
  name.toList ∉ [[], ['.'], ['.', '.']] ∧ '/' ∉ name.toList

instance : Decidable (IsName name) :=
  inferInstanceAs (Decidable (_ ∧ _))

theorem IsName.toList_ne_nil (h : IsName name) : name.toList ≠ [] :=
  fun he => h.1 (he ▸ .head _)

-- The path to which names lead, one after the other.
def below (p : Path) (names : List String) : Path :=
  names.foldl join p

theorem segments_slash (cs : List Char) : segments ('/' :: cs) = [] :: segments cs :=
  rfl

theorem segments_cons (h : c ≠ '/') :
    segments (c :: cs) = (c :: (segments cs).headD []) :: (segments cs).tail :=
  if_neg h

theorem segments_ne_nil (cs : List Char) : segments cs ≠ [] := by
  cases cs
  case nil       => exact List.cons_ne_nil _ _
  case cons c cs =>
    by_cases h : c = '/'
    case pos => exact h ▸ List.cons_ne_nil _ _
    case neg => exact segments_cons h ▸ List.cons_ne_nil _ _

theorem segments_append_slash (cs ds : List Char) :
    segments (cs ++ '/' :: ds) = segments cs ++ segments ds := by
  induction cs
  case nil          => exact segments_slash ds
  case cons c cs ih =>
    rw [List.cons_append]
    by_cases h : c = '/'
    case pos => rw [h, segments_slash, segments_slash, ih, List.cons_append]
    case neg =>
      have ⟨_, _, hs⟩ := List.exists_cons_of_ne_nil (segments_ne_nil cs)
      simp [segments_cons h, ih, hs]

theorem segments_eq_singleton (h : '/' ∉ cs) : segments cs = [cs] := by
  induction cs
  case nil          => rfl
  case cons c cs ih =>
    have hc : c ≠ '/' := (List.ne_of_not_mem_cons h).symm
    rw [segments_cons hc, ih (List.not_mem_of_not_mem_cons h)]
    rfl

-- One name more is one segment more, in the place of an empty one at the end.
theorem segments_join (h : IsName name) :
    ∃ front, segments (p.join name).text.toList = front ++ [name.toList] ∧
      (segments p.text.toList = front ∨ segments p.text.toList = front ++ [[]]) := by
  have hn := segments_eq_singleton h.2
  unfold join
  split
  case isTrue hp  =>
    rw [String.toList_append]
    rw [Bool.or_eq_true, decide_eq_true_eq] at hp
    cases hp
    case inl hp =>
      rw [String.isEmpty_iff.mp hp]
      exact ⟨[], hn, .inr rfl⟩
    case inr hp =>
      have ⟨cs, hcs⟩ := List.getLast?_eq_some_iff.mp hp
      refine ⟨segments cs, ?_, .inr ?_⟩
      · rw [hcs, List.append_assoc, List.singleton_append, segments_append_slash, hn]
      · exact hcs ▸ segments_append_slash cs []
  case isFalse hp =>
    refine ⟨_, ?_, .inl rfl⟩
    rw [String.toList_append, String.toList_append, List.append_assoc]
    exact (segments_append_slash _ _).trans (congrArg _ hn)

theorem text_join_ne_empty (h : IsName name) : (p.join name).text ≠ "" := by
  have hn := mt String.toList_eq_nil_iff.mpr h.toList_ne_nil
  unfold join
  split
  all_goals exact fun he => hn (String.append_eq_empty_iff.mp he).2

theorem head?_join (h : p.text ≠ "") : (p.join name).text.toList.head? = p.text.toList.head? := by
  have ⟨c, cs, hc⟩ := List.exists_cons_of_ne_nil (mt String.toList_eq_nil_iff.mp h)
  unfold join
  split
  all_goals simp [String.toList_append, hc]

end Path

namespace Command

namespace Entry

-- What names lead to, one after the other.
def at? : List String → Entry → Option Entry
  | [],            e                 => some e
  | name :: names, directory entries => (entries.lookup name).bind (at? names)
  | _ :: _,        file _            => none

-- From a directory, nothing and a dot lead nowhere else, two dots lead one directory up, but never
-- above the root, and each other segment leads down.
inductive Step (place : List String) : List Char → List String → Prop
  | stay {segment : List Char} : segment ∈ [[], ['.']] → Step place segment place
  | up                         : Step place ['.', '.'] place.dropLast
  | down {segment : List Char} : segment ∉ [[], ['.'], ['.', '.']] →
    Step place segment (place ++ [.ofList segment])

-- Segments lead from place to place. What each of them starts from is a directory.
inductive Moves (root : Entry) : List String → List (List Char) → List String → Prop
  | done : Moves root place [] place
  | step {segment : List Char} : root.at? place = some (directory entries) →
    Step place segment place' → Moves root place' segments place'' →
    Moves root place (segment :: segments) place''

-- How a place is kept: what is there, with the directories above it, nearest first.
inductive Kept (root : Entry) : List String → List Entry → Entry → Prop
  | root : Kept root [] [] root
  | down : Kept root place above (directory entries) → entries.lookup name = some e →
    Kept root (place ++ [name]) (directory entries :: above) e

end Entry

open Entry

-- Where a path starts: at the root if it begins with a slash, else in the directory in which the
-- command is called.
def Files.start (fs : Files) (p : Path) : List String :=
  if p.text.toList.head? = some '/' then [] else fs.working

-- A path that is not empty leads to an entry.
structure Files.Leads (fs : Files) (p : Path) (e : Entry) : Prop where
  written : p.text ≠ ""
  moves   : ∃ place, fs.root.at? place = some e ∧
    Moves fs.root (fs.start p) (Path.segments p.text.toList) place

variable {fs : Files} {root here e e' : Entry} {entries : List (String × Entry)} {p : Path}
  {above : List Entry} {name : String} {names place place' place'' : List String}
  {segment : List Char} {segments segments' : List (List Char)}

namespace Entry

theorem at?_append (names names' : List String) (e : Entry) :
    e.at? (names ++ names') = (e.at? names).bind (at? names') := by
  induction names generalizing e
  case nil             => rfl
  case cons name _ ih  =>
    cases e
    case file      => rfl
    case directory =>
      rw [List.cons_append, at?, at?, Option.bind_assoc]
      exact congrArg _ (funext ih)

theorem at?_concat (h : root.at? place = some (directory entries)) (name : String) :
    root.at? (place ++ [name]) = entries.lookup name := by
  rw [at?_append, h]
  exact Option.bind_fun_some _

theorem Kept.at? (h : Kept root place above here) : root.at? place = some here := by
  induction h
  case root         => rfl
  case down _ hl ih => rw [at?_concat ih, hl]

theorem Moves.append (h : Moves root place segments place')
    (h' : Moves root place' segments' place'') :
    Moves root place (segments ++ segments') place'' := by
  induction h
  case done              => exact h'
  case step hd hs _ ih   => exact .step hd hs (ih h')

theorem Moves.of_append (h : Moves root place (segments ++ segments') place'') :
    ∃ place', Moves root place segments place' ∧ Moves root place' segments' place'' := by
  induction segments generalizing place
  case nil               => exact ⟨place, .done, h⟩
  case cons segment _ ih =>
    cases h
    case step hd hs h =>
      have ⟨_, hm, h⟩ := ih h
      exact ⟨_, .step hd hs hm, h⟩

-- A walk from where nothing is ends nowhere.
theorem Moves.isSome (h : Moves root place segments place') (he : root.at? place' = some e) :
    (root.at? place).isSome := by
  cases h
  case done      => exact he ▸ rfl
  case step hd _ _ => exact hd ▸ rfl

theorem moves_cons_iff (hd : root.at? place = some (directory entries)) :
    Moves root place (segment :: segments) place'' ↔
      ∃ place', Step place segment place' ∧ Moves root place' segments place'' where
  mp
    | .step _ hs h => ⟨_, hs, h⟩
  mpr
    | ⟨_, hs, h⟩ => .step hd hs h

-- There is one place to which a segment leads.
theorem Step.unique (h : Step place segment place') (h' : Step place segment place'') :
    place' = place'' := by
  cases h
  case stay hs =>
    cases h'
    case stay    => rfl
    case up      => simp at hs
    case down hn => exact absurd (List.mem_append_left [['.', '.']] hs) hn
  case up      =>
    cases h'
    case stay hs => simp at hs
    case up      => rfl
    case down hn => simp at hn
  case down hn =>
    cases h'
    case stay hs => exact absurd (List.mem_append_left [['.', '.']] hs) hn
    case up      => simp at hn
    case down    => rfl

theorem Step.iff_eq (h : Step place segment place') :
    Step place segment place'' ↔ place'' = place' :=
  ⟨fun h' => h'.unique h, fun he => he ▸ h⟩

theorem Kept.of_descend (h : Kept root place above here)
    (hd : descend above here names = some (above', here')) :
    Kept root (place ++ names) above' here' := by
  induction names generalizing place above here
  case nil               =>
    cases hd
    exact place.append_nil.symm ▸ h
  case cons name names ih =>
    cases here
    case file      => cases hd
    case directory =>
      have ⟨_, hl, hd⟩ := Option.bind_eq_some_iff.mp hd
      exact List.append_cons place name names ▸ ih (h.down hl) hd

theorem Kept.at?_of_descend (h : Kept root place above here)
    (hd : descend above here names = none) : root.at? (place ++ names) = none := by
  rw [at?_append, h.at?, Option.bind_some]
  clear h
  induction names generalizing above here
  case nil               => cases hd
  case cons name names ih =>
    cases here
    case file              => rfl
    case directory entries =>
      rw [descend] at hd
      rw [Entry.at?]
      cases hl : entries.lookup name
      case none   => rfl
      case some e => exact ih (hl ▸ hd)

theorem follow_eq_some_iff (h : Kept root place above here) :
    follow above here segments = some e ↔
      ∃ place', root.at? place' = some e ∧ Moves root place segments place' := by
  induction segments generalizing place above here
  case nil =>
    rw [follow]
    constructor
    case mp  => exact fun he => ⟨place, he ▸ h.at?, .done⟩
    case mpr =>
      rintro ⟨_, he, ⟨⟩⟩
      exact h.at?.symm.trans he
  case cons segment segments ih =>
    have hd := h.at?
    cases here
    case file =>
      refine iff_of_false nofun ?_
      rintro ⟨_, _, h⟩
      cases h
      case step hd' _ _ => cases hd.symm.trans hd'
    case directory entries =>
      simp only [follow, moves_cons_iff hd]
      split
      case isTrue hs =>
        have hs : segment ∈ [[], ['.']] := by simpa using hs
        simp only [ih h, (Step.stay hs).iff_eq, exists_eq_left]
      case isFalse hs =>
        split
        case isTrue hu =>
          simp only [hu, Step.up.iff_eq, exists_eq_left]
          cases h
          case root      => exact ih .root
          case down h hl => rw [List.dropLast_concat]; exact ih h
        case isFalse hu =>
          have hs : segment ∉ [[], ['.'], ['.', '.']] := by simpa [hu] using hs
          simp only [(Step.down hs).iff_eq, exists_eq_left]
          cases hl : entries.lookup (.ofList segment)
          case none       =>
            refine iff_of_false nofun ?_
            rintro ⟨_, he, hm⟩
            have := hm.isSome he
            rw [at?_concat hd, hl] at this
            cases this
          case some child => exact ih (h.down hl)

end Entry

namespace Files

theorem find?_eq_some_iff : fs.find? p = some e ↔ fs.Leads p e := by
  unfold find?
  by_cases hp : p.text = ""
  case pos =>
    refine iff_of_false ?_ fun h => h.written hp
    rw [if_pos (String.isEmpty_iff.mpr hp)]
    exact nofun
  case neg =>
    have hs : (if p.isAbsolute then [] else fs.working) = fs.start p := by
      simp [Path.isAbsolute, start]
    rw [if_neg (mt String.isEmpty_iff.mp hp), hs]
    cases hd : Entry.descend [] fs.root (fs.start p)
    case none       =>
      refine iff_of_false nofun fun h => ?_
      have ⟨_, he, hm⟩ := h.moves
      have hn : fs.root.at? (fs.start p) = none := Kept.root.at?_of_descend hd
      exact absurd (hm.isSome he) (hn ▸ Bool.false_ne_true)
    case some state =>
      have hk : Kept fs.root (fs.start p) state.1 state.2 := Kept.root.of_descend hd
      exact (follow_eq_some_iff hk).trans ⟨fun h => ⟨hp, h⟩, Leads.moves⟩

theorem Leads.unique (h : fs.Leads p e) (h' : fs.Leads p e') : e = e' :=
  Option.some.inj ((find?_eq_some_iff.mpr h).symm.trans (find?_eq_some_iff.mpr h'))

-- From a directory to which a path leads, the path with a name more leads to what has this name.
theorem Leads.join (h : fs.Leads p (.directory entries)) (hn : Path.IsName name)
    (hl : entries.lookup name = some e) : fs.Leads (p.join name) e := by
  have ⟨place, hd, hm⟩ := h.moves
  have ⟨front, hs, hf⟩ := Path.segments_join (p := p) hn
  have hstart : fs.start (p.join name) = fs.start p := by
    rw [start, start, Path.head?_join h.written]
  have hname : Step place name.toList (place ++ [.ofList name.toList]) := .down hn.1
  rw [String.ofList_toList] at hname
  refine ⟨Path.text_join_ne_empty hn, place ++ [name], at?_concat hd name ▸ hl, ?_⟩
  rw [hstart, hs]
  have hfront : Moves fs.root (fs.start p) front place := by
    cases hf
    case inl hf => exact hf ▸ hm
    case inr hf =>
      -- Nothing at the end of a path leads nowhere else.
      have ⟨_, hm, h⟩ := (hf ▸ hm).of_append
      cases h
      case step hs h =>
        cases h
        exact hs.unique (.stay (.head _)) ▸ hm
  exact hfront.append (.step hd hname .done)

theorem Leads.below (h : fs.Leads p e) (hn : ∀ name ∈ names, Path.IsName name)
    (ha : e.at? names = some e') : fs.Leads (p.below names) e' := by
  induction names generalizing p e
  case nil            => cases ha; exact h
  case cons name _ ih =>
    have ⟨hname, hn⟩ := List.forall_mem_cons.mp hn
    cases e
    case file      => cases ha
    case directory =>
      have ⟨_, hl, ha⟩ := Option.bind_eq_some_iff.mp ha
      exact ih (h.join hname hl) hn ha

end Files
end Command
end RoutineFlow
