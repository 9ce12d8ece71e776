/-
Addresses and their paths.

The segments of a path are what stands between its slashes.  Names have no
slashes, so that the segments of the path of an address are the ones it was put
together from, and a path names one address at most: the one whose path it is.

* `Address.segments_eq_splitOn` — the segments of a path;
* `Address.place?_eq_some_iff` — the place that segments name;
* `Address.ofPath?_eq_some_iff` — the address that a path names.
-/
import StoryPack.Entry.Address

namespace StoryPack

/-- What stands between the slashes of the path of a place, without the ending. -/
def Place.segments : Place → List (List Char)
  | .pack => [['p', 'a', 'c', 'k']]
  | .phase p => [['p', 'h', 'a', 's', 'e', 's'], p.toList]
  | .stage p s => [['p', 'h', 'a', 's', 'e', 's'], p.toList, s.toList]
  | .action who p s a =>
    [['p', 'h', 'a', 's', 'e', 's'], p.toList, s.toList, who.directory.toList, a.toList]

namespace Address

/-- All names of an address are well made. -/
def Named (a : Address) : Prop := ∀ n ∈ a.names, isName n.toList = true

variable {cs stem : List Char} {segs : List (List Char)} {place : Place} {a : Address} {p : String}

theorem isName_iff : isName cs = true ↔ cs ≠ [] ∧ ∀ c ∈ cs, isNameChar c = true := by
  simp [isName]

theorem slash_not_mem (h : isName cs = true) : '/' ∉ cs := fun hmem =>
  absurd ((isName_iff.mp h).2 '/' hmem) (by decide)

/-! ### The parts of a path -/

theorem segments_eq_splitOn (cs : List Char) : segments cs = cs.splitOn '/' := by
  induction cs with
  | nil => rfl
  | cons c rest ih =>
    rw [segments, List.splitOn_cons_eq_if_modifyHead, ih]
    cases hsplit : rest.splitOn '/' with
    | nil => exact absurd hsplit (List.splitOn_ne_nil _ _)
    | cons first others => simp

theorem stem?_eq_some_iff : stem? cs = some stem ↔ cs = stem ++ ['.', 'l', 'u', 'a'] := by
  simp only [stem?]
  constructor
  · intro h
    split at h
    · rename_i hdrop
      cases h
      rw [← hdrop, List.take_append_drop]
    · cases h
  · rintro rfl
    simp

theorem author?_eq_some_iff {who : Author} :
    author? cs = some who ↔ cs = who.directory.toList := by
  have hnpc : Author.npc.directory.toList = ['n', 'p', 'c'] := rfl
  have hplayer : Author.player.directory.toList = ['p', 'l', 'a', 'y', 'e', 'r'] := rfl
  unfold author?
  cases who <;> grind

theorem slash_not_mem_segments (h : (script place).Named) : ∀ cs ∈ place.segments, '/' ∉ cs := by
  have hnames (n : String) (hn : n ∈ (script place).names) : '/' ∉ n.toList :=
    slash_not_mem (h n hn)
  rcases place with _ | _ | _ | ⟨_ | _, _, _, _⟩ <;>
    simp_all [Place.segments, names, Author.directory]

theorem place?_segments (h : (script place).Named) : place? place.segments = some place := by
  cases place with
  | pack => rfl
  | action who p s a =>
    have hwho : author? who.directory.toList = some who := author?_eq_some_iff.mpr rfl
    simp_all [Place.segments, place?, Named, names]
  | _ => simp_all [Place.segments, place?, Named, names]

theorem of_place? (h : place? segs = some place) :
    (script place).Named ∧ segs = place.segments := by
  fun_cases place? segs with
  | case1 =>
    cases h
    exact ⟨fun n hn => (List.not_mem_nil hn).elim, rfl⟩
  | case3 p hp =>
    rw [place?, if_pos rfl, if_pos hp] at h
    cases h
    simp_all [Named, names, Place.segments]
  | case5 p s hps =>
    rw [place?, if_pos rfl, if_pos hps] at h
    cases h
    simp_all [Named, names, Place.segments]
  | case7 p s who a author hwho hpsa =>
    rw [place?, if_pos rfl, hwho] at h
    obtain rfl := Option.some.inj ((if_pos hpsa).symm.trans h)
    rw [author?_eq_some_iff] at hwho
    simp_all [Named, names, Place.segments]
  | _ => simp_all [place?]

/-- Segments name a place when they are those of its path, and its names are well made. -/
theorem place?_eq_some_iff :
    place? segs = some place ↔ (script place).Named ∧ segs = place.segments :=
  ⟨of_place?, fun ⟨hnamed, hsegs⟩ => hsegs ▸ place?_segments hnamed⟩

theorem toList_path (place : Place) :
    (script place).path.toList = ['/'].intercalate place.segments ++ ['.', 'l', 'u', 'a'] := by
  cases place <;>
    simp [path, Place.segments, List.intercalate_cons_cons, List.intercalate_singleton]

theorem segments_eq_iff (h : (script place).Named) :
    segments stem = place.segments ↔ stem = ['/'].intercalate place.segments := by
  rw [segments_eq_splitOn]
  constructor
  · intro hsplit
    rw [← hsplit, List.intercalate_splitOn]
  · rintro rfl
    have hne : place.segments ≠ [] := by cases place <;> simp [Place.segments]
    exact List.splitOn_intercalate '/' (slash_not_mem_segments h) hne

/-! ### Paths -/

theorem ofPath?_of_ne_options (h : p ≠ "options.json") :
    ofPath? p = (stem? p.toList).bind fun stem => (place? (segments stem)).map .script := by
  rw [ofPath?, if_neg h]
  cases stem? p.toList <;> rfl

theorem ofPath?_eq_options_iff : ofPath? p = some .options ↔ p = "options.json" := by
  by_cases hp : p = "options.json"
  · rw [hp]
    exact iff_of_true rfl rfl
  · refine iff_of_false (fun h => ?_) hp
    rw [ofPath?_of_ne_options hp] at h
    obtain ⟨_, -, hscript⟩ := Option.bind_eq_some_iff.mp h
    obtain ⟨_, -, heq⟩ := Option.map_eq_some_iff.mp hscript
    cases heq

theorem ofPath?_path (h : (script place).Named) :
    ofPath? (script place).path = some (script place) := by
  -- the ending tells the path of a script from that of the options
  have hoptions : (script place).path ≠ "options.json" := fun heq => by
    have hlast := congrArg (fun p => p.toList.getLast?) heq
    simp [toList_path] at hlast
  rw [ofPath?_of_ne_options hoptions, stem?_eq_some_iff.mpr (toList_path place), Option.bind_some,
    (segments_eq_iff h).mpr rfl, place?_eq_some_iff.mpr ⟨h, rfl⟩, Option.map_some]

theorem of_ofPath? (h : ofPath? p = some (script place)) :
    (script place).Named ∧ (script place).path = p := by
  have hoptions : p ≠ "options.json" := fun heq => by
    rw [ofPath?_eq_options_iff.mpr heq] at h
    cases h
  rw [ofPath?_of_ne_options hoptions] at h
  obtain ⟨stem, hstem, hscript⟩ := Option.bind_eq_some_iff.mp h
  obtain ⟨_, hplace, heq⟩ := Option.map_eq_some_iff.mp hscript
  cases heq
  obtain ⟨hnamed, hsegs⟩ := place?_eq_some_iff.mp hplace
  refine ⟨hnamed, String.toList_inj.mp ?_⟩
  rw [toList_path, stem?_eq_some_iff.mp hstem, (segments_eq_iff hnamed).mp hsegs]

/-- A path names an address when the names of the address are well made and the path is its path. -/
theorem ofPath?_eq_some_iff : ofPath? p = some a ↔ a.Named ∧ a.path = p := by
  cases a with
  | options =>
    have hnamed : Address.options.Named := fun n hn => (List.not_mem_nil hn).elim
    rw [ofPath?_eq_options_iff, and_iff_right hnamed]
    exact eq_comm
  | script place => exact ⟨of_ofPath?, fun ⟨hnamed, hpath⟩ => hpath ▸ ofPath?_path hnamed⟩

/-- Addresses with one path are the same, when their names are well made. -/
theorem path_inj {a b : Address} (ha : a.Named) (hb : b.Named) : a.path = b.path ↔ a = b := by
  refine ⟨fun h => Option.some.inj ?_, congrArg path⟩
  rw [← ofPath?_eq_some_iff.mpr ⟨ha, rfl⟩, ← ofPath?_eq_some_iff.mpr ⟨hb, rfl⟩, h]

end Address

end StoryPack
