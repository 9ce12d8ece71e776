/-
The grammar of paths.

Each kind of entry has a pattern, a regular expression in which the names stand as
groups of letters, digits and underscores.  The classifier cuts a path at its slashes
and does not try the patterns one by one; but it accepts what they match, and what
stands in the groups are the names it finds.  No path matches two patterns, so it does
not matter in which order they are tried.

* `Address.classify` — the kind and the names that a path announces;
* `Address.Kind.render` — the path of a kind and its names;
* `Address.mem_regex` — what a pattern matches;
* `Address.kind_unique` — no path matches two patterns;
* `Address.classify_exact` — the classifier accepts what the patterns match, and no more.
-/
import StoryPack.Proofs.Entry.Address
import Mathlib.Computability.RegularExpressions

namespace StoryPack.Address

open RegularExpression (char)

/-- The kind and the names that a path announces, if it is the path of an entry. -/
def classify (p : String) : Option (Kind × List String) :=
  (ofPath? p).map fun a => (a.kind, a.names)

/-! ### Patterns -/

/-- A part of a pattern: a fixed text, or a group for a name. -/
inductive Piece where
  | text (s : String)
  | name

/-- The pattern of a kind. -/
def Kind.pattern : Kind → List Piece
  | .packOptions => [.text "options.json"]
  | .packData => [.text "pack.lua"]
  | .phaseData => [.text "phases/", .name, .text ".lua"]
  | .stageData => [.text "phases/", .name, .text "/", .name, .text ".lua"]
  | .npcAction =>
    [.text "phases/", .name, .text "/", .name, .text "/npc/", .name, .text ".lua"]
  | .playerAction =>
    [.text "phases/", .name, .text "/", .name, .text "/player/", .name, .text ".lua"]

/-- The expression for one of some characters. -/
def anyOf (cs : List Char) : RegularExpression Char := (cs.map char).sum

/-- The expression for a text. -/
def literally (cs : List Char) : RegularExpression Char := (cs.map char).prod

/-- The characters of names. -/
def nameChars : List Char :=
  "ABCDEFGHIJKLMNOPQRSTUVWXYZabcdefghijklmnopqrstuvwxyz0123456789_".toList

/-- The expression for a part of a pattern. A name has one character at least. -/
def Piece.regex : Piece → RegularExpression Char
  | .text s => literally s.toList
  | .name => anyOf nameChars * (anyOf nameChars).star

/-- The expression for a kind: its pattern, from the beginning of a path to its end. -/
def Kind.regex (k : Kind) : RegularExpression Char := (k.pattern.map Piece.regex).prod

/-- Puts names into the groups of a pattern. -/
def fill : List Piece → List String → String
  | [], _ => ""
  | .text s :: rest, ns => s ++ fill rest ns
  | .name :: rest, n :: ns => n ++ fill rest ns
  | .name :: rest, [] => fill rest []

/-- How many names a pattern has groups for. -/
def groups : List Piece → Nat
  | [] => 0
  | .text _ :: rest => groups rest
  | .name :: rest => groups rest + 1

/-- How many names a kind has. -/
def Kind.arity (k : Kind) : Nat := groups k.pattern

/-- The path of a kind and its names. -/
def Kind.render (k : Kind) (ns : List String) : String := fill k.pattern ns

variable {cs x : List Char} {p : String} {k k' : Kind} {ns : List String}

/-! ### What the expressions match -/

theorem mem_char {c : Char} : x ∈ (char c).matches' ↔ x = [c] := Set.mem_singleton_iff

theorem mem_anyOf : x ∈ (anyOf cs).matches' ↔ ∃ c ∈ cs, x = [c] := by
  induction cs with
  | nil => simp [anyOf]
  | cons c rest ih =>
    rw [anyOf, List.map_cons, List.sum_cons, RegularExpression.matches'_add, Language.mem_add,
      ← anyOf, ih, mem_char]
    simp

theorem mem_mul {P Q : RegularExpression Char} :
    x ∈ (P * Q).matches' ↔ ∃ y ∈ P.matches', ∃ z ∈ Q.matches', y ++ z = x := by
  rw [RegularExpression.matches'_mul, Language.mem_mul]

theorem mem_literally : x ∈ (literally cs).matches' ↔ x = cs := by
  induction cs generalizing x with
  | nil => exact Language.mem_one x
  | cons c rest ih =>
    rw [literally, List.map_cons, List.prod_cons, mem_mul, ← literally]
    constructor
    · rintro ⟨y, hy, z, hz, rfl⟩
      rw [mem_char.mp hy, ih.mp hz, List.singleton_append]
    · rintro rfl
      exact ⟨[c], mem_char.mpr rfl, rest, ih.mpr rfl, rfl⟩

theorem mem_star_anyOf : x ∈ (anyOf cs).star.matches' ↔ ∀ c ∈ x, c ∈ cs := by
  rw [RegularExpression.matches'_star, Language.mem_kstar]
  constructor
  · rintro ⟨parts, rfl, hparts⟩ c hc
    obtain ⟨part, hpart, hcpart⟩ := List.mem_flatten.mp hc
    obtain ⟨d, hd, rfl⟩ := mem_anyOf.mp (hparts part hpart)
    rwa [List.mem_singleton.mp hcpart]
  · intro h
    refine ⟨x.map fun c => [c], ?_, fun part hpart => ?_⟩
    · rw [← List.flatMap_def, List.flatMap_singleton']
    · obtain ⟨c, hc, rfl⟩ := List.mem_map.mp hpart
      exact mem_anyOf.mpr ⟨c, h c hc, rfl⟩

theorem toNat_of_isNameChar {c : Char} (h : isNameChar c = true) : c.toNat < 128 := by
  have hkinds : (((c.isUpper || c.isLower) || c.isDigit) || c == '_') = true := h
  simp only [Bool.or_eq_true, beq_iff_eq] at hkinds
  rcases hkinds with ((hupper | hlower) | hdigit) | rfl
  · have hrange : 'A'.val ≤ c.val ∧ c.val ≤ 'Z'.val := of_decide_eq_true hupper
    exact Nat.lt_of_le_of_lt (UInt32.le_iff_toNat_le.mp hrange.2) (by decide)
  · have hrange : decide ('a'.val ≤ c.val) = true ∧ decide (c.val ≤ 'z'.val) = true :=
      (Bool.and_eq_true ..).mp hlower
    exact Nat.lt_of_le_of_lt (UInt32.le_iff_toNat_le.mp (of_decide_eq_true hrange.2)) (by decide)
  · exact Nat.lt_of_le_of_lt (Char.isDigit_iff_toNat.mp hdigit).2 (by decide)
  · decide

theorem mem_nameChars {c : Char} : c ∈ nameChars ↔ isNameChar c = true := by
  constructor
  · intro h
    have hall : nameChars.all isNameChar = true := by decide +kernel
    exact List.all_eq_true.mp hall c h
  · intro h
    have hall : ∀ n < 128, isNameChar (Char.ofNat n) = true → Char.ofNat n ∈ nameChars := by
      decide +kernel
    have hc := hall c.toNat (toNat_of_isNameChar h)
    rw [Char.ofNat_toNat] at hc
    exact hc h

theorem mem_name : x ∈ (Piece.regex .name).matches' ↔ isName x = true := by
  rw [Piece.regex, mem_mul, isName_iff]
  constructor
  · rintro ⟨y, hy, z, hz, rfl⟩
    obtain ⟨c, hc, rfl⟩ := mem_anyOf.mp hy
    refine ⟨List.cons_ne_nil c z, List.forall_mem_cons.mpr ⟨mem_nameChars.mp hc, fun d hd => ?_⟩⟩
    exact mem_nameChars.mp (mem_star_anyOf.mp hz d hd)
  · rintro ⟨hne, hchars⟩
    obtain ⟨c, rest, rfl⟩ := List.exists_cons_of_ne_nil hne
    obtain ⟨hc, hrest⟩ := List.forall_mem_cons.mp hchars
    exact ⟨[c], mem_anyOf.mpr ⟨c, mem_nameChars.mpr hc, rfl⟩, rest,
      mem_star_anyOf.mpr fun d hd => mem_nameChars.mpr (hrest d hd), rfl⟩

/-- A pattern matches what comes of putting names into its groups. -/
theorem mem_pattern {ps : List Piece} : x ∈ (ps.map Piece.regex).prod.matches' ↔
    ∃ ns : List String, ns.length = groups ps ∧ (∀ n ∈ ns, isName n.toList = true) ∧
      x = (fill ps ns).toList := by
  -- a text takes up its own characters, and a group takes up the first of the names
  induction ps generalizing x with
  | nil =>
    have hnil : x ∈ (1 : RegularExpression Char).matches' ↔ x = [] := Language.mem_one x
    rw [List.map_nil, List.prod_nil, hnil]
    simp [groups, fill]
  | cons piece rest ih =>
    rw [List.map_cons, List.prod_cons, mem_mul]
    cases piece with
    | text s =>
      simp only [ih, Piece.regex, mem_literally, groups, fill, String.toList_append]
      constructor
      · rintro ⟨y, rfl, z, ⟨ns, hlength, hnames, rfl⟩, rfl⟩
        exact ⟨ns, hlength, hnames, rfl⟩
      · rintro ⟨ns, hlength, hnames, rfl⟩
        exact ⟨_, rfl, _, ⟨ns, hlength, hnames, rfl⟩, rfl⟩
    | name =>
      simp only [ih, mem_name, groups]
      constructor
      · rintro ⟨y, hy, z, ⟨ns, hlength, hnames, rfl⟩, rfl⟩
        refine ⟨String.ofList y :: ns, congrArg (· + 1) hlength, ?_, ?_⟩
        · exact List.forall_mem_cons.mpr ⟨by rwa [String.toList_ofList], hnames⟩
        · rw [fill, String.toList_append, String.toList_ofList]
      · rintro ⟨ns, hlength, hnames, rfl⟩
        cases ns with
        | nil => cases hlength
        | cons n ns =>
          obtain ⟨hn, hns⟩ := List.forall_mem_cons.mp hnames
          refine ⟨n.toList, hn, _, ⟨ns, Nat.succ.inj hlength, hns, rfl⟩, ?_⟩
          rw [fill, String.toList_append]

/-! ### The classifier -/

/-- A kind can have these names: as many as its pattern has groups, and well made. -/
structure Kind.Fits (k : Kind) (ns : List String) : Prop where
  length_eq : ns.length = k.arity
  named : ∀ n ∈ ns, isName n.toList = true

theorem mem_regex : x ∈ k.regex.matches' ↔ ∃ ns, k.Fits ns ∧ x = (k.render ns).toList := by
  rw [Kind.regex, mem_pattern]
  constructor
  · rintro ⟨ns, hlength, hnamed, rfl⟩
    exact ⟨ns, ⟨hlength, hnamed⟩, rfl⟩
  · rintro ⟨ns, hfits, rfl⟩
    exact ⟨ns, hfits.length_eq, hfits.named, rfl⟩

theorem render_names (a : Address) : a.kind.render a.names = a.path := by
  rcases a with _ | ⟨_ | _ | _ | ⟨_ | _, _, _, _⟩⟩ <;>
    simp [kind, names, path, Kind.render, Kind.pattern, fill, Author.directory, String.append_assoc]

theorem length_names (a : Address) : a.names.length = a.kind.arity := by
  rcases a with _ | ⟨_ | _ | _ | ⟨_ | _, _, _, _⟩⟩ <;> rfl

theorem exists_of_length (h : ns.length = k.arity) : ∃ a : Address, a.kind = k ∧ a.names = ns := by
  cases k with
  | packOptions => exact ⟨.options, rfl, (List.length_eq_zero_iff.mp h).symm⟩
  | packData => exact ⟨.script .pack, rfl, (List.length_eq_zero_iff.mp h).symm⟩
  | phaseData =>
    obtain ⟨p, rfl⟩ := List.length_eq_one_iff.mp h
    exact ⟨.script (.phase p), rfl, rfl⟩
  | stageData =>
    obtain ⟨p, s, rfl⟩ := List.length_eq_two.mp h
    exact ⟨.script (.stage p s), rfl, rfl⟩
  | npcAction =>
    obtain ⟨p, s, a, rfl⟩ := List.length_eq_three.mp h
    exact ⟨.script (.action .npc p s a), rfl, rfl⟩
  | playerAction =>
    obtain ⟨p, s, a, rfl⟩ := List.length_eq_three.mp h
    exact ⟨.script (.action .player p s a), rfl, rfl⟩

theorem classify_eq_some_iff :
    classify p = some (k, ns) ↔ k.Fits ns ∧ k.render ns = p := by
  constructor
  · intro h
    obtain ⟨a, ha, heq⟩ := Option.map_eq_some_iff.mp h
    cases heq
    obtain ⟨hnamed, hpath⟩ := ofPath?_eq_some_iff.mp ha
    exact ⟨⟨length_names a, hnamed⟩, (render_names a).trans hpath⟩
  · rintro ⟨hfits, rfl⟩
    obtain ⟨a, rfl, rfl⟩ := exists_of_length hfits.length_eq
    have ha : ofPath? a.path = some a := ofPath?_eq_some_iff.mpr ⟨hfits.named, rfl⟩
    rw [classify, render_names, ha, Option.map_some]

theorem mem_regex_iff_classify : p.toList ∈ k.regex.matches' ↔ ∃ ns, classify p = some (k, ns) := by
  rw [mem_regex]
  refine exists_congr fun ns => ?_
  rw [classify_eq_some_iff, String.toList_inj, eq_comm (a := p)]

/-- No path matches the patterns of two kinds. -/
theorem kind_unique (h : p.toList ∈ k.regex.matches') (h' : p.toList ∈ k'.regex.matches') :
    k = k' := by
  obtain ⟨ns, hclassify⟩ := mem_regex_iff_classify.mp h
  obtain ⟨ns', hclassify'⟩ := mem_regex_iff_classify.mp h'
  rw [hclassify] at hclassify'
  exact congrArg Prod.fst (Option.some.inj hclassify')

/-- Whatever the order in which patterns are tried, the first that matches is that of the kind. -/
theorem find?_regex {order : List Kind} (hall : ∀ k, k ∈ order) (p : String) :
    order.find? (fun k => k.regex.rmatch p.toList) = (classify p).map (·.1) := by
  have hmatch (k : Kind) : k.regex.rmatch p.toList = true ↔ ∃ ns, classify p = some (k, ns) :=
    (RegularExpression.rmatch_iff_matches' _ _).trans mem_regex_iff_classify
  cases hfirst : order.find? fun k => k.regex.rmatch p.toList with
  | some k =>
    have hk : k.regex.rmatch p.toList = true := by
      simpa using List.find?_some hfirst
    obtain ⟨ns, hclassify⟩ := (hmatch k).mp hk
    rw [hclassify, Option.map_some]
  | none =>
    cases hclassify : classify p with
    | none => rfl
    | some found =>
      have hno := List.find?_eq_none.mp hfirst found.1 (hall found.1)
      exact absurd ((hmatch found.1).mpr ⟨found.2, hclassify⟩) hno

/-- The classifier accepts the paths of all kinds with well-made names, and no others; it finds the
kind and the names that the path was put together from.  The kinds are those whose patterns match.
No two patterns match one path, so that the first that matches is the same in every order. -/
theorem classify_exact :
    (∀ (p : String) (k : Kind) (ns : List String),
      classify p = some (k, ns) ↔ k.Fits ns ∧ k.render ns = p) ∧
    (∀ p, classify p = none ↔ ∀ (k : Kind) (ns : List String), k.Fits ns → k.render ns ≠ p) ∧
    (∀ (p : String) (k : Kind),
      p.toList ∈ k.regex.matches' ↔ ∃ ns, classify p = some (k, ns)) ∧
    (∀ (p : String) (k k' : Kind),
      p.toList ∈ k.regex.matches' → p.toList ∈ k'.regex.matches' → k = k') ∧
    (∀ (order : List Kind) (p : String), (∀ k, k ∈ order) →
      order.find? (fun k => k.regex.rmatch p.toList) = (classify p).map (·.1)) ∧
    (∀ (p : String) (k : Kind) (ns : List String),
      classify p = some (k, ns) → k.render ns = p) ∧
    ∀ (k : Kind) (ns : List String), k.Fits ns → classify (k.render ns) = some (k, ns) := by
  refine ⟨fun p k ns => classify_eq_some_iff, fun p => ?_, fun p k => mem_regex_iff_classify,
    fun p k k' => kind_unique, fun order p hall => find?_regex hall p,
    fun p k ns h => (classify_eq_some_iff.mp h).2,
    fun k ns h => classify_eq_some_iff.mpr ⟨h, rfl⟩⟩
  rw [Option.eq_none_iff_forall_ne_some]
  constructor
  · intro hnone k ns hfits hpath
    exact hnone (k, ns) (classify_eq_some_iff.mpr ⟨hfits, hpath⟩)
  · rintro hno ⟨k, ns⟩ hclassify
    obtain ⟨hfits, hpath⟩ := classify_eq_some_iff.mp hclassify
    exact hno k ns hfits hpath

/-- Names may be the words that paths are made of. -/
theorem classify_npc_player_pack : Kind.npcAction.Fits ["npc", "player", "pack"] ∧
    classify "phases/npc/player/npc/pack.lua" = some (.npcAction, ["npc", "player", "pack"]) := by
  have hfits : Kind.npcAction.Fits ["npc", "player", "pack"] := ⟨rfl, by decide⟩
  exact ⟨hfits, classify_exact.2.2.2.2.2.2 .npcAction _ hfits⟩

end StoryPack.Address
