/-
The paths that names stand for.

A name may have backslashes for slashes, and it may begin with `./`, more than once.
The slashes come first, so that the loop which takes away a leading `./` finds those
that were written `.\` as well.  Each pass makes the path shorter by two characters;
what is left in the end has neither, and therefore stands for itself.

* `Strips` — the loop, from its first pass to its end;
* `stripDots_eq_iff` — what it ends with, `Strips.prefix_iff` — all there is to take away;
* `normalize_eq_iff`, `normalize_eq_self_iff` — the path that a name stands for, and the
  names that stand for themselves;
* `normalize_canonical` — names that differ in slashes and in leading dots are one path.
-/
import StoryPack.Proofs.Archive.Member
import StoryPack.Proofs.Entry.Grammar

namespace StoryPack

/-- `./`, written `n` times. -/
def dots (n : Nat) : List Char := (List.replicate n ['.', '/']).flatten

/-- The loop that takes away a leading `./` as long as there is one. It ends after so many passes,
and with what is left. -/
inductive Strips : Nat → List Char → List Char → Prop
  | done {cs : List Char} (h : ¬dots 1 <+: cs) : Strips 0 cs cs
  | pass {n : Nat} {cs rest : List Char} (h : Strips n cs rest) :
    Strips (n + 1) ('.' :: '/' :: cs) rest

variable {cs rest : List Char} {m n : Nat} {p q : String}

/-! ### Dots -/

theorem dots_zero : dots 0 = [] := rfl

theorem dots_succ (n : Nat) : dots (n + 1) = '.' :: '/' :: dots n := rfl

theorem length_dots (n : Nat) : (dots n).length = 2 * n := by
  induction n with
  | zero => rfl
  | succ n ih =>
    rw [dots_succ, List.length_cons, List.length_cons, ih]
    omega

theorem dots_one_prefix_iff : dots 1 <+: cs ↔ ∃ rest, cs = '.' :: '/' :: rest :=
  exists_congr fun _ => eq_comm

theorem dots_succ_prefix_iff : dots (n + 1) <+: '.' :: '/' :: cs ↔ dots n <+: cs := by
  rw [dots_succ, List.cons_prefix_cons, List.cons_prefix_cons]
  simp only [true_and]

/-! ### The loop -/

theorem exists_strips (cs : List Char) : ∃ n, Strips n cs (stripDots cs) := by
  fun_induction stripDots cs with
  | case1 rest ih =>
    obtain ⟨n, hn⟩ := ih
    exact ⟨n + 1, .pass hn⟩
  | case2 cs hnone =>
    refine ⟨0, .done fun hdots => ?_⟩
    obtain ⟨rest, rfl⟩ := dots_one_prefix_iff.mp hdots
    exact hnone rest rfl

/-- The loop has taken away `./` once in each pass, and has left none. -/
theorem strips_iff : Strips n cs rest ↔ cs = dots n ++ rest ∧ ¬dots 1 <+: rest := by
  constructor
  · intro h
    induction h with
    | done hnone => exact ⟨rfl, hnone⟩
    | pass _ ih => exact ⟨congrArg (fun cs => '.' :: '/' :: cs) ih.1, ih.2⟩
  · rintro ⟨rfl, hnone⟩
    induction n with
    | zero => exact .done hnone
    | succ n ih => exact .pass ih

theorem Strips.length_le (h : Strips n cs rest) : 2 * n ≤ cs.length := by
  rw [(strips_iff.mp h).1, List.length_append, length_dots]
  exact Nat.le_add_right ..

/-- What has been taken away is the longest prefix of dots. -/
theorem Strips.prefix_iff (h : Strips n cs rest) : dots m <+: cs ↔ m ≤ n := by
  induction h generalizing m with
  | @done cs hnone =>
    cases m with
    | zero => exact iff_of_true List.nil_prefix (Nat.le_refl 0)
    | succ m =>
      refine iff_of_false (fun hdots => hnone ?_) (Nat.not_succ_le_zero m)
      exact List.IsPrefix.trans ⟨dots m, rfl⟩ hdots
  | pass _ ih =>
    cases m with
    | zero => exact iff_of_true List.nil_prefix (Nat.zero_le _)
    | succ m => rw [dots_succ_prefix_iff, ih, Nat.succ_le_succ_iff]

/-- Wherever the loop begins, it ends in one way. -/
theorem Strips.unique {rest' : List Char} (h : Strips n cs rest) (h' : Strips m cs rest') :
    rest = rest' := by
  have hpasses : n = m :=
    Nat.le_antisymm (h'.prefix_iff.mp (h.prefix_iff.mpr (Nat.le_refl n)))
      (h.prefix_iff.mp (h'.prefix_iff.mpr (Nat.le_refl m)))
  subst hpasses
  exact List.append_cancel_left ((strips_iff.mp h).1.symm.trans (strips_iff.mp h').1)

/-- Dots in front of a path take that many passes more. -/
theorem Strips.dots_append (h : Strips n cs rest) (m : Nat) :
    Strips (m + n) (dots m ++ cs) rest := by
  induction m with
  | zero => rwa [Nat.zero_add]
  | succ m ih =>
    rw [Nat.succ_add]
    exact .pass ih

theorem stripDots_eq_iff : stripDots cs = rest ↔ ∃ n, Strips n cs rest := by
  obtain ⟨m, hm⟩ := exists_strips cs
  constructor
  · rintro rfl
    exact ⟨m, hm⟩
  · rintro ⟨n, hn⟩
    exact hm.unique hn

/-! ### Slashes -/

theorem backslash_not_mem_slashes (p : String) : '\\' ∉ slashes p := by
  intro h
  obtain ⟨c, -, hc⟩ := List.mem_map.mp h
  split at hc
  · exact absurd hc (by decide)
  · exact absurd hc ‹_›

theorem slashes_eq_self (h : '\\' ∉ p.toList) : slashes p = p.toList := by
  refine (List.map_congr_left fun c hc => if_neg ?_).trans (List.map_id _)
  rintro rfl
  exact h hc

/-- Each `./` and each `.\` in front of a name is one pass of the loop. -/
theorem slashes_join_append {steps : List String} (h : ∀ s ∈ steps, s = "./" ∨ s = ".\\")
    (p : String) : slashes (String.join steps ++ p) = dots steps.length ++ slashes p := by
  have happend (s t : String) : slashes (s ++ t) = slashes s ++ slashes t := by
    rw [slashes, String.toList_append, List.map_append, slashes, slashes]
  induction steps with
  | nil => rw [happend, String.join_nil, List.length_nil, dots_zero]; rfl
  | cons s steps ih =>
    obtain ⟨hs, hsteps⟩ := List.forall_mem_cons.mp h
    have hstep : slashes s = ['.', '/'] := by
      rcases hs with rfl | rfl <;> decide
    rw [String.join_cons, String.append_assoc, happend, ih hsteps, hstep, List.length_cons,
      dots_succ]
    rfl

/-! ### Paths -/

/-- The path that a name stands for is what the loop leaves of it. -/
theorem normalize_eq_iff : normalize p = q ↔ ∃ n, Strips n (slashes p) q.toList := by
  rw [← String.toList_inj, toList_normalize, stripDots_eq_iff]

theorem exists_strips_normalize (p : String) : ∃ n, Strips n (slashes p) (normalize p).toList :=
  normalize_eq_iff.mp rfl

theorem backslash_not_mem_normalize (p : String) : '\\' ∉ (normalize p).toList := by
  obtain ⟨n, hn⟩ := exists_strips_normalize p
  intro h
  refine backslash_not_mem_slashes p ?_
  rw [(strips_iff.mp hn).1]
  exact List.mem_append_right _ h

theorem not_dots_prefix_normalize (p : String) : ¬dots 1 <+: (normalize p).toList :=
  (strips_iff.mp (exists_strips_normalize p).choose_spec).2

/-- What has no backslash and does not begin with `./` stands for itself. -/
theorem normalize_eq_self_iff :
    normalize p = p ↔ '\\' ∉ p.toList ∧ ¬dots 1 <+: p.toList := by
  constructor
  · intro h
    rw [← h]
    exact ⟨backslash_not_mem_normalize p, not_dots_prefix_normalize p⟩
  · rintro ⟨hslash, hdots⟩
    refine normalize_eq_iff.mpr ⟨0, ?_⟩
    rw [slashes_eq_self hslash]
    exact .done hdots

/-- Nothing in front of a name counts that is made of `./` and `.\`. -/
theorem normalize_join_append {steps : List String} (h : ∀ s ∈ steps, s = "./" ∨ s = ".\\")
    (p : String) : normalize (String.join steps ++ p) = normalize p := by
  obtain ⟨n, hn⟩ := exists_strips_normalize p
  refine normalize_eq_iff.mpr ⟨steps.length + n, ?_⟩
  rw [slashes_join_append h]
  exact hn.dots_append _

/-! ### Paths of entries -/

namespace Address

variable {a : Address}

theorem backslash_not_mem (h : isName cs = true) : '\\' ∉ cs := fun hmem =>
  absurd ((isName_iff.mp h).2 '\\' hmem) (by decide)

/-- The path of an entry has slashes only, and begins with a letter. -/
theorem normalize_path (h : a.Named) : normalize a.path = a.path := by
  have hnames (n : String) (hn : n ∈ a.names) : '\\' ∉ n.toList := backslash_not_mem (h n hn)
  rw [normalize_eq_self_iff]
  rcases a with _ | _ | _ | _ | ⟨_ | _, _, _, _⟩ <;>
    simp_all [path, names, Author.directory, dots]

theorem normalize_of_classify {k : Kind} {ns : List String} (h : classify p = some (k, ns)) :
    normalize p = p := by
  obtain ⟨a, ha, -⟩ := Option.map_eq_some_iff.mp h
  obtain ⟨hnamed, rfl⟩ := ofPath?_eq_some_iff.mp ha
  exact normalize_path hnamed

end Address

/-- The path that a name stands for is what the loop leaves of the name with slashes, after at most
half as many passes as it has characters.  It has no backslash, does not begin with `./`, and stands
for itself; all that is missing from the name is the longest prefix made of `./`.  So nothing that
such prefixes add to a name counts, and the paths of entries are as they were. -/
theorem normalize_canonical (p : String) :
    (∃ n, Strips n (slashes p) (normalize p).toList ∧ 2 * n ≤ p.length) ∧
    '\\' ∉ (normalize p).toList ∧ ¬dots 1 <+: (normalize p).toList ∧
    normalize (normalize p) = normalize p ∧
    (∃ n, slashes p = dots n ++ (normalize p).toList ∧ ∀ m, dots m <+: slashes p ↔ m ≤ n) ∧
    (∀ steps : List String, (∀ s ∈ steps, s = "./" ∨ s = ".\\") →
      normalize (String.join steps ++ p) = normalize p) ∧
    ∀ (k : Address.Kind) (ns : List String),
      Address.classify p = some (k, ns) → normalize p = p := by
  obtain ⟨n, hn⟩ := exists_strips_normalize p
  have hlength : (slashes p).length = p.length := by
    rw [slashes, List.length_map, String.length_toList]
  have hslash := backslash_not_mem_normalize p
  have hdots := not_dots_prefix_normalize p
  exact ⟨⟨n, hn, hlength ▸ hn.length_le⟩, hslash, hdots, normalize_eq_self_iff.mpr ⟨hslash, hdots⟩,
    ⟨n, (strips_iff.mp hn).1, fun m => hn.prefix_iff⟩, fun steps h => normalize_join_append h p,
    fun k ns h => Address.normalize_of_classify h⟩

/-- The path of a phase, with both kinds of slashes and with dots in front. -/
theorem normalize_canonical_phase :
    (∀ s ∈ [".\\", "./", ".\\"], s = "./" ∨ s = ".\\") ∧
    Address.classify "phases/intro.lua" = some (.phaseData, ["intro"]) ∧
    normalize (String.join [".\\", "./", ".\\"] ++ "phases/intro.lua") = "phases/intro.lua" := by
  have hsteps : ∀ s ∈ [".\\", "./", ".\\"], s = "./" ∨ s = ".\\" := by decide
  have hclassify : Address.classify "phases/intro.lua" = some (.phaseData, ["intro"]) := by decide
  obtain ⟨-, -, -, -, -, hfront, hpath⟩ := normalize_canonical "phases/intro.lua"
  exact ⟨hsteps, hclassify, (hfront _ hsteps).trans (hpath _ _ hclassify)⟩

end StoryPack
