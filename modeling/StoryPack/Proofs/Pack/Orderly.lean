/-
Which entries make a pack.

The entries of a pack fit together when nothing comes twice and nothing is
missing, in whatever order they are listed.  A load looks at them one at a time
instead, and compares each with those before it.  In ascending order both come
to the same.

* `Fits` — entries that make a pack, as a condition on all of them;
* `Entry.violation?` — what is wrong with an entry after those before it;
* `Orderly`, `FirstViolation` — nothing is wrong, or where it first is;
* `orderly_iff` — in ascending order nothing is wrong exactly when nothing comes
  twice and no node is missing above another.
-/
import StoryPack.Proofs.Entry.Order
import StoryPack.Proofs.Pack.Nodes
import Mathlib.Data.List.Induction
import Mathlib.Data.List.Nodup

namespace StoryPack

/-- Entries that make a pack, however they are listed. -/
structure Fits (es : List Entry) : Prop where
  pack : es.countP (fun e => e.address = .script .pack) = 1
  options : es.countP (fun e => e.address = .options) ≤ 1
  phases : ∀ p, es.countP (fun e => e.address = .script (.phase p)) ≤ 1
  stages : ∀ p s, es.countP (fun e => e.address = .script (.stage p s)) ≤ 1
  /-- Actions of both kinds count together. -/
  actions : ∀ p s n, es.countP (fun e => e.address = .script (.action .npc p s n) ∨
    e.address = .script (.action .player p s n)) ≤ 1
  phaseOfStage : ∀ p s, (∃ e ∈ es, e.address = .script (.stage p s)) →
    ∃ e ∈ es, e.address = .script (.phase p)
  stageOfAction : ∀ author p s n, (∃ e ∈ es, e.address = .script (.action author p s n)) →
    ∃ e ∈ es, e.address = .script (.stage p s)

namespace Entry

/-- The key that an entry takes up. Options take up none. -/
def key? : Entry → Option (List String)
  | .options _ => none
  | .script place _ => some place.key

/-- The keys that entries take up. -/
def keys (es : List Entry) : List (List String) := es.filterMap key?

/-- What is wrong with an entry after these. -/
def violation? (before : List Entry) : Entry → Option StructuralFault
  | .options _ => if ∃ e ∈ before, e.address = .options then some .duplicateOptions else none
  | .script place _ => place.obstacle? (keys before)

theorem mem_keys_iff {es : List Entry} {key : List String} :
    key ∈ keys es ↔ ∃ place source, .script place source ∈ es ∧ place.key = key := by
  rw [keys, List.mem_filterMap]
  constructor
  · rintro ⟨e, he, hkey⟩
    cases e with
    | options members => cases hkey
    | script place source => exact ⟨place, source, he, Option.some.inj hkey⟩
  · rintro ⟨place, source, he, rfl⟩
    exact ⟨_, he, rfl⟩

theorem key?_eq_nil_iff {e : Entry} : e.key? = some [] ↔ e.address = .script .pack := by
  rcases e with _ | ⟨_ | _ | _ | _, _⟩ <;> simp [key?, address, Place.key, Address.names]

theorem key?_eq_phase_iff {e : Entry} {p : String} :
    e.key? = some [p] ↔ e.address = .script (.phase p) := by
  rcases e with _ | ⟨_ | _ | _ | _, _⟩ <;> simp [key?, address, Place.key, Address.names]

theorem key?_eq_stage_iff {e : Entry} {p s : String} :
    e.key? = some [p, s] ↔ e.address = .script (.stage p s) := by
  rcases e with _ | ⟨_ | _ | _ | _, _⟩ <;> simp [key?, address, Place.key, Address.names]

/-- Actions of both kinds take up the same keys. -/
theorem key?_eq_action_iff {e : Entry} {p s n : String} :
    e.key? = some [p, s, n] ↔ e.address = .script (.action .npc p s n) ∨
      e.address = .script (.action .player p s n) := by
  rcases e with _ | ⟨_ | _ | _ | ⟨_ | _, _, _, _⟩, _⟩ <;>
    simp [key?, address, Place.key, Address.names]

theorem key?_ne_long {e : Entry} {p s n n' : String} {rest : List String} :
    e.key? ≠ some (p :: s :: n :: n' :: rest) := by
  rcases e with _ | ⟨_ | _ | _ | _, _⟩ <;> simp [key?, Place.key, Address.names]

/-- How often a key is taken up. -/
theorem count_keys (es : List Entry) (key : List String) :
    (keys es).count key = es.countP fun e => e.key? = some key := by
  rw [keys, List.count_filterMap]
  exact List.countP_congr fun e _ => by simp

theorem keys_concat_options (es : List Entry) (members : List (String × Json)) :
    keys (es ++ [.options members]) = keys es := by
  simp [keys, key?]

theorem keys_concat_script (es : List Entry) (place : Place) (source : ByteArray) :
    keys (es ++ [.script place source]) = keys es ++ [place.key] := by
  simp [keys, key?]

theorem countP_concat_options (es : List Entry) (members : List (String × Json)) :
    (es ++ [Entry.options members]).countP (fun e => e.address = .options) =
      es.countP (fun e => e.address = .options) + 1 := by
  rw [List.countP_append]
  rfl

theorem countP_concat_script (es : List Entry) (place : Place) (source : ByteArray) :
    (es ++ [Entry.script place source]).countP (fun e => e.address = .options) =
      es.countP (fun e => e.address = .options) := by
  rw [List.countP_append]
  rfl

/-- The rank of a script is the depth of its node. -/
theorem rank_script (place : Place) (source : ByteArray) :
    (Entry.script place source).rank = place.key.length + 1 := by
  rcases place with _ | _ | _ | ⟨_ | _, _, _, _⟩ <;> rfl

theorem length_of_parent? {place : Place} {parent : List String}
    (h : place.parent? = some parent) : place.key.length = parent.length + 1 := by
  cases place <;> cases h <;> rfl

end Entry

/-- Nothing is wrong with any entry after those before it. -/
def Orderly (es : List Entry) : Prop :=
  ∀ before e after, es = before ++ e :: after → e.violation? before = none

/-- Something is wrong with an entry, and with none before it. -/
def FirstViolation (es : List Entry) (e : Entry) (f : StructuralFault) : Prop :=
  ∃ before after, es = before ++ e :: after ∧ Orderly before ∧ e.violation? before = some f

theorem orderly_nil : Orderly [] := fun before e after h => by simp at h

theorem orderly_concat_iff {es : List Entry} {e : Entry} :
    Orderly (es ++ [e]) ↔ Orderly es ∧ e.violation? es = none := by
  constructor
  · intro h
    refine ⟨fun before x after heq => h before x (after ++ [e]) ?_, h es e [] rfl⟩
    simp [heq]
  · rintro ⟨hes, he⟩ before x after heq
    rcases List.eq_nil_or_concat after with rfl | ⟨after', last, rfl⟩
    · obtain ⟨rfl, hx⟩ := List.append_inj' heq rfl
      cases hx
      exact he
    · refine hes before x after' ?_
      have heq' : es ++ [e] = (before ++ x :: after') ++ [last] := by simpa using heq
      exact (List.append_inj' heq' rfl).1

theorem FirstViolation.not_orderly {es : List Entry} {e : Entry} {f : StructuralFault}
    (h : FirstViolation es e f) : ¬ Orderly es := by
  obtain ⟨before, after, heq, -, he⟩ := h
  intro horderly
  simp [horderly before e after heq] at he

/-- Nothing comes twice, and no node is missing above another. -/
structure Rooted (es : List Entry) : Prop where
  nodup : (Entry.keys es).Nodup
  options : es.countP (fun e => e.address = .options) ≤ 1
  parents : ∀ place source parent, .script place source ∈ es → place.parent? = some parent →
    parent ∈ Entry.keys es

theorem Rooted.closed {es : List Entry} (h : Rooted es) : Place.Closed (Entry.keys es) where
  root p hp := by
    obtain ⟨place, source, he, hkey⟩ := Entry.mem_keys_iff.mp hp
    refine h.parents place source [] he ?_
    cases place <;> cases hkey
    rfl
  phase p s hs := by
    obtain ⟨place, source, he, hkey⟩ := Entry.mem_keys_iff.mp hs
    refine h.parents place source [p] he ?_
    cases place <;> cases hkey
    rfl

/-- The conditions on all entries at once, by their keys. -/
theorem fits_iff {es : List Entry} : Fits es ↔ Rooted es ∧ [] ∈ Entry.keys es := by
  have hmem : ∀ key, key ∈ Entry.keys es ↔ ∃ e ∈ es, e.key? = some key := fun key => by
    rw [Entry.keys, List.mem_filterMap]
  constructor
  · intro h
    have hnil : [] ∈ Entry.keys es := by
      rw [← List.count_pos_iff, Entry.count_keys]
      simp only [Entry.key?_eq_nil_iff, h.pack, Nat.one_pos]
    refine ⟨⟨List.nodup_iff_count_le_one.mpr fun key => ?_, h.options, ?_⟩, hnil⟩
    · rw [Entry.count_keys]
      rcases key with _ | ⟨p, _ | ⟨s, _ | ⟨n, _ | ⟨n', rest⟩⟩⟩⟩
      · simpa only [Entry.key?_eq_nil_iff] using Nat.le_of_eq h.pack
      · simpa only [Entry.key?_eq_phase_iff] using h.phases p
      · simpa only [Entry.key?_eq_stage_iff] using h.stages p s
      · simpa only [Entry.key?_eq_action_iff] using h.actions p s n
      · simp [Entry.key?_ne_long]
    · intro place source parent he hparent
      cases place with
      | pack => cases hparent
      | phase p =>
        cases hparent
        exact hnil
      | stage p s =>
        cases hparent
        simpa only [hmem, Entry.key?_eq_phase_iff] using h.phaseOfStage p s ⟨_, he, rfl⟩
      | action author p s n =>
        cases hparent
        simpa only [hmem, Entry.key?_eq_stage_iff] using h.stageOfAction author p s n ⟨_, he, rfl⟩
  · rintro ⟨h, hnil⟩
    have hcount : ∀ key, (es.countP fun e => e.key? = some key) ≤ 1 := fun key => by
      rw [← Entry.count_keys]
      exact List.nodup_iff_count_le_one.mp h.nodup key
    refine ⟨?_, h.options, fun p => ?_, fun p s => ?_, fun p s n => ?_, ?_, ?_⟩
    · have hpos := List.count_pos_iff.mpr hnil
      have hone := hcount []
      rw [Entry.count_keys] at hpos
      simp only [Entry.key?_eq_nil_iff] at hpos hone
      omega
    · simpa only [Entry.key?_eq_phase_iff] using hcount [p]
    · simpa only [Entry.key?_eq_stage_iff] using hcount [p, s]
    · simpa only [Entry.key?_eq_action_iff] using hcount [p, s, n]
    · rintro p s ⟨e, he, haddress⟩
      cases e with
      | options members => cases haddress
      | script place source =>
        cases haddress
        simpa only [hmem, Entry.key?_eq_phase_iff] using h.parents _ source [p] he rfl
    · rintro author p s n ⟨e, he, haddress⟩
      cases e with
      | options members => cases haddress
      | script place source =>
        cases haddress
        simpa only [hmem, Entry.key?_eq_stage_iff] using h.parents _ source [p, s] he rfl

theorem Rooted.of_perm {es es' : List Entry} (h : Rooted es) (hperm : es.Perm es') :
    Rooted es' where
  nodup := (hperm.filterMap _).nodup_iff.mp h.nodup
  options := hperm.countP_eq _ ▸ h.options
  parents place source parent he hparent :=
    (hperm.filterMap _).mem_iff.mp (h.parents place source parent (hperm.mem_iff.mpr he) hparent)

theorem Rooted.perm_iff {es es' : List Entry} (hperm : es.Perm es') : Rooted es ↔ Rooted es' :=
  ⟨fun h => h.of_perm hperm, fun h => h.of_perm hperm.symm⟩

/-- Nothing is wrong with a script whose key is free and whose parent is there. -/
theorem Rooted.violation?_script {es : List Entry} (h : Rooted es) (place : Place)
    (source : ByteArray) : (Entry.script place source).violation? es = none ↔
      place.key ∉ Entry.keys es ∧
        ∀ parent, place.parent? = some parent → parent ∈ Entry.keys es := by
  rw [Entry.violation?, ← Option.not_isSome_iff_eq_none, place.obstacle?_isSome_iff h.closed,
    Place.Refused]
  simp only [not_or, not_exists, not_and, not_not]

theorem Rooted.violation?_options {es : List Entry} (members : List (String × Json)) :
    (Entry.options members).violation? es = none ↔
      es.countP (fun e => e.address = .options) = 0 := by
  simp [Entry.violation?, List.countP_eq_zero]

/-- An entry of no lower rank than those before it keeps them rooted exactly when nothing is wrong
with it. -/
theorem rooted_concat_iff {es : List Entry} {e : Entry} (hrank : ∀ x ∈ es, x.rank ≤ e.rank) :
    Rooted (es ++ [e]) ↔ Rooted es ∧ e.violation? es = none := by
  cases e with
  | options members =>
    rw [Rooted.violation?_options]
    constructor
    · intro h
      have hcount := h.options
      rw [Entry.countP_concat_options] at hcount
      have hkeys := Entry.keys_concat_options es members
      refine ⟨⟨hkeys ▸ h.nodup, by omega, fun place source parent he hparent => ?_⟩, by omega⟩
      exact hkeys ▸ h.parents place source parent (List.mem_append_left _ he) hparent
    · rintro ⟨h, hcount⟩
      refine ⟨?_, ?_, fun place source parent he hparent => ?_⟩
      · rw [Entry.keys_concat_options]
        exact h.nodup
      · have hone := Entry.countP_concat_options es members
        omega
      · rw [Entry.keys_concat_options]
        exact h.parents place source parent (by simpa using he) hparent
  | script place source =>
    have hkeys := Entry.keys_concat_script es place source
    constructor
    · intro h
      have hnodup := h.nodup
      rw [hkeys, List.nodup_append] at hnodup
      have hparents : ∀ place' source' parent, .script place' source' ∈ es ++ [.script place source]
          → place'.parent? = some parent → parent ∈ Entry.keys es := by
        intro place' source' parent he hparent
        have hmem := h.parents place' source' parent he hparent
        rw [hkeys, List.mem_append, List.mem_singleton] at hmem
        refine hmem.resolve_right fun hlast => ?_
        -- the node above would be the last one, whose rank is too high
        have hle : (Entry.script place' source').rank ≤ (Entry.script place source).rank := by
          rcases List.mem_append.mp he with he | he
          · exact hrank _ he
          · exact Nat.le_of_eq (congrArg Entry.rank (List.mem_singleton.mp he))
        rw [Entry.rank_script, Entry.rank_script, Entry.length_of_parent? hparent, hlast] at hle
        omega
      have hes : Rooted es := by
        refine ⟨hnodup.1, ?_, fun place' source' parent he => ?_⟩
        · exact Entry.countP_concat_script es place source ▸ h.options
        · exact hparents place' source' parent (List.mem_append_left _ he)
      refine ⟨hes, (hes.violation?_script place source).mpr ⟨fun hmem => ?_, fun parent => ?_⟩⟩
      · exact hnodup.2.2 _ hmem _ (List.mem_singleton_self _) rfl
      · exact hparents place source parent (by simp)
    · rintro ⟨hes, hnone⟩
      obtain ⟨hfree, hparent⟩ := (hes.violation?_script place source).mp hnone
      refine ⟨?_, ?_, fun place' source' parent he hp => ?_⟩
      · rw [hkeys]
        exact hes.nodup.append (List.nodup_singleton _) (by simpa using hfree)
      · rw [Entry.countP_concat_script]
        exact hes.options
      · rw [hkeys]
        refine List.mem_append_left _ ?_
        rcases List.mem_append.mp he with he | he
        · exact hes.parents place' source' parent he hp
        · cases List.mem_singleton.mp he
          exact hparent parent hp

/-- In ascending order nothing is wrong exactly when nothing comes twice and no node is missing
above another. -/
theorem orderly_iff {es : List Entry} (hes : es.Pairwise fun a b => a.rank ≤ b.rank) :
    Orderly es ↔ Rooted es := by
  induction es using List.reverseRecOn with
  | nil => exact ⟨fun _ => ⟨List.nodup_nil, by simp, by simp⟩, fun _ => orderly_nil⟩
  | append_singleton es e ih =>
    obtain ⟨hinit, -, hlast⟩ := List.pairwise_append.mp hes
    rw [orderly_concat_iff, ih hinit, rooted_concat_iff fun x hx => hlast x hx e (by simp)]

end StoryPack
