/-
Loads of members in another order.

Reading takes the members of an archive one at a time and stops at the first that
cannot be read; which one that is depends on their order, but not whether there is
one.  What is read is sorted.  Where two entries tie, sorting keeps their order,
and the load fails: entries that tie take up one key, or both are options.

* `Member.entries_eq_ok_iff` — reading goes member by member;
* `Member.entries_of_perm` — members in another order are entries in another order;
* `Rooted.untied` — entries that tie do not fit together;
* `Loader.loadFiles_of_perm` — the order of the members does not matter.
-/
import StoryPack.Proofs.Pack.Load

namespace StoryPack

open Std

namespace Member

/-- The entry that is read from a member. -/
def found? (limit : Nat) (m : Member) : Option Entry := (m.entry? limit).toOption.join

/-- Both members are entries, and neither comes before the other. -/
def Ties (m m' : Member) : Prop :=
  ∃ a a', m.address? = some a ∧ m'.address? = some a' ∧ Address.compare a a' = .eq

/-- No two of the members tie. -/
def Untied (ms : List Member) : Prop := ms.Pairwise fun m m' => ¬ m.Ties m'

theorem Ties.symm {m m' : Member} : m.Ties m' → m'.Ties m
  | ⟨a, a', ha, ha', htie⟩ => ⟨a', a, ha', ha, OrientedCmp.eq_comm.mp htie⟩

theorem Untied.of_perm {ms ms' : List Member} (h : ms.Perm ms') (hms : Untied ms) : Untied ms' :=
  (h.pairwise_iff fun hno htie => hno htie.symm).mp hms

theorem address_of_parseOptions {path : String} {body : ByteArray} {e : Entry}
    (h : parseOptions path body = .ok e) : e.address = .options := by
  unfold parseOptions at h
  split at h
  · cases h
    rfl
  · cases h
  · cases h

/-- A member that is read gives the entry that its path announces. -/
theorem address_of_found {m : Member} {limit : Nat} {o : Option Entry}
    (h : m.entry? limit = .ok o) : o.map Entry.address = m.address? := by
  unfold entry? at h
  cases haddress : m.address? with
  | none =>
    simp only [haddress] at h
    cases h
    rfl
  | some address =>
    simp only [haddress] at h
    split at h
    · cases h
    split at h
    · cases h
    cases hread : read m.body limit with
    | error f =>
      simp only [hread] at h
      cases h
    | ok body =>
      simp only [hread] at h
      split at h
      · cases h
      cases address with
      | script place =>
        cases h
        rfl
      | options =>
        cases hparse : parseOptions m.path body with
        | error f =>
          rw [hparse] at h
          cases h
        | ok e =>
          rw [hparse] at h
          cases h
          exact congrArg some (address_of_parseOptions hparse)

/-- Reading succeeds when every member can be read, and gives the entries of all. -/
theorem entries_eq_ok_iff {limit : Nat} {ms : List Member} {es : List Entry} :
    entries limit ms = .ok es ↔
      (∀ m ∈ ms, ∃ o, m.entry? limit = .ok o) ∧ es = ms.filterMap (found? limit) := by
  induction ms generalizing es with
  | nil =>
    rw [entries, Except.ok.injEq]
    exact ⟨fun h => ⟨fun m hm => (List.not_mem_nil hm).elim, h.symm⟩, fun h => h.2.symm⟩
  | cons m rest ih =>
    cases hm : m.entry? limit with
    | error f =>
      have hfail : entries limit (m :: rest) = .error f := by
        rw [entries, hm]
        rfl
      rw [hfail]
      refine ⟨nofun, fun h => ?_⟩
      obtain ⟨o, ho⟩ := h.1 m List.mem_cons_self
      rw [hm] at ho
      cases ho
    | ok o =>
      have hfound : found? limit m = o := by rw [found?, hm]; rfl
      have hlist : (m :: rest).filterMap (found? limit) =
          o.toList ++ rest.filterMap (found? limit) := by
        cases o <;> simp [hfound]
      have hcons : entries limit (m :: rest) =
          (entries limit rest).map fun others => o.toList ++ others := by
        rw [entries, hm]
        cases hrest : entries limit rest <;> rfl
      rw [hcons, hlist, List.forall_mem_cons]
      constructor
      · intro h
        cases hrest : entries limit rest with
        | error f =>
          rw [hrest] at h
          cases h
        | ok others =>
          rw [hrest] at h
          obtain ⟨hall, hothers⟩ := ih.mp hrest
          rw [hothers] at h
          exact ⟨⟨⟨o, hm⟩, hall⟩, (Except.ok.inj h).symm⟩
      · rintro ⟨⟨-, hall⟩, rfl⟩
        rw [ih.mpr ⟨hall, rfl⟩]
        rfl

/-- Members in another order can be read if the members can, and their entries are the same in
another order. -/
theorem entries_of_perm {limit : Nat} {ms ms' : List Member} (h : ms.Perm ms') {es : List Entry}
    (hes : entries limit ms = .ok es) : ∃ es', entries limit ms' = .ok es' ∧ es.Perm es' := by
  obtain ⟨hall, rfl⟩ := entries_eq_ok_iff.mp hes
  exact ⟨_, entries_eq_ok_iff.mpr ⟨fun m hm => hall m (h.mem_iff.mpr hm), rfl⟩, h.filterMap _⟩

/-- Members tie when their entries do. -/
theorem untied_iff {limit : Nat} {ms : List Member} {es : List Entry}
    (hes : entries limit ms = .ok es) : Entry.Untied es ↔ Untied ms := by
  obtain ⟨hall, rfl⟩ := entries_eq_ok_iff.mp hes
  have hfound : ∀ m ∈ ms, (found? limit m).map Entry.address = m.address? := fun m hm => by
    obtain ⟨o, ho⟩ := hall m hm
    rw [found?, ho, ← address_of_found ho]
    rfl
  rw [Entry.Untied, List.pairwise_filterMap]
  refine ⟨List.Pairwise.imp_of_mem fun {m m'} hm hm' h => ?_,
    List.Pairwise.imp_of_mem fun {m m'} hm hm' h e he e' he' htie => ?_⟩
  · rintro ⟨a, a', ha, ha', htie⟩
    rw [← hfound m hm, Option.map_eq_some_iff] at ha
    rw [← hfound m' hm', Option.map_eq_some_iff] at ha'
    obtain ⟨e, he, rfl⟩ := ha
    obtain ⟨e', he', rfl⟩ := ha'
    exact h e he e' he' htie
  · exact h ⟨_, _, (hfound m hm).symm.trans (congrArg _ he),
      (hfound m' hm').symm.trans (congrArg _ he'), htie⟩

end Member

/-- Entries that tie take up one key, or both are options. -/
theorem Entry.key?_eq_of_compare {e e' : Entry} (h : compare e e' = .eq) :
    e.key? = e'.key? ∧ (e.key? = none → e.address = .options ∧ e'.address = .options) := by
  rcases Address.compare_eq_eq_iff.mp h with haddress | ⟨author, author', p, s, n, ha, ha'⟩
  · cases e <;> cases e' <;> simp_all [address, key?]
  · cases e <;> cases e' <;> simp_all [address, key?, Place.key, Address.names]

/-- Where no key is taken up twice and options come once, nothing ties. -/
theorem Rooted.untied {es : List Entry} (h : Rooted es) : Entry.Untied es := by
  have hkeys : es.Pairwise fun e e' =>
      ∀ key, e.key? = some key → ∀ key', e'.key? = some key' → key ≠ key' :=
    List.pairwise_filterMap.mp h.nodup
  have hoptions : es.Pairwise fun e e' => ¬ (e.address = .options ∧ e'.address = .options) := by
    have hlength : (es.filter fun e => e.address = .options).length ≤ 1 := by
      rw [← List.countP_eq_length_filter]
      exact h.options
    have hfilter : (es.filter fun e => e.address = .options).Pairwise fun _ _ => False := by
      generalize es.filter (fun e => e.address = .options) = options at hlength ⊢
      rcases options with _ | ⟨e, _ | ⟨e', rest⟩⟩
      · exact .nil
      · exact List.pairwise_singleton _ _
      · rw [List.length_cons, List.length_cons] at hlength
        omega
    refine (List.pairwise_filter.mp hfilter).imp fun {e e'} hno hboth => ?_
    exact hno (decide_eq_true hboth.1) (decide_eq_true hboth.2)
  refine (hkeys.and hoptions).imp fun {e e'} ⟨hkey, hoption⟩ htie => ?_
  obtain ⟨hsame, hnone⟩ := Entry.key?_eq_of_compare htie
  cases hk : e.key? with
  | none => exact hoption (hnone hk)
  | some key => exact hkey key hk key (hsame ▸ hk) rfl

namespace LoaderFault

/-- Two loads give the same pack, or both fail in the same stage. -/
def Agree : Except LoaderFault Pack → Except LoaderFault Pack → Prop
  | .ok p, .ok p' => p = p'
  | .error f, .error f' => f.stage = f'.stage
  | _, _ => False

theorem Agree.refl (r : Except LoaderFault Pack) : Agree r r := by
  cases r <;> rfl

end LoaderFault

namespace Loader

variable (l : Loader) (build : Pack → Except String Pack)

/-- Entries that tie make no pack. -/
theorem execute_of_not_untied {es : List Entry} (h : ¬ Entry.Untied es) :
    ∃ f, (l.execute (Entry.sort es)).2 = .error f := by
  cases hrun : (l.execute (Entry.sort es)).2 with
  | error f => exact ⟨f, rfl⟩
  | ok p =>
    have hfits := (l.execute_sort es fun path f hf => by rw [hrun] at hf; cases hf).1.mp ⟨p, hrun⟩
    exact absurd (fits_iff.mp hfits).1.untied h

/-- A load of files that can be read. -/
theorem loadFiles_of_entries {x : Listing} {es : List Entry} (hfault : x.fault = none)
    (hes : Member.entries l.config.maxEntryBytes x.files = .ok es) :
    (l.loadFiles x build).2 =
      match (l.execute (Entry.sort es)).2 with
      | .error f => .error (.executing f)
      | .ok p => (build p).mapError .building := by
  have hentries : x.entries l.config.maxEntryBytes = .ok (Entry.sort es) := by
    simp only [Listing.entries, hes, hfault]
    rfl
  simp only [loadFiles, hentries]
  rcases hrun : l.execute (Entry.sort es) with ⟨l', f | p⟩
  · rfl
  · simp only
    cases hbuild : build p <;> rfl

/-- A load of files that cannot be read, or not all of them. -/
theorem loadFiles_of_fault {x : Listing} (h : x.fault = none →
    ∀ es, Member.entries l.config.maxEntryBytes x.files ≠ .ok es) :
    ∃ f, (l.loadFiles x build).2 = .error (.reading f) := by
  have hentries : ∃ f, x.entries l.config.maxEntryBytes = .error f := by
    unfold Listing.entries
    cases hes : Member.entries l.config.maxEntryBytes x.files with
    | error f => exact ⟨f, rfl⟩
    | ok es =>
      cases hfault : x.fault with
      | none => exact absurd hes (h hfault es)
      | some f => exact ⟨f, rfl⟩
  obtain ⟨f, hf⟩ := hentries
  exact ⟨f, by simp only [loadFiles, hf]⟩

/-- Files that tie make no pack. -/
theorem untied_of_loadFiles {x : Listing} {p : Pack} (h : (l.loadFiles x build).2 = .ok p) :
    Member.Untied x.files := by
  by_cases hread : x.fault = none ∧ ∃ es, Member.entries l.config.maxEntryBytes x.files = .ok es
  · obtain ⟨hfault, es, hes⟩ := hread
    rw [← Member.untied_iff hes]
    by_contra huntied
    obtain ⟨f, hf⟩ := l.execute_of_not_untied huntied
    rw [l.loadFiles_of_entries build hfault hes, hf] at h
    cases h
  · obtain ⟨f, hf⟩ := l.loadFiles_of_fault build fun hfault es hes => hread ⟨hfault, es, hes⟩
    rw [hf] at h
    cases h

theorem loadFiles_agree {x x' : Listing} (hfiles : x.files.Perm x'.files)
    (hfault : x.fault = x'.fault) :
    LoaderFault.Agree (l.loadFiles x build).2 (l.loadFiles x' build).2 := by
  by_cases hread : x.fault = none ∧ ∃ es, Member.entries l.config.maxEntryBytes x.files = .ok es
  · obtain ⟨hnone, es, hes⟩ := hread
    obtain ⟨es', hes', hperm⟩ := Member.entries_of_perm hfiles hes
    rw [l.loadFiles_of_entries build hnone hes, l.loadFiles_of_entries build (hfault ▸ hnone) hes']
    by_cases huntied : Entry.Untied es
    · rw [Entry.sort_eq_of_perm hperm huntied]
      exact .refl _
    · obtain ⟨f, hf⟩ := l.execute_of_not_untied huntied
      obtain ⟨f', hf'⟩ := l.execute_of_not_untied (mt (Entry.Untied.of_perm hperm.symm) huntied)
      rw [hf, hf']
      rfl
  · have hread' : ¬ (x'.fault = none ∧
        ∃ es, Member.entries l.config.maxEntryBytes x'.files = .ok es) := fun ⟨hnone, es', hes'⟩ =>
      let ⟨es, hes, _⟩ := Member.entries_of_perm hfiles.symm hes'
      hread ⟨hfault ▸ hnone, es, hes⟩
    obtain ⟨f, hf⟩ := l.loadFiles_of_fault build fun hnone es hes => hread ⟨hnone, es, hes⟩
    obtain ⟨f', hf'⟩ := l.loadFiles_of_fault build fun hnone es hes => hread' ⟨hnone, es, hes⟩
    rw [hf, hf']
    rfl

/-- The order of the files of an archive does not matter: loads of them in two orders give the same
pack or fail in the same stage. Where two of them tie — they have one path, or they are actions of
both authors under one name — there is no pack in any order. -/
theorem loadFiles_of_perm {x x' : Listing} (hfiles : x.files.Perm x'.files)
    (hfault : x.fault = x'.fault) :
    LoaderFault.Agree (l.loadFiles x build).2 (l.loadFiles x' build).2 ∧
    (¬ Member.Untied x.files → ∀ p, (l.loadFiles x' build).2 ≠ .ok p) ∧
    ∀ m m' : Member, m.Ties m' ↔ ∃ a a', m.address? = some a ∧ m'.address? = some a' ∧
      (a = a' ∨ ∃ author author' p s n,
        a = .script (.action author p s n) ∧ a' = .script (.action author' p s n)) := by
  refine ⟨l.loadFiles_agree build hfiles hfault, fun htie p hp => ?_, fun m m' => ?_⟩
  · exact htie ((Member.Untied.of_perm hfiles.symm) (l.untied_of_loadFiles build hp))
  · simp only [Member.Ties, Address.compare_eq_eq_iff]

/-! ### Files in two orders -/

/-- The files of the script of a pack and of that of a phase. -/
def taleFiles : List Member :=
  [("phases/p.lua", Session.copying), ("pack.lua", Assembly.titleSource)].map fun (path, source) =>
    { path := path, size := source.size, body := { data := source, intact := true } }

/-- The script of a pack, and actions of both authors under one name. -/
def twinActions : List Member :=
  ["phases/a/b/npc/c.lua", "pack.lua", "phases/a/b/player/c.lua"].map fun path =>
    { path := path, size := 0, body := { data := ByteArray.empty, intact := true } }

/-- The scripts make the same pack in both orders. The actions tie, so they make none. -/
theorem loadFiles_of_perm_tale : ∃ l₀, new unlimited = .ok l₀ ∧
    let l := l₀.paced Script.Pace.resting
    (∃ p, (l.loadFiles { files := taleFiles } .ok).2 = .ok p ∧
      (l.loadFiles { files := taleFiles.reverse } .ok).2 = .ok p) ∧
    ¬Member.Untied twinActions ∧
      ∀ p, (l.loadFiles { files := twinActions.reverse } .ok).2 ≠ .ok p := by
  obtain ⟨l₀, hnew, ⟨p, phase, hp, -⟩, -⟩ := exists_loaded
  let l := l₀.paced Script.Pace.resting
  have hconfig : l.config = unlimited := by
    unfold new at hnew
    split at hnew <;> cases hnew
    rfl
  have hload : (l.loadFiles { files := taleFiles } .ok).2 = .ok p := by
    have hentries :
        Member.entries l.config.maxEntryBytes taleFiles = .ok [phaseEntry, packEntry] := by
      rw [hconfig]
      rfl
    rw [l.loadFiles_of_entries .ok rfl hentries, sort_entries.1, hp]
    rfl
  obtain ⟨hagree, -⟩ := @loadFiles_of_perm l .ok { files := taleFiles }
    { files := taleFiles.reverse } (List.reverse_perm _).symm rfl
  obtain ⟨-, hties, -⟩ := @loadFiles_of_perm l .ok { files := twinActions }
    { files := twinActions.reverse } (List.reverse_perm _).symm rfl
  have htie : ¬Member.Untied twinActions := fun h => by
    refine (List.pairwise_cons.mp h).1 _ (List.mem_cons_of_mem _ (List.mem_singleton_self _)) ?_
    exact ⟨.script (.action .npc "a" "b" "c"), .script (.action .player "a" "b" "c"),
      by decide +kernel, by decide +kernel, by decide +kernel⟩
  refine ⟨l₀, hnew, ⟨p, hload, ?_⟩, htie, hties htie⟩
  rw [hload] at hagree
  cases hback : (l.loadFiles { files := taleFiles.reverse } .ok).2 with
  | ok p' =>
    rw [hback] at hagree
    exact congrArg Except.ok hagree.symm
  | error f =>
    rw [hback] at hagree
    exact hagree.elim

end Loader

end StoryPack
