/-
Why a table has no snapshot.

A table has a snapshot unless something stands in the way: a path of keys leads
back to a table that it has come by, or to a key or a value that scopes do not
have.  The fault of a failed snapshot says what, and shows the path.

* `Heap.Impedes` — what stands in the way of a snapshot;
* `Heap.Impedes.not_readable` — such tables can not be read;
* `Heap.SoundBelow.impedes` — whatever fault there is, it is a true one;
* `Heap.SoundBelow.snapshot_iff` — there is a snapshot if nothing stands in the way;
* `Heap.shownKeys_of_empty` — how paths are shown that begin with an empty text.
-/
import StoryPack.Proofs.Scope.Snapshot

namespace StoryPack.Script.Heap

variable {h : Heap}

/-- A path of keys as it is shown. -/
def shownKeys (ks : List Scope.Key) : String := ks.foldl childPath ""

theorem shownKeys_append (ks : List Scope.Key) (k : Scope.Key) :
    shownKeys (ks ++ [k]) = childPath (shownKeys ks) k := List.foldl_append

/-- An empty text at the beginning of a path is not shown. -/
theorem shownKeys_of_empty (ks : List Scope.Key) :
    shownKeys (.text "" :: ks) = shownKeys ks := rfl

/-- What a path of keys of scopes leads to from a table. -/
def along (h : Heap) (r : Nat) (ks : List Scope.Key) : Value :=
  h.follow (.table r) (ks.map Scope.Key.toScript)

theorem along_append (h : Heap) (r : Nat) (ks rest : List Scope.Key) :
    h.along r (ks ++ rest) = h.follow (h.along r ks) (rest.map Scope.Key.toScript) := by
  rw [along, List.map_append, follow_append]
  rfl

theorem along_concat {r c : Nat} {ks : List Scope.Key} (hc : h.along r ks = .table c)
    (k : Scope.Key) : h.along r (ks ++ [k]) = (h.table (h.readThrough c)).get k.toScript := by
  rw [along_append, hc]
  rfl

/-- What stands in the way of a snapshot of a table. -/
inductive Impedes (h : Heap) (r : Nat) : SnapshotFault → Prop
  /-- A path leads to a table that it has come by. -/
  | cycle {ks rest : List Scope.Key} {b c : Nat} (hb : h.along r ks = .table b)
    (hc : h.along r (ks ++ rest) = .table c) (hrest : rest ≠ [])
    (hsame : h.readThrough c = h.readThrough b) : Impedes h r (.cycle (shownKeys (ks ++ rest)))
  /-- A table has a key that is neither an integer nor a string. -/
  | key {ks : List Scope.Key} {c : Nat} {k : Key} (hc : h.along r ks = .table c)
    (hk : ((h.table (h.readThrough c)).get k).isNil = false) (hint : ∀ i, k ≠ .int i)
    (hstr : ∀ s, k ≠ .str s) : Impedes h r (.key k.toValue.hostTypeName (shownKeys ks))
  /-- A table has a key that is no text. -/
  | keyText {ks : List Scope.Key} {c : Nat} {s : ByteArray} {f : Utf8.Fault}
    (hc : h.along r ks = .table c)
    (hk : ((h.table (h.readThrough c)).get (.str s)).isNil = false)
    (hs : Utf8.text s = .error f) : Impedes h r (.notText f)
  /-- There is an error object. -/
  | value {ks : List Scope.Key} {a : Nat} (ha : h.along r ks = .fault a) :
    Impedes h r (.value (Value.fault a).hostTypeName (shownKeys ks))
  /-- There is a string that is no text. -/
  | valueText {ks : List Scope.Key} {s : ByteArray} {f : Utf8.Fault}
    (hs : h.along r ks = .str s) (hf : Utf8.text s = .error f) : Impedes h r (.notText f)

/-! ### What stands in the way does so -/

/-- A path through a value that can be read leads to nothing, or to a value that can be read. -/
theorem Readable.follow {v : Value} (hv : h.Readable v) (path : List Key)
    (hsome : (h.follow v path).isNil = false) : h.Readable (h.follow v path) := by
  induction path generalizing v with
  | nil => exact hv
  | cons k path ih =>
    cases hv with
    | leaf hw =>
      rename_i w
      cases w with
      | table entries => cases hw
      | _ =>
        cases hw
        cases hsome
    | table hsound hkeys hvalues =>
      rename_i r
      by_cases hnil : (h.table (h.readThrough r)).get k = .nil
      · have hnone : h.follow (.table r) (k :: path) = .nil := by
          show h.follow ((h.table (h.readThrough r)).get k) path = .nil
          rw [hnil, follow_nil]
        rw [hnone] at hsome
        cases hsome
      · exact ih (hvalues k hnil) hsome

theorem Readable.along {r : Nat} (hr : h.Readable (.table r)) {ks : List Scope.Key} {v : Value}
    (hv : h.along r ks = v) (hsome : v.isNil = false) : h.Readable v := by
  subst hv
  exact hr.follow _ hsome

/-- The keys of tables that can be read are keys of scopes. -/
theorem Readable.key {c : Nat} (hc : h.Readable (.table c)) {k : Key}
    (hk : ((h.table (h.readThrough c)).get k).isNil = false) : ∃ k', k = Scope.Key.toScript k' := by
  cases hc with
  | leaf hw => exact absurd hw leaf?_ne_table
  | table hsound hkeys hvalues =>
    refine hkeys k fun hnil => ?_
    rw [hnil] at hk
    cases hk

/-- A path that is not empty leads further inside. -/
theorem inside_of_follow {b c : Nat} {path : List Key} (hpath : path ≠ [])
    (hc : h.follow (.table b) path = .table c) :
    Relation.TransGen h.Inside (h.readThrough c) (h.readThrough b) := by
  induction path generalizing b with
  | nil => exact absurd rfl hpath
  | cons k path ih =>
    have hstep : h.follow ((h.table (h.readThrough b)).get k) path = .table c := hc
    by_cases hlast : path = []
    · subst hlast
      exact .single ⟨k, c, hstep, rfl⟩
    · cases hget : (h.table (h.readThrough b)).get k with
      | table r =>
        rw [hget] at hstep
        exact .tail (ih hlast hstep) ⟨k, r, hget, rfl⟩
      | _ =>
        -- nothing is found further on in a value that is no table
        rw [hget] at hstep
        obtain ⟨k', path, rfl⟩ := List.exists_cons_of_ne_nil hlast
        cases hstep

/-- A table in whose way something stands can not be read. -/
theorem Impedes.not_readable {r : Nat} {f : SnapshotFault} (hf : h.Impedes r f) :
    ¬h.Readable (.table r) := by
  intro hr
  cases hf with
  | cycle hb hc hrest hsame =>
    rename_i ks rest b c
    have hfollow : h.follow (.table b) (rest.map Scope.Key.toScript) = .table c := by
      rw [← hb, ← along_append]
      exact hc
    have hinside := inside_of_follow (by simpa using hrest) hfollow
    rw [hsame] at hinside
    exact not_transGen_self ((hr.along hb rfl).acc rfl) hinside
  | key hc hk hint hstr =>
    obtain ⟨k', rfl⟩ := (hr.along hc rfl).key hk
    cases k' with
    | integer i => exact hint i rfl
    | text t => exact hstr _ rfl
  | keyText hc hk hs =>
    obtain ⟨k', heq⟩ := (hr.along hc rfl).key hk
    cases k' with
    | integer i => cases heq
    | text t =>
      obtain rfl := Key.str.inj heq
      cases hs.symm.trans (Utf8.text_toUTF8 t)
  | value ha =>
    cases hr.along ha rfl with
    | leaf hw =>
      rename_i w
      cases w <;> cases hw
  | valueText hs hf =>
    cases hr.along hs rfl with
    | leaf hw =>
      rename_i w
      cases w with
      | text t =>
        cases hw
        cases hf.symm.trans (Utf8.text_toUTF8 t)
      | _ => cases hw

/-! ### Every fault is a true one -/

/-- Why there is no snapshot of an entry of a table. -/
inductive Refused (nested : String → Nat → Except SnapshotFault (List (Scope.Key × Scope.Value)))
    (path : String) : Key × Value → SnapshotFault → Prop
  | key {k : Key} {v : Value} (hint : ∀ i, k ≠ .int i) (hstr : ∀ s, k ≠ .str s) :
    Refused nested path (k, v) (.key k.toValue.hostTypeName path)
  | keyText {s : ByteArray} {v : Value} {f : Utf8.Fault} (hs : Utf8.text s = .error f) :
    Refused nested path (.str s, v) (.notText f)
  | value {k : Scope.Key} {a : Nat} : Refused nested path (k.toScript, .fault a)
    (.value (Value.fault a).hostTypeName (childPath path k))
  | valueText {k : Scope.Key} {s : ByteArray} {f : Utf8.Fault} (hs : Utf8.text s = .error f) :
    Refused nested path (k.toScript, .str s) (.notText f)
  | nested {k : Scope.Key} {c : Nat} {f : SnapshotFault}
    (hf : nested (childPath path k) c = .error f) : Refused nested path (k.toScript, .table c) f

theorem refused_of_snapshotKey {nested : String → Nat →
      Except SnapshotFault (List (Scope.Key × Scope.Value))} {path : String} {k : Key} {v : Value}
    {f : SnapshotFault} (hk : snapshotKey path k = .error f) : Refused nested path (k, v) f := by
  cases k with
  | int i => cases hk
  | str s =>
    cases hs : Utf8.text s with
    | ok t =>
      simp only [snapshotKey, snapshotText, hs, bind, Except.bind] at hk
      cases hk
    | error f =>
      simp only [snapshotKey, snapshotText, hs, bind, Except.bind] at hk
      cases hk
      exact .keyText hs
  | bool _ | float _ | table _ | function _ | fault _ =>
    cases hk
    refine .key ?_ ?_
    · intro i hi
      cases hi
    · intro s hs
      cases hs

theorem refused_of_snapshotEntry {nested : String → Nat →
      Except SnapshotFault (List (Scope.Key × Scope.Value))} {path : String} {k : Key} {v : Value}
    {f : SnapshotFault} (hv : v.isNil = false) (he : snapshotEntry nested path (k, v) = .error f) :
    Refused nested path (k, v) f := by
  unfold snapshotEntry at he
  dsimp only at he
  cases hk : snapshotKey path k with
  | error f' =>
    rw [hk] at he
    cases he
    exact refused_of_snapshotKey hk
  | ok key =>
    rw [hk] at he
    obtain rfl := eq_toScript_of_snapshotKey hk
    cases v with
    | nil => cases hv
    | fault a =>
      cases he
      exact .value
    | str s =>
      cases hs : Utf8.text s with
      | ok t =>
        simp only [snapshotText, hs, bind, Except.bind] at he
        cases he
      | error f' =>
        simp only [snapshotText, hs, bind, Except.bind] at he
        cases he
        exact .valueText hs
    | table c =>
      cases hc : nested (childPath path key) c with
      | ok entries =>
        simp only [hc, bind, Except.bind] at he
        cases he
      | error f' =>
        simp only [hc, bind, Except.bind] at he
        cases he
        exact .nested hc
    | bool _ | int _ | float _ | function _ => cases he

/-- When there is no result for a list, there is none for one of its items. -/
theorem exists_of_mapM_error {α β ε : Type} {f : α → Except ε β} {as : List α} {e : ε}
    (h : as.mapM f = .error e) : ∃ a ∈ as, f a = .error e := by
  induction as with
  | nil => cases h
  | cons a as ih =>
    rw [List.mapM_cons] at h
    cases ha : f a with
    | error e' =>
      rw [ha] at h
      cases h
      exact ⟨a, List.mem_cons_self, ha⟩
    | ok b =>
      cases has : as.mapM f with
      | error e' =>
        rw [ha, has] at h
        cases h
        obtain ⟨a', ha', he⟩ := ih has
        exact ⟨a', List.mem_cons_of_mem a ha', he⟩
      | ok bs =>
        rw [ha, has] at h
        cases h

/-- The tables that a path has come by, and what it leads to. -/
structure Trail (h : Heap) (r : Nat) (ks : List Scope.Key) (visiting : List Nat) (c : Nat) :
    Prop where
  along : h.along r ks = .table c
  visited : ∀ b ∈ visiting, ∃ before rest b', ks = before ++ rest ∧ rest ≠ [] ∧
    h.along r before = .table b' ∧ h.readThrough b' = b
  nodup : visiting.Nodup
  lt : ∀ b ∈ visiting, b < h.tables.size

/-- One key further. -/
theorem Trail.concat {r c d : Nat} {ks : List Scope.Key} {visiting : List Nat}
    (ht : h.Trail r ks visiting c) (hnew : h.readThrough c ∉ visiting) {k : Scope.Key}
    (hd : (h.table (h.readThrough c)).get k.toScript = .table d) :
    h.Trail r (ks ++ [k]) (h.readThrough c :: visiting) d where
  along := (along_concat ht.along k).trans hd
  visited b hb := by
    obtain rfl | hb := List.mem_cons.mp hb
    · exact ⟨ks, [k], c, rfl, nofun, ht.along, rfl⟩
    · obtain ⟨before, rest, b', rfl, -, hbefore, hsame⟩ := ht.visited b hb
      exact ⟨before, rest ++ [k], b', List.append_assoc .., by simp, hbefore, hsame⟩
  nodup := List.nodup_cons.mpr ⟨hnew, ht.nodup⟩
  lt := by
    -- the table has an entry, so it is one of the heap
    refine List.forall_mem_cons.mpr ⟨Nat.lt_of_not_le fun hle => ?_, ht.lt⟩
    rw [Heap.table, Array.getElem?_eq_none hle, Option.getD_none, Table.get_empty] at hd
    cases hd

variable {P : Value → Prop}

/-- What is said of a table that a path leads to is true of the table that it begins at. -/
theorem SoundBelow.impedes_of_snapshotEntries (hP : h.SoundBelow P) {r : Nat}
    {fuel : Nat} {ks : List Scope.Key} {visiting : List Nat} {c : Nat}
    (ht : h.Trail r ks visiting c) (hc : P (.table c))
    (hfuel : h.tables.size < fuel + visiting.length) {f : SnapshotFault}
    (hs : snapshotEntries h fuel visiting (shownKeys ks) c = .error f) : h.Impedes r f := by
  induction fuel generalizing ks visiting c f with
  | zero =>
    have hle := length_le_of_nodup ht.nodup ht.lt
    omega
  | succ fuel ih =>
    rw [snapshotEntries_succ] at hs
    split at hs
    · -- the table has been visited before
      rename_i hvisited
      cases hs
      obtain ⟨before, rest, b, rfl, hrest, hbefore, hsame⟩ :=
        ht.visited _ (List.contains_iff_mem.mp hvisited)
      exact .cycle hbefore ht.along hrest hsame.symm
    · rename_i hnew
      have hnew : h.readThrough c ∉ visiting := by simpa using hnew
      obtain ⟨⟨k, v⟩, hmem, he⟩ := exists_of_mapM_error hs
      obtain ⟨rfl, hsome⟩ := (hP.sound c hc).mem_snapshotOrder_iff.mp hmem
      generalize hv : (h.table (h.readThrough c)).get k = v at he hsome
      cases refused_of_snapshotEntry hsome he with
      | key hint hstr => exact .key ht.along (hv ▸ hsome) hint hstr
      | keyText htext => exact .keyText ht.along (hv ▸ hsome) htext
      | value =>
        rw [← shownKeys_append]
        exact .value ((along_concat ht.along _).trans hv)
      | valueText htext => exact .valueText ((along_concat ht.along _).trans hv) htext
      | nested hf =>
        rename_i k d
        rw [← shownKeys_append] at hf
        refine ih (ht.concat hnew hv) (hv ▸ hP.values c k.toScript hc) ?_ hf
        rw [List.length_cons]
        omega

/-- Whatever fault there is when a table has no snapshot, it says what stands in the way. -/
theorem SoundBelow.impedes (hP : h.SoundBelow P) {r : Nat} (hr : P (.table r)) {f : SnapshotFault}
    (hs : h.snapshot r = .error f) : h.Impedes r f := by
  have htrail : h.Trail r [] [] r := ⟨rfl, nofun, List.nodup_nil, nofun⟩
  have hfuel : h.tables.size < h.tables.size + 2 + ([] : List Nat).length := by simp
  refine hP.impedes_of_snapshotEntries htrail hr hfuel ?_
  unfold snapshot at hs
  cases hentries : snapshotEntries h (h.tables.size + 2) [] "" r with
  | error f' =>
    rw [hentries] at hs
    cases hs
    exact hentries
  | ok entries =>
    rw [hentries] at hs
    cases hs

/-- A table has a snapshot if nothing stands in the way, and then its snapshot holds at every level
exactly what the table does, under different keys. -/
theorem SoundBelow.snapshot_iff (hP : h.SoundBelow P) {r : Nat} (hr : P (.table r)) :
    ((∃ t, h.snapshot r = .ok t) ↔ ∀ f, ¬h.Impedes r f) ∧
    (∀ t, h.snapshot r = .ok t → t.Keyed ∧ h.Displays (.table r) t.value) ∧
    ∀ f, h.snapshot r = .error f → h.Impedes r f := by
  refine ⟨⟨fun ⟨t, ht⟩ f hf => ?_, fun hnone => ?_⟩, fun t ht => ?_, fun f hf => hP.impedes hr hf⟩
  · exact hf.not_readable (hP.spells_of_snapshot hr ht).1.readable
  · cases hs : h.snapshot r with
    | ok t => exact ⟨t, rfl⟩
    | error f => exact absurd (hP.impedes hr hs) (hnone f)
  · obtain ⟨hspells, -⟩ := hP.spells_of_snapshot hr ht
    exact ⟨hspells.keyed, hspells.displays⟩

end StoryPack.Script.Heap
