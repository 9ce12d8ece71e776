/-
Tables of lists of pairs.

A table is made of a list of pairs by putting one pair after another into it.  A key
that is new comes last, and a key that is there keeps its place and changes its value.
So the keys stand in the order in which they first came, each of them once, and lead to
what they came with last.

The length of the sequence part is counted by looking up one integer after another, so
that the order of the entries does not matter for it.

* `Table.lookup_put`, `Table.keys_put` — one pair;
* `Table.Gathers` — a table that holds what pairs say, `Table.gathers_ofEntries` — the
  table of a list of pairs;
* `Table.le_sequenceLength_iff`, `Table.isGreatest_sequenceLength` — the sequence part;
* `Table.keys_distinct` — the keys of tables are different, also in snapshots.
-/
import StoryPack.Proofs.Confinement.Soundness
import StoryPack.Proofs.Scope.Backing
import StoryPack.Proofs.Scope.RoundTrip
import Mathlib.Data.Finset.Card
import Mathlib.Order.Bounds.Basic

namespace StoryPack.Scope.Table

open Script.Table (maxSlot)

/-- A table holds what pairs say: it has their keys, in the order in which they first came, and
under each of them the value that is found first from the end. -/
structure Gathers (pairs : List (Key × Value)) (t : Table) : Prop where
  key_iff : ∀ k, k ∈ t.entries.map (·.1) ↔ k ∈ pairs.map (·.1)
  ordered : (t.entries.map (·.1)).Pairwise fun k k' =>
    (pairs.map (·.1)).idxOf k < (pairs.map (·.1)).idxOf k'
  get? : ∀ k, t.get? k = pairs.reverse.lookup k

variable {pairs : List (Key × Value)} {t : Table} {k : Key} {v : Value} {n : Nat}

/-! ### One pair -/

theorem lookup_cons (e : Key × Value) (rest : List (Key × Value)) (k : Key) :
    (e :: rest).lookup k = if k = e.1 then some e.2 else rest.lookup k := by
  rw [List.lookup_cons]
  by_cases hk : k = e.1
  · rw [if_pos hk, beq_iff_eq.mpr hk]
  · rw [if_neg hk, beq_eq_false_iff_ne.mpr hk]

theorem lookup_put (entries : List (Key × Value)) (k : Key) (v : Value) (k' : Key) :
    (put entries k v).lookup k' = if k' = k then some v else entries.lookup k' := by
  induction entries with
  | nil => rw [put, lookup_cons]
  | cons e rest ih =>
    obtain ⟨first, w⟩ := e
    rw [put, lookup_cons]
    by_cases hfirst : first = k
    · subst hfirst
      rw [if_pos rfl, lookup_cons]
      by_cases hk : k' = first
      · rw [if_pos hk, if_pos hk]
      · rw [if_neg hk, if_neg hk, if_neg hk]
    · rw [if_neg hfirst, lookup_cons, ih]
      by_cases hk : k' = first
      · rw [if_pos hk, if_pos hk, if_neg (hk ▸ hfirst)]
      · rw [if_neg hk, if_neg hk]

/-- A new key comes last, and other keys stay where they are. -/
theorem keys_put (entries : List (Key × Value)) (k : Key) (v : Value) :
    (put entries k v).map (·.1) =
      if k ∈ entries.map (·.1) then entries.map (·.1) else entries.map (·.1) ++ [k] := by
  induction entries with
  | nil => rfl
  | cons e rest ih =>
    obtain ⟨first, w⟩ := e
    rw [put]
    by_cases hfirst : first = k
    · subst hfirst
      simp
    · rw [if_neg hfirst, List.map_cons, List.map_cons, ih]
      have hmem : k ∈ first :: rest.map (·.1) ↔ k ∈ rest.map (·.1) := by
        rw [List.mem_cons, or_iff_right (Ne.symm hfirst)]
      by_cases hk : k ∈ rest.map (·.1)
      · rw [if_pos hk, if_pos (hmem.mpr hk)]
      · rw [if_neg hk, if_neg (mt hmem.mp hk), List.cons_append]

/-- Putting one pair more into a table. -/
theorem Gathers.put (h : Gathers pairs t) (k : Key) (v : Value) :
    Gathers (pairs ++ [(k, v)]) ⟨Table.put t.entries k v⟩ where
  key_iff k' := by
    show k' ∈ (Table.put t.entries k v).map (·.1) ↔ _
    rw [keys_put, List.map_append, List.mem_append, ← h.key_iff]
    split
    · rename_i hk
      refine ⟨.inl, fun hk' => hk'.elim id fun heq => ?_⟩
      rwa [List.mem_singleton.mp heq]
    · exact List.mem_append
  ordered := by
    show ((Table.put t.entries k v).map (·.1)).Pairwise _
    -- where the keys first came, the new pair does not change
    have hold (k' : Key) (hk' : k' ∈ t.entries.map (·.1)) :
        ((pairs ++ [(k, v)]).map (·.1)).idxOf k' = (pairs.map (·.1)).idxOf k' := by
      rw [List.map_append, List.idxOf_append_of_mem ((h.key_iff k').mp hk')]
    have hbefore : (t.entries.map (·.1)).Pairwise fun a b =>
        ((pairs ++ [(k, v)]).map (·.1)).idxOf a < ((pairs ++ [(k, v)]).map (·.1)).idxOf b := by
      refine h.ordered.imp_of_mem fun ha hb hlt => ?_
      rwa [hold _ ha, hold _ hb]
    rw [keys_put]
    split
    · exact hbefore
    · rename_i hk
      refine List.pairwise_append.mpr ⟨hbefore, List.pairwise_singleton .., fun a ha b hb => ?_⟩
      rw [List.mem_singleton.mp hb, hold a ha, List.map_append,
        List.idxOf_append_of_notMem (mt (h.key_iff k).mpr hk)]
      exact Nat.lt_add_right _ (List.idxOf_lt_length_iff.mpr ((h.key_iff a).mp ha))
  get? k' := by
    show (Table.put t.entries k v).lookup k' = _
    rw [lookup_put, List.reverse_append, List.reverse_singleton, List.singleton_append, lookup_cons,
      ← h.get?]
    rfl

/-! ### Lists of pairs -/

/-- The table of a list of pairs holds what they say. -/
theorem gathers_ofEntries (pairs : List (Key × Value)) : Gathers pairs (ofEntries pairs) := by
  -- the last pair is put into the table of those before
  induction pairs using List.reverseRecOn with
  | nil => exact ⟨fun k => Iff.rfl, .nil, fun k => rfl⟩
  | append_singleton pairs p ih =>
    have hput : ofEntries (pairs ++ [p]) = ⟨put (ofEntries pairs).entries p.1 p.2⟩ := by
      rw [ofEntries, List.foldl_append]
      rfl
    rw [hput]
    exact ih.put p.1 p.2

theorem Gathers.nodup (h : Gathers pairs t) : (t.entries.map (·.1)).Nodup := by
  refine h.ordered.imp fun hlt => ?_
  rintro rfl
  exact Nat.lt_irrefl _ hlt

/-- A key leads to the value of the last pair with it. -/
theorem Gathers.get?_eq_some_iff (h : Gathers pairs t) : t.get? k = some v ↔
    ∃ before after, pairs = before ++ (k, v) :: after ∧ k ∉ after.map (·.1) := by
  rw [h.get?, List.lookup_eq_some_iff]
  constructor
  · rintro ⟨after, before, hpairs, hafter⟩
    refine ⟨before.reverse, after.reverse, ?_, fun hk => ?_⟩
    · rw [← List.reverse_inj, hpairs]
      simp
    · obtain ⟨e, he, rfl⟩ := List.mem_map.mp hk
      exact absurd (hafter e (List.mem_reverse.mp he)) (by simp)
  · rintro ⟨before, after, rfl, hafter⟩
    refine ⟨after.reverse, before.reverse, by simp, fun e he => ?_⟩
    rw [bne_iff_ne]
    rintro rfl
    exact hafter (List.mem_map_of_mem (List.mem_reverse.mp he))

theorem Gathers.isSome_get?_iff (h : Gathers pairs t) (k : Key) :
    (t.get? k).isSome ↔ k ∈ pairs.map (·.1) :=
  Table.isSome_get?_iff.trans (h.key_iff k)

/-- There are as many entries as there are keys among the pairs. -/
theorem Gathers.size_eq (h : Gathers pairs t) : t.size = (pairs.map (·.1)).toFinset.card := by
  have hkeys : (pairs.map (·.1)).toFinset = (t.entries.map (·.1)).toFinset :=
    Finset.ext fun k => by rw [List.mem_toFinset, List.mem_toFinset, h.key_iff]
  rw [hkeys, List.toFinset_card_of_nodup h.nodup, List.length_map, size]

/-! ### The sequence part -/

theorem sequenceLength_le_size (t : Table) : t.sequenceLength ≤ t.size := by
  have hfrom (fuel n : Nat) : t.sequenceFrom fuel n ≤ n + fuel := by
    induction fuel generalizing n with
    | zero => exact Nat.le_refl n
    | succ fuel ih =>
      unfold sequenceFrom
      split
      · exact Nat.le_trans (ih (n + 1)) (by omega)
      · exact Nat.le_add_right ..
  exact Nat.le_trans (hfrom t.size 0) (by omega)

/-- All integers from 1 to `n` are keys, in so far as there are such keys at all. -/
def HasUpTo (t : Table) (n : Nat) : Prop :=
  ∀ i : Int64, 1 ≤ i.toInt → i.toInt ≤ n → (t.get? (.integer i)).isSome

theorem hasUpTo_iff (hn : n ≤ maxSlot) :
    t.HasUpTo n ↔ ∀ i < n, (t.get? (.integer (Int64.ofNat (i + 1)))).isSome := by
  constructor
  · intro h i hi
    have hint := toInt_ofNat (n := i + 1) (by omega)
    exact h _ (by omega) (by omega)
  · intro h i hpos hle
    have hint : i = Int64.ofNat (i.toInt.toNat - 1 + 1) := by
      rw [← Int64.toInt_inj, toInt_ofNat (by omega)]
      omega
    rw [hint]
    exact h _ (by omega)

/-- The sequence part goes as far as the integers from 1 on are keys. -/
theorem le_sequenceLength_iff (hn : n ≤ maxSlot) : n ≤ t.sequenceLength ↔ t.HasUpTo n := by
  have hmax : maxSlot = 0x7fffffffffffffff := rfl
  rw [hasUpTo_iff hn]
  constructor
  · exact fun hle i hi => isSome_of_lt_sequenceFrom (Nat.zero_le i) (Nat.lt_of_lt_of_le hi hle)
  · intro h
    -- the count ends before a gap, or where there are no more entries
    obtain hall | hgap := t.sequenceFrom_cases t.size 0
    · have hsize : n ≤ t.size := le_size_of_isSome (by omega) h
      have hlength : t.sequenceLength = t.size := hall.trans (Nat.zero_add _)
      omega
    · refine Nat.le_of_not_lt fun hlt => ?_
      have hsome := h t.sequenceLength hlt
      rw [show t.get? (.integer (Int64.ofNat (t.sequenceLength + 1))) = none from hgap] at hsome
      cases hsome

/-- The length of the sequence part is the greatest number up to which all integers are keys. -/
theorem isGreatest_sequenceLength (hsize : t.size ≤ maxSlot) :
    IsGreatest {n : Nat | ∀ j : Int, 1 ≤ j → j ≤ n →
      ∃ i : Int64, i.toInt = j ∧ (t.get? (.integer i)).isSome} t.sequenceLength := by
  have hmax : maxSlot = 0x7fffffffffffffff := rfl
  have hofInt {j : Int} (hpos : 1 ≤ j) (hle : j ≤ maxSlot) : (Int64.ofInt j).toInt = j :=
    Int64.toInt_ofInt_of_le (by omega) (by omega)
  have hlength : t.sequenceLength ≤ maxSlot := Nat.le_trans t.sequenceLength_le_size hsize
  constructor
  · intro j hpos hle
    have hj := hofInt hpos (by omega)
    exact ⟨Int64.ofInt j, hj, (le_sequenceLength_iff hlength).mp (Nat.le_refl _) _ (by omega)
      (by omega)⟩
  · intro n hn
    -- there is no key beyond the greatest integer
    have hle : n ≤ maxSlot := by
      refine Nat.le_of_not_lt fun hlt => ?_
      obtain ⟨i, hi, -⟩ := hn (maxSlot + 1) (by omega) (by omega)
      have hhigh := i.toInt_le
      rw [hi] at hhigh
      exact absurd hhigh (by decide)
    refine (le_sequenceLength_iff hle).mpr fun i hpos hi => ?_
    obtain ⟨i', heq, hsome⟩ := hn i.toInt hpos hi
    rwa [← Int64.toInt_inj.mp heq]

/-! ### Different keys -/

/-- The keys of a table are different, however it has come about.  In the table of a list of pairs
they stand in the order in which they first come in the list, and each leads to the value of the
last pair with it; the sequence part goes as far as all integers from 1 on come somewhere in the
list.  (No table has more entries than there are positive integers.)  In the snapshot of a table of
a script the keys are different at every level, if the tables of the heap are sound, as they always
are. -/
theorem keys_distinct :
    (∀ pairs : List (Key × Value),
      let t := ofEntries pairs
      let keys := t.entries.map (·.1)
      let came := pairs.map (·.1)
      keys.Nodup ∧ (∀ k, k ∈ keys ↔ k ∈ came) ∧
      (keys.Pairwise fun k k' => came.idxOf k < came.idxOf k') ∧
      (∀ k v, t.get? k = some v ↔
        ∃ before after, pairs = before ++ (k, v) :: after ∧ k ∉ after.map (·.1)) ∧
      (∀ k, t.get? k = none ↔ k ∉ came) ∧
      t.size = came.toFinset.card ∧
      (∀ n ≤ maxSlot, n ≤ t.sequenceLength ↔
        ∀ i : Int64, 1 ≤ i.toInt → i.toInt ≤ n → .integer i ∈ came) ∧
      (t.size ≤ maxSlot → IsGreatest {n : Nat | ∀ j : Int, 1 ≤ j → j ≤ n →
        ∃ i : Int64, i.toInt = j ∧ .integer i ∈ came} t.sequenceLength)) ∧
    (∀ (h : Script.Heap) (r : Nat) (t : Table), h.Sound → h.snapshot r = .ok t → t.Keyed) ∧
    ∀ (limit : Option Nat) (host : Host) (s : Session), Host.new limit = .ok host →
      (Session.start host).Reaches s → s.host.heap.Sound ∧
        ∀ (r : Nat) (t : Table), s.host.heap.snapshot r = .ok t → t.Keyed := by
  refine ⟨fun pairs => ?_, fun h r t hh ht => hh.snapshot_keyed ht,
    fun limit host s hhost hs => ?_⟩
  · intro t keys came
    have h : Gathers pairs t := gathers_ofEntries pairs
    have hsome (k : Key) : (t.get? k).isSome ↔ k ∈ came := h.isSome_get?_iff k
    refine ⟨h.nodup, h.key_iff, h.ordered, fun k v => h.get?_eq_some_iff, fun k => ?_, h.size_eq,
      fun n hn => ?_, fun hsize => ?_⟩
    · rw [← hsome, Option.not_isSome_iff_eq_none]
    · simp only [le_sequenceLength_iff hn, HasUpTo, hsome]
    · have hgreatest := isGreatest_sequenceLength hsize
      simp only [hsome] at hgreatest
      exact hgreatest
  · obtain ⟨hsound, -⟩ := hs.sound hhost
    exact ⟨hsound, fun r t ht => hsound.snapshot_keyed ht⟩

/-- A table to which the owner of a session has added one value has a snapshot. -/
theorem exists_snapshot : ∃ (host : Host) (s : Session) (r : Nat) (t : Table),
    Host.new none = .ok host ∧ (Session.start host).Reaches s ∧ s.host.heap.snapshot r = .ok t := by
  obtain ⟨host, hhost⟩ := Host.exists_new
  have hnew := Host.newTable_of_limit (Host.fresh_of_new hhost).limit
  let h := host.heap.shelf (.text "held") (.bool true)
  let s : Session := { Session.start host with
    host := host.withHeap h, tables := [host.heap.tables.size] }
  have hs : (Session.start host).Reaches s := by
    have hadded := Session.Step.newTable (s := Session.start host)
    rw [show (Session.start host).host.newTable = _ from hnew] at hadded
    refine (Session.Reaches.refl.step hadded).step (.put (k := .str "held".toUTF8) ?_ ?_ ?_)
    · exact List.mem_cons_self
    · exact .plain nofun nofun
    · exact .plain nofun nofun
  have hget (k : Script.Key) (hk : (h.table host.heap.tables.size).get k ≠ .nil) :
      k = (Key.text "held").toScript ∧ (h.table host.heap.tables.size).get k = .bool true := by
    rw [Script.Heap.get_shelf] at hk ⊢
    split at hk
    · exact ⟨‹_›, if_pos ‹_›⟩
    · exact absurd rfl hk
  have hreads : h.readThrough host.heap.tables.size = host.heap.tables.size :=
    Script.Heap.readThrough_of_not_view (host.heap.not_view_shelf _ _)
  have hreadable : h.Readable (.table host.heap.tables.size) := by
    refine .table ((hs.sound hhost).1 _) (fun k hk => ⟨.text "held", ?_⟩) fun k hk => ?_
    · rw [hreads] at hk
      exact (hget k hk).1
    · rw [hreads] at hk ⊢
      rw [(hget k hk).2]
      exact .leaf (w := .boolean true) rfl
  obtain ⟨t, ht⟩ := hreadable.snapshot
  exact ⟨host, s, _, t, hhost, hs, ht⟩

theorem keys_distinct_shuffled :
    let pairs : List (Key × Value) := [(.text "1", .boolean true), (.integer 2, .text "b"),
      (.integer 1, .text "a"), (.text "1", .boolean false)]
    let t := ofEntries pairs
    t.get? (.text "1") = some (.boolean false) ∧ 2 ≤ maxSlot ∧ 2 ≤ t.sequenceLength ∧
    t.size ≤ maxSlot ∧ IsGreatest {n : Nat | ∀ j : Int, 1 ≤ j → j ≤ n →
      ∃ i : Int64, i.toInt = j ∧ .integer i ∈ pairs.map (·.1)} t.sequenceLength ∧
    ∃ (host : Host) (s : Session) (r : Nat) (u : Table), Host.new none = .ok host ∧
      (Session.start host).Reaches s ∧ s.host.heap.snapshot r = .ok u ∧ s.host.heap.Sound ∧
        u.Keyed := by
  intro pairs t
  obtain ⟨hpairs, hheap, hsession⟩ := keys_distinct
  obtain ⟨-, -, -, hvalue, -, -, hsequence, hgreatest⟩ := hpairs pairs
  have hmax : 2 ≤ maxSlot := by decide
  have hsize : t.size ≤ maxSlot := by decide
  have hsecond : ∀ i : Int64, 1 ≤ i.toInt → i.toInt ≤ 2 → .integer i ∈ pairs.map (·.1) := by
    intro i hpos hle
    obtain hone | htwo : i.toInt = (1 : Int64).toInt ∨ i.toInt = (2 : Int64).toInt := by
      have h1 : (1 : Int64).toInt = 1 := by decide
      have h2 : (2 : Int64).toInt = 2 := by decide
      omega
    · rw [Int64.toInt_inj.mp hone]
      decide
    · rw [Int64.toInt_inj.mp htwo]
      decide
  have hlast : t.get? (.text "1") = some (.boolean false) :=
    (hvalue _ _).mpr ⟨pairs.take 3, [], rfl, List.not_mem_nil⟩
  obtain ⟨host, s, r, u, hhost, hs, hu⟩ := exists_snapshot
  obtain ⟨hsound, -⟩ := hsession none host s hhost hs
  exact ⟨hlast, hmax, (hsequence 2 hmax).mpr hsecond, hsize, hgreatest hsize, host, s, r, u, hhost,
    hs, hu, hsound, hheap _ r u hsound hu⟩

end StoryPack.Scope.Table
