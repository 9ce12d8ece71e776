/-
Views read as their scopes.

A view holds nothing itself, so every way of reading it has to find its backing
table: indexing, the length operator and loops through metamethods, the functions
of sandboxes by looking through it.  All of them give what the scope holds, at
every level, and change nothing.

* `Heap.Reads` — what all ways of reading a table give;
* `Heap.Views.reads` — those of a view give what its backing table holds;
* `Heap.Mirrors` — a view that reads as a scope, and so do the views in it;
* `Session.views_mirror` — the view of a scope does so for good.
-/
import StoryPack.Proofs.Confinement.Bindings
import StoryPack.Proofs.Confinement.Immutability
import StoryPack.Proofs.Confinement.Showing
import StoryPack.Proofs.Scope.Backing
import StoryPack.Proofs.Script.Finding
import StoryPack.Proofs.Script.Traversal

namespace StoryPack

namespace Script

namespace Heap

/-- What is read of a table that has the keys of a scope, `value` being what is read at each key. -/
structure Reads (h : Heap) (r : Nat) (scope : Scope.Table) (value : Value → Value) : Prop where
  index : ∀ k, (Operation.index (.table r) k h).Finds h (value k)
  rawget : ∀ k, ((Builtin.view .rawget).run [.table r, k] h).Finds h [value k]
  /-- A loop comes to each key of the scope once. -/
  next : ∃ items, h.Traverses (.view .next) (.table r) .nil items ∧
    (scope.entries.map fun e => (e.1.toScript.toValue, value e.1.toScript.toValue)).Perm items
  pairs : ((Builtin.base .pairs).run [.table r] h).Finds h
    [.builtin (.view .next), .table r, .nil]
  /-- A loop over the integers comes to the sequence part, the number of entries being one of 64
  bits. -/
  sequence : scope.size < 2 ^ 64 → h.Traverses (.base .ipairsStep) (.table r) (.int 0)
    ((List.range scope.sequenceLength).map fun i =>
      (.int (Int64.ofNat (i + 1)), value (.int (Int64.ofNat (i + 1)))))
  ipairs : ((Builtin.base .ipairs).run [.table r] h).Finds h
    [.builtin (.base .ipairsStep), .table r, .int 0]
  /-- The length is a border. Where the integers run without a gap it is their number, and that of
  the sequence part, unless the greatest integer is among them. -/
  length : ∃ n, scope.Border n ∧
    (∀ m, scope.Numbers m → n = m ∧ (m < Table.maxSlot → scope.sequenceLength = m)) ∧
    (Operation.length (.table r) h).Finds h (.int (Int64.ofNat n)) ∧
    ((Builtin.view .rawlen).run [.table r] h).Finds h [.int (Int64.ofNat n)]

namespace Views

variable {v m b : Nat} {t : Table} {h : Heap} {scope : Scope.Table}

theorem metafield (hv : h.Views v m b t) (event : ByteArray) :
    h.metafield (.table v) event = (viewMetatable b (.bool false)).get (.str event) := by
  have hm : (h.table v).metatable = some m := by rw [hv.proxy]
  rw [metafield_table h hm, getKey_eq, hv.metatable]

/-- What comes next in a view comes next in its backing table. -/
theorem run_next (hv : h.Views v m b t) (k : Value) :
    (Builtin.view .next).run [.table v, k] h = (Run.ofFollowing h (t.following k)).relabeled := by
  have hrun : (Builtin.view .next).run [.table v, k] h =
      (Run.ofFollowing h ((h.table (h.readThrough v)).following k)).relabeled := rfl
  rw [hrun, hv.readThrough, hv.backing]

theorem isNil_toValue (k : Key) : k.toValue.isNil = false := by
  cases k <;> rfl

theorem toKey?_toScript (k : Scope.Key) : k.toScript.toValue.toKey? = some k.toScript := by
  cases k <;> rfl

theorem following_toValue {k : Key} (hk : k.toValue.toKey? = some k) :
    t.following k.toValue = t.after (some k) := by
  cases k with
  | int _ | str _ | bool _ | table _ | function _ | fault _ => rfl
  | float bits =>
    have hfloat : (Value.float (Float.ofBits bits)).toKey? = some (.float bits) := hk
    show t.following (.float (Float.ofBits bits)) = _
    unfold Table.following
    dsimp only
    rw [hfloat]

/-- A loop over a view comes to what iterating over its backing table comes to. -/
theorem traverses (hv : h.Views v m b t) {g : Table.Following} {items : List (Key × Value)}
    (hg : t.Follows g items) (hkeys : ∀ e ∈ items, e.1.toValue.toKey? = some e.1)
    {control : Value} (hcontrol : t.following control = g) :
    h.Traverses (.view .next) (.table v) control (items.map fun e => (e.1.toValue, e.2)) := by
  induction hg generalizing control with
  | done =>
    refine .done ?_
    rw [hv.run_next, hcontrol]
    exact .done _
  | entry x hrest ih =>
    rename_i k rest
    obtain ⟨hk, hkeys⟩ := List.forall_mem_cons.mp hkeys
    refine .step ?_ (isNil_toValue k) (ih hkeys (following_toValue hk))
    rw [hv.run_next, hcontrol]
    exact .done _

/-- The function that loops over integers gives the next one, as long as there is something. -/
theorem run_ipairsStep (hv : h.Views v m b t) (i : Nat) :
    (Builtin.base .ipairsStep).run [.table v, .int (Int64.ofNat i)] h =
      .done h (if (t.get (.int (Int64.ofNat (i + 1)))).isNil then [.nil]
        else [.int (Int64.ofNat (i + 1)), t.get (.int (Int64.ofNat (i + 1)))]) := by
  have hindex : Operation.index (.table v) (.int (Int64.ofNat (i + 1))) h =
      .done h (t.get (.int (Int64.ofNat (i + 1)))) :=
    hv.indexFrom_view 1998 (some 0) (.int (Int64.ofNat (i + 1)))
  have hrun : (Builtin.base .ipairsStep).run [.table v, .int (Int64.ofNat i)] h =
      (Operation.index (.table v) (.int (Int64.ofNat i + 1)) >>= fun x =>
        pure (if x.isNil then [.nil] else [.int (Int64.ofNat i + 1), x])) h := rfl
  have hnext : Int64.ofNat i + 1 = Int64.ofNat (i + 1) := (Int64.ofNat_add i 1).symm
  rw [hrun, hnext, Action.bind_apply, hindex]
  rfl

/-- A loop over the integers of a view comes to them as long as there is something. -/
theorem traverses_sequence (hv : h.Views v m b t) {n : Nat}
    (hsome : ∀ i < n, (t.get (.int (Int64.ofNat (i + 1)))).isNil = false)
    (hnil : t.get (.int (Int64.ofNat (n + 1))) = .nil) {i : Nat} (hi : i ≤ n) :
    h.Traverses (.base .ipairsStep) (.table v) (.int (Int64.ofNat i))
      ((List.range' i (n - i)).map fun i =>
        (.int (Int64.ofNat (i + 1)), t.getValue (.int (Int64.ofNat (i + 1))))) := by
  -- the induction is on the number of integers that are left
  induction hleft : n - i generalizing i with
  | zero =>
    obtain rfl : i = n := by omega
    refine .done ?_
    rw [hv.run_ipairsStep, hnil]
    exact .done _
  | succ left ih =>
    have hpresent := hsome i (by omega)
    refine .step ?_ rfl (ih (i := i + 1) (by omega) (by omega))
    rw [hv.run_ipairsStep, hpresent]
    exact .done _

/-- The metamethod of views leads loops to the reader that looks through them. -/
theorem finds_pairs (hv : h.Views v m b t) :
    ((Builtin.base .pairs).run [.table v] h).Finds h
      [.builtin (.view .next), .table v, .nil] := by
  have hfield := hv.metafield Event.pairs
  rw [viewMetatable_pairs] at hfield
  have hrun : (Builtin.base .pairs).run [.table v] h =
      .call h (.builtin (.view .pairs)) [.table v] fun h vs =>
        .done h [vs.getD 0 .nil, vs.getD 1 .nil, vs.getD 2 .nil] := by
    have hread : Action.read (fun h => h.metafield (.table v) Event.pairs) h =
      .done h (.builtin (.view .pairs)) := congrArg (Run.done h) hfield
    have hpresent : Argument.present [.table v] 1 h = .done h (.table v) := rfl
    unfold Builtin.run Library.runBase
    dsimp only
    rw [Action.bind_apply, hpresent]
    show (Action.read (fun h => h.metafield (.table v) Event.pairs) >>= _) h = _
    rw [Action.bind_apply, hread]
    rfl
  rw [hrun]
  exact .call nofun nofun rfl (.done _)

/-- The metamethod of views measures the backing table. -/
theorem finds_length (hv : h.Views v m b t) :
    (Operation.length (.table v) h).Finds h (.int (Int64.ofNat t.length)) := by
  have hfield := hv.metafield Event.len
  rw [viewMetatable_len] at hfield
  have hrun : Operation.length (.table v) h =
      .call h (.builtin (.view .length)) [.table v, .table v] fun h vs =>
        .done h (vs.headD .nil) := by
    unfold Operation.length
    dsimp only
    rw [hfield]
    rfl
  have hanswer : (Builtin.view .length).run [.table v, .table v] h =
      .done h [.int (Int64.ofNat t.length)] := by
    show Run.done h [Value.int (Int64.ofNat (h.table (h.readThrough v)).length)] = _
    rw [hv.readThrough, hv.backing]
  rw [hrun]
  exact .call nofun nofun hanswer (.done _)

/-- All ways of reading a view give what its backing table holds. -/
theorem reads (hv : h.Views v m b t) (ht : t.Carries scope) : h.Reads v scope t.getValue where
  index k := by
    have hrun : Operation.index (.table v) k h = .done h (t.getValue k) :=
      hv.indexFrom_view 1998 (some 0) k
    rw [hrun]
    exact .done _
  rawget k := by
    have hrun : (Builtin.view .rawget).run [.table v, k] h =
      .done h [(h.table (h.readThrough v)).getValue k] := rfl
    rw [hrun, hv.readThrough, hv.backing]
    exact .done _
  next := by
    have hperm := ht.perm_entries
    refine ⟨_, hv.traverses ht.sound.follows_entries (fun e he => ?_) rfl, ?_⟩
    · obtain ⟨e', -, rfl⟩ := List.mem_map.mp (hperm.mem_iff.mpr he)
      exact toKey?_toScript e'.1
    · have hitems := hperm.map fun e => (e.1.toValue, e.2)
      rw [List.map_map] at hitems
      refine Eq.subst (motive := fun l => List.Perm l _) ?_ hitems
      refine List.map_congr_left fun e _ => ?_
      show (e.1.toScript.toValue, t.get e.1.toScript) = _
      rw [Table.getValue, toKey?_toScript]
  pairs := hv.finds_pairs
  sequence hsize := by
    have hend : t.get (.int (Int64.ofNat (scope.sequenceLength + 1))) = .nil := by
      refine Value.eq_nil_of_isNil (Bool.not_eq_false _ ▸ fun hsome => ?_)
      have hkey := (ht.isSome_iff (.integer _)).mp hsome
      rw [Scope.Table.get?_sequenceLength hsize] at hkey
      cases hkey
    have hsome (i : Nat) (hi : i < scope.sequenceLength) :
        (t.get (.int (Int64.ofNat (i + 1)))).isNil = false :=
      (ht.isSome_iff (.integer _)).mpr (Scope.Table.isSome_of_lt_sequenceFrom (Nat.zero_le i) hi)
    have htraverses := hv.traverses_sequence hsome hend (Nat.zero_le _)
    rw [Nat.sub_zero, ← List.range_eq_range'] at htraverses
    exact htraverses
  ipairs := .done _
  length := by
    refine ⟨t.length, ht.border, fun m hm => ?_, hv.finds_length, ?_⟩
    · exact ⟨ht.border.eq_of_numbers hm, hm.sequenceLength⟩
    · have hrun : (Builtin.view .rawlen).run [.table v] h =
        .done h [.int (Int64.ofNat (h.table (h.readThrough v)).length)] := rfl
      rw [hrun, hv.readThrough, hv.backing]
      exact .done _

end Views

/-- A value that reads as a value of a scope: the same, or a view, whatever way it is read, and then
the value of each key reads as that of the scope again. -/
inductive Mirrors (h : Heap) : Value → Scope.Value → Prop
  | leaf {v : Value} {w : Scope.Value} (hw : w.leaf? = some v) : Mirrors h v w
  | table {r : Nat} {entries : List (Scope.Key × Scope.Value)} {value : Value → Value}
    (hview : h.isView r) (hreads : h.Reads r ⟨entries⟩ value)
    (hvalues : ∀ (k : Value) (key : Scope.Key) (w : Scope.Value),
      k.toKey? = some key.toScript → Scope.Table.get? ⟨entries⟩ key = some w →
        Mirrors h (value k) w)
    (hothers : ∀ k : Value,
      (∀ key : Scope.Key, k.toKey? = some key.toScript → Scope.Table.get? ⟨entries⟩ key = none) →
        value k = .nil) :
    Mirrors h (.table r) (.table entries)

variable {W : Ward} {D : Nat → Prop} {h : Heap} {v : Value} {w : Scope.Value}

/-- What spells a scope has its keys. -/
theorem carries_of_spells {b : Nat} {entries : List (Scope.Key × Scope.Value)}
    (hsound : (h.table b).Sound) (hnodup : (entries.map (·.1)).Nodup)
    (hvalues : ∀ k w, (k, w) ∈ entries → h.Spells D ((h.table b).get k.toScript) w)
    (hothers : ∀ k, (∀ k' w, (k', w) ∈ entries → k ≠ Scope.Key.toScript k') →
      (h.table b).get k = .nil) : (h.table b).Carries ⟨entries⟩ := by
  refine ⟨hsound, hnodup, fun k => ⟨fun hsome => ?_, ?_⟩⟩
  · refine Classical.byContradiction fun hnone => ?_
    rw [hothers k fun k' w hmem heq => hnone ⟨(k', w), hmem, heq⟩] at hsome
    cases hsome
  · rintro ⟨e, he, rfl⟩
    exact (hvalues e.1 e.2 he).leaf?.1

/-- A view that spells a scope reads as the scope. -/
theorem Kept.mirrors (hk : h.Kept W) (hspells : h.Spells D v w) (hv : v.Settled W) :
    h.Mirrors v w := by
  induction hspells with
  | leaf hw => exact .leaf hw
  | table hr hsound hnodup hvalues hothers ih =>
    rename_i r b entries
    obtain ⟨⟨m, b'⟩, hview⟩ := Option.isSome_iff_exists.mp (hv.2 r rfl)
    obtain ⟨t, hviews, hholds, -⟩ := hk.views_of_view hview
    obtain rfl : b' = b := hviews.readThrough.symm.trans hr.reads
    have hcarries := carries_of_spells hsound hnodup hvalues hothers
    obtain rfl : h.table b' = t := hviews.backing
    refine .table ?_ (hviews.reads hcarries) (fun k key w hkey hw => ?_) fun k hnone => ?_
    · rw [isView, backing?_of_view (by rw [hviews.proxy]) hviews.metatable]
      rfl
    · have hget : (h.table b').getValue k = (h.table b').get key.toScript := by
        rw [Table.getValue, hkey]
      rw [hget]
      exact ih key w (Association.mem_of_lookup hw) (hholds.get (admits_settled W) _)
    · -- what is found at a key is that of an entry
      refine Value.eq_nil_of_isNil (Bool.not_eq_false _ ▸ fun hsome => ?_)
      unfold Table.getValue at hsome
      split at hsome
      · rename_i key hkey
        obtain ⟨e, he, rfl⟩ := (hcarries.key_iff key).mp hsome
        have hentry := hnone e.1 hkey
        rw [Scope.Table.get?, Association.lookup_eq_some_of_mem hnodup he] at hentry
        cases hentry
      · cases hsome

end Heap

end Script

open Script

namespace Host

/-- The functions of a sandbox that read tables. -/
def tableReaders : List (String × Builtin) :=
  [("next", .view .next), ("rawget", .view .rawget), ("rawlen", .view .rawlen),
   ("pairs", .base .pairs), ("ipairs", .base .ipairs)]

/-- A fresh sandbox has the functions that read tables, if no binding takes their names. -/
theorem get_tableReaders {host host' : Host} {bindings : List (String × Value)}
    {sandbox : Sandbox} (hnew : host.newSandbox bindings = (host', .ok sandbox))
    (hnodup : ((host.openings bindings).map (·.1)).Nodup) {e : String × Builtin}
    (he : e ∈ tableReaders) : host'.get sandbox e.1 = .builtin e.2 := by
  have hdefault : (e.1, Value.builtin e.2) ∈ host.defaults host.heap.tables.size := by
    simp only [tableReaders, List.mem_cons, List.not_mem_nil, or_false] at he
    obtain rfl | rfl | rfl | rfl | rfl := he <;>
      simp [defaults, baseAllowed, Interpreter.readers]
  rw [get_newSandbox hnew]
  exact Table.get_named_of_mem hnodup (List.mem_append_left _ hdefault)

end Host

namespace Session

/-- Every read of a view agrees with the data. Whatever the owner of a host does after the view of a
scope has been made, and however far a script is, all ways of reading the view give what the scope
holds, at every level; and they change nothing, so that it does not matter how often they are
repeated. The functions among them are those that fresh sandboxes hold. -/
theorem views_mirror {limit : Option Nat} {host : Host} (hhost : Host.new limit = .ok host)
    {s : Session} (hs : (start host).Reaches s) {t : Scope.Table} (hkeyed : t.Keyed)
    (ht : t.Within fun f => s.Known (.function f)) {roots : List Value} {host' : Host} {v : Nat}
    (hv : s.host.freeze t roots = (host', .ok v)) {s' : Session}
    (hs' : Session.Reaches { s with host := host', views := v :: s.views } s') :
    s'.host.heap.Mirrors (.table v) t.value ∧
    (∀ σ : State, s'.Runs σ → σ.heap.Mirrors (.table v) t.value) ∧
    ∀ bindings host'' sandbox, s'.host.newSandbox bindings = (host'', .ok sandbox) →
      ((s'.host.openings bindings).map (·.1)).Nodup →
        ∀ e ∈ Host.tableReaders, host''.get sandbox e.1 = .builtin e.2 := by
  obtain ⟨W, -, hconfined⟩ := (start_confined (Host.fresh_of_new hhost)).reaches hs
  have hfrozen := (hconfined.freeze ht roots).1
  rw [hv] at hfrozen
  obtain ⟨W', hle, hlater⟩ := hfrozen.reaches hs'
  have hwithin := Scope.Value.entriesWithin.mono (fun f hf => hconfined.known hf) t.entries ht
  have hshows := Host.freeze_shows hconfined.host hkeyed hwithin hv
  -- the view shows its scope in every later heap, so that it reads as the scope there
  have hmirrors {h : Heap} (hk : h.Kept W') : h.Mirrors (.table v) t.value := by
    have hlast := hshows.lasts hfrozen.host.kept hk hle
    obtain ⟨⟨m, b⟩, hview⟩ := Option.isSome_iff_exists.mp hlast.isSome
    obtain ⟨u, hviews, -⟩ := hk.views_of_view hview
    exact hk.mirrors hlast.spells (hk.settled_of_views hviews)
  exact ⟨hmirrors hlater.host.kept, fun σ hσ => hmirrors (hlater.runs hσ).heap,
    fun bindings host'' sandbox hnew hnodup e he => Host.get_tableReaders hnew hnodup he⟩

/-- The view of a scope with a gap and a nested scope, on a new host. -/
theorem views_mirror_of_gap :
    let t : Scope.Table := ⟨[(.integer 1, .boolean true), (.integer 3, .text "x"),
      (.text "deep", .table [(.integer 1, .integer 7)])]⟩
    ∃ (host host' : Host) (v : Nat), Host.new none = .ok host ∧ (start host).Reaches (start host) ∧
      t.Keyed ∧ (t.Within fun f => (start host).Known (.function f)) ∧
      host.freeze t [] = (host', .ok v) ∧
      Session.Reaches { start host with host := host', views := v :: (start host).views }
        { start host with host := host', views := v :: (start host).views } ∧
      host'.heap.Mirrors (.table v) t.value := by
  intro t
  obtain ⟨host, hhost⟩ := Host.exists_new
  have hlimit : host.heap.limit = none := (Host.fresh_of_new hhost).limit
  have hkeyed : t.Keyed := by
    simp [t, Scope.Table.Keyed, Scope.Table.value, Scope.Value.Keyed, Scope.Value.entriesKeyed]
  have hwithin : t.Within fun f => (start host).Known (.function f) := by
    simp [t, Scope.Table.Within, Scope.Value.Within, Scope.Value.entriesWithin]
  have hfreeze := Host.freeze_of_limit hlimit hkeyed []
  exact ⟨host, _, _, hhost, .refl, hkeyed, hwithin, hfreeze, .refl,
    (views_mirror hhost .refl hkeyed hwithin hfreeze .refl).1⟩

end Session

end StoryPack
