/-
What a host does keeps what is fixed.

* `Host.newTable_kept`, `Host.newSandbox_kept` — tables and sandboxes;
* `Host.executeWithin_kept`, `Host.call_kept` — scripts and calls from outside,
  with what they give;
* `Host.takeScope_within` — the functions of a scope are those that its script
  could get hold of;
* `Host.freeze_kept` — a view that is added can be fixed.
-/
import StoryPack.Proofs.Confinement.Start
import StoryPack.Proofs.Confinement.View

namespace StoryPack

open Script

variable {W : Ward}

namespace Interpreter

/-- A compiled source in a sandbox. -/
theorem define_kept {s s' : Interpreter} {chunk source : ByteArray} {env : Nat} {f : Value}
    (hk : s.heap.Kept W) (henv : (Value.table env).Ok W s.heap.tables.size)
    (hf : s.define chunk source env = .ok (s', f)) :
    s.heap.Follows W s'.heap ∧ s'.heap.tables.size = s.heap.tables.size ∧
      f.Ok W s'.heap.tables.size := by
  obtain ⟨p, -, hf⟩ := exists_of_bind_eq_ok hf
  cases hf
  have hcell := hk.newCell henv
  have hfree := hk.newCell_free (.table env)
  let c : Closure := ⟨p, #[s.heap.cells.size]⟩
  have hclosure := hcell.newClosure (c := c) fun u hu => by
    rw [List.mem_singleton.mp (List.mem_toArray.mp hu)]
    exact hfree
  exact ⟨⟨.of_eq rfl rfl rfl, Nat.le_refl _, hclosure⟩, rfl, hcell.newClosure_ok c⟩

/-- A call from outside. -/
theorem call_kept {s : Interpreter} {f : Value} {args : List Value} (hk : s.heap.Kept W)
    (hf : f.Ok W s.heap.tables.size) (hargs : Oks W s.heap.tables.size args) :
    s.heap.Follows W (s.call f args).1.heap ∧
    (s.call f args).2.Ok W (s.call f args).1.heap.tables.size :=
  Heap.perform_leads hk Script.patience true none s.held hf.callable hargs

/-- The fault that an uncaught error is. -/
theorem faultOf_kept {s : Interpreter} {e : Failure} (hk : s.heap.Kept W)
    (he : e.Ok W s.heap.tables.size) :
    s.heap.Follows W (s.faultOf e).1.heap := by
  unfold faultOf
  split
  · exact .refl hk
  · exact .refl hk
  · exact .refl hk
  · rename_i v _ _
    have htostring : (Value.builtin (.base .tostring)).Ok W s.heap.tables.size := rfl
    have hargs : Oks W s.heap.tables.size [v] := Oks.cons_iff.mpr ⟨he, .nil⟩
    exact (call_kept hk htostring hargs).1

end Interpreter

namespace Host

variable {host host' : Host}

/-- What the host gives to sandboxes may be held by scripts. -/
structure Confined (W : Ward) (host : Host) : Prop where
  kept : host.heap.Kept W
  libraries : ∀ r ∈ [host.strings, host.tables, host.maths], (Value.table r).Settled W
  calls : ∀ v ∈ [host.pcall, host.xpcall], v.Ok W host.heap.tables.size

/-- A host with another heap that is kept. -/
theorem Confined.of_kept (hh : host.Confined W) (interpreter : Interpreter)
    (hsize : host.heap.tables.size ≤ interpreter.heap.tables.size)
    (hk : interpreter.heap.Kept W) : Confined W { host with interpreter := interpreter } where
  kept := hk
  libraries := hh.libraries
  calls v hv := (hh.calls v hv).mono hsize

theorem Confined.withHeap (hh : host.Confined W) {h : Heap}
    (hsize : host.heap.tables.size ≤ h.tables.size) (hk : h.Kept W) :
    (host.withHeap h).Confined W :=
  hh.of_kept { host.interpreter with heap := h } hsize hk

/-- Memory is looked for. -/
theorem afford_kept {α : Type} (hh : host.Confined W) (roots : List Value) (a : α) :
    (host.afford roots a).1.Confined W ∧
      host.heap.Follows W (host.afford roots a).1.heap ∧
      (host.afford roots a).1.heap.tables.size = host.heap.tables.size := by
  obtain h | ⟨hfull, r, -, h⟩ := host.afford_cases roots a
  · rw [h]
    exact ⟨hh, .refl hh.kept, rfl⟩
  · have hdue : host.heap.isDue = true := by
      rw [Heap.isDue, hfull]
      rfl
    have hcollected := Heap.Follows.collected hh.kept hdue (roots ++ host.interpreter.held) true
    rw [h]
    exact ⟨hh.withHeap hcollected.size hcollected.kept, hcollected, Heap.size_collected ..⟩

/-- A table that is added is not fixed. -/
theorem newEmpty_kept {h : Heap} (hk : h.Kept W) :
    (h.newTable {}).1.Kept W ∧ (h.newTable {}).1.tables.size = h.tables.size + 1 ∧
      W.tables h.tables.size = none := by
  refine ⟨hk.newTable (Table.free_empty W _), ?_, ?_⟩
  · simp [Heap.newTable]
  · cases ht : W.tables h.tables.size with
    | none => rfl
    | some t => exact absurd (hk.lt_of_fixed ht) (Nat.lt_irrefl _)

/-- A table that is added by the host. -/
theorem newTable_kept (hh : host.Confined W) :
    host.newTable.1.Confined W ∧ host.heap.Follows W host.newTable.1.heap ∧
      host.newTable.1.heap.tables.size = host.heap.tables.size + 1 ∧
      ∀ r, host.newTable.2 = .ok r → r = host.heap.tables.size ∧ W.tables r = none := by
  obtain ⟨hk, hsize, hfree⟩ := newEmpty_kept hh.kept
  have hle : host.heap.tables.size ≤ (host.heap.newTable {}).1.tables.size := by omega
  have hadded : host.heap.Follows W (host.heap.newTable {}).1 :=
    ⟨.of_eq rfl rfl rfl, hle, hk⟩
  obtain ⟨hconfined, hfollows, hsame⟩ := afford_kept (hh.withHeap hle hk)
    [.table host.heap.tables.size] host.heap.tables.size
  refine ⟨hconfined, hadded.trans hfollows, hsame.trans hsize, fun r hr => ?_⟩
  cases afford_ok hr
  exact ⟨rfl, hfree⟩

/-- The names of a sandbox are given their values. -/
theorem foldl_setName_kept {h : Heap} {env : Nat} (henv : W.tables env = none)
    (hk : h.Kept W) (es : List (String × Value)) (hes : ∀ e ∈ es, e.2.Ok W h.tables.size) :
    h.Follows W (es.foldl (fun h e => h.setName env e.1 e.2) h) ∧
      (es.foldl (fun h e => h.setName env e.1 e.2) h).tables.size = h.tables.size := by
  induction es generalizing h with
  | nil => exact ⟨.refl hk, rfl⟩
  | cons e es ih =>
    have hset := hk.setKey henv (k := .str e.1.toUTF8) trivial (hes e List.mem_cons_self)
    have hsize : (h.setName env e.1 e.2).tables.size = h.tables.size := Heap.size_setKey ..
    have hfollows : h.Follows W (h.setName env e.1 e.2) :=
      ⟨.of_eq rfl rfl rfl, Nat.le_of_eq hsize.symm, hset⟩
    have hrest := ih (h := h.setName env e.1 e.2) hset fun e' he' =>
      hsize ▸ hes e' (List.mem_cons_of_mem _ he')
    exact ⟨hfollows.trans hrest.1, hrest.2.trans hsize⟩

/-- What every sandbox holds from the start may be held by scripts. -/
theorem defaults_ok (hh : host.Confined W) {env : Nat}
    (henv : (Value.table env).Ok W (host.heap.tables.size + 1)) :
    ∀ e ∈ host.defaults env, e.2.Ok W (host.heap.tables.size + 1) := by
  have hsize := hh.kept.size
  have hlibrary {r : Nat} (hr : r ∈ [host.strings, host.tables, host.maths]) :
      (Value.table r).Ok W (host.heap.tables.size + 1) :=
    (hh.libraries r hr).1.mono (by omega)
  have hcall {v : Value} (hv : v ∈ [host.pcall, host.xpcall]) :
      v.Ok W (host.heap.tables.size + 1) := (hh.calls v hv).mono (by omega)
  intro e he
  simp only [defaults, List.mem_append, List.mem_map] at he
  rcases he with ((⟨b, hb, rfl⟩ | he) | ⟨b, hb, rfl⟩) | he
  · simp only [baseAllowed, List.mem_cons, List.not_mem_nil, or_false] at hb
    rcases hb with rfl | rfl | rfl | rfl | rfl | rfl | rfl | rfl | rfl | rfl | rfl <;> rfl
  · rw [List.mem_singleton.mp he]
    trivial
  · simp only [Interpreter.readers, List.mem_cons, List.not_mem_nil, or_false] at hb
    rcases hb with rfl | rfl | rfl <;> rfl
  · simp only [List.mem_cons, List.not_mem_nil, or_false] at he
    rcases he with rfl | rfl | rfl | rfl | rfl | rfl
    · exact hlibrary (by simp)
    · exact hlibrary (by simp)
    · exact hlibrary (by simp)
    · exact hcall (by simp)
    · exact hcall (by simp)
    · exact henv

/-- The table of a fresh sandbox is added. -/
theorem furnish_kept (hh : host.Confined W) {bindings : List (String × Value)}
    (hbindings : ∀ e ∈ bindings, e.2.Ok W host.heap.tables.size) :
    (host.furnish bindings).1.Confined W ∧ host.heap.Follows W (host.furnish bindings).1.heap ∧
      (host.furnish bindings).1.heap.tables.size = host.heap.tables.size + 1 := by
  obtain ⟨hk, hsize, hfree⟩ := newEmpty_kept hh.kept
  have hadded : host.heap.Follows W (host.heap.newTable {}).1 :=
    ⟨.of_eq rfl rfl rfl, by omega, hk⟩
  have hfold := foldl_setName_kept hfree hk (host.defaults host.heap.tables.size ++ bindings)
    fun e he => by
      rw [hsize]
      rcases List.mem_append.mp he with he | he
      · exact defaults_ok hh ⟨Nat.lt_succ_self _, .inl hfree⟩ e he
      · exact (hbindings e he).mono (Nat.le_succ _)
  have hnew : host.furnish bindings = (host.withHeap
      ((host.defaults host.heap.tables.size ++ bindings).foldl
        (fun h e => h.setName host.heap.tables.size e.1 e.2) (host.heap.newTable {}).1),
      ⟨host.heap.tables.size⟩) := rfl
  rw [hnew]
  generalize (host.defaults host.heap.tables.size ++ bindings).foldl
    (fun h e => h.setName host.heap.tables.size e.1 e.2) (host.heap.newTable {}).1 = g at hfold
  have hfollows := hadded.trans hfold.1
  exact ⟨hh.withHeap hfollows.size hfollows.kept, hfollows, hfold.2.trans hsize⟩

/-- A fresh sandbox. -/
theorem newSandbox_kept (hh : host.Confined W) {bindings : List (String × Value)}
    (hbindings : ∀ e ∈ bindings, e.2.Ok W host.heap.tables.size) :
    (host.newSandbox bindings).1.Confined W ∧
      host.heap.Follows W (host.newSandbox bindings).1.heap ∧
      (host.newSandbox bindings).1.heap.tables.size = host.heap.tables.size + 1 ∧
      ∀ sandbox, (host.newSandbox bindings).2 = .ok sandbox →
        sandbox.env = host.heap.tables.size ∧ W.tables sandbox.env = none := by
  obtain ⟨-, -, hfree⟩ := newEmpty_kept hh.kept
  obtain ⟨hfurnished, hfollows, hsize⟩ := furnish_kept hh hbindings
  have hnew : host.newSandbox bindings = (host.furnish bindings).1.afford
      [.table host.heap.tables.size] ⟨host.heap.tables.size⟩ := rfl
  rw [hnew]
  generalize (host.furnish bindings).1 = furnished at *
  obtain ⟨hconfined, hsame, hsize'⟩ := afford_kept hfurnished [.table host.heap.tables.size]
    (⟨host.heap.tables.size⟩ : Sandbox)
  refine ⟨hconfined, hfollows.trans hsame, hsize'.trans hsize, fun sandbox hsandbox => ?_⟩
  cases afford_ok hsandbox
  exact ⟨rfl, hfree⟩

/-- The function of a source. -/
theorem compile_kept (hh : host.Confined W) {sandbox : Sandbox}
    (henv : (Value.table sandbox.env).Ok W host.heap.tables.size) {source : ByteArray}
    {label : String} {f : Value} (hf : host.compile sandbox source label = .ok (host', f)) :
    host'.Confined W ∧ host.heap.Follows W host'.heap ∧
      host'.heap.tables.size = host.heap.tables.size ∧ f.Ok W host'.heap.tables.size := by
  unfold compile at hf
  dsimp only at hf
  split at hf
  · cases hf
  · split at hf
    · cases hf
    · split at hf
      · rename_i s g hdefine
        cases hf
        obtain ⟨hfollows, hsize, hg⟩ := Interpreter.define_kept hh.kept henv hdefine
        exact ⟨hh.of_kept s hfollows.size hfollows.kept, hfollows, hsize, hg⟩
      · cases hf
      · cases hf

/-- A script is run, for as many moves as there is patience for. -/
theorem executeWithin_kept (hh : host.Confined W) {sandbox : Sandbox}
    (henv : (Value.table sandbox.env).Ok W host.heap.tables.size) (patience : Nat)
    (source : ByteArray) (label : String) (budget : Option Nat) :
    let r := executeWithin patience host sandbox source label budget
    r.1.Confined W ∧ host.heap.Follows W r.1.heap ∧
      ∀ vs, r.2 = .ok vs → Oks W r.1.heap.tables.size vs := by
  dsimp only
  unfold executeWithin
  split
  · exact ⟨hh, .refl hh.kept, fun vs hvs => by cases hvs⟩
  · rename_i host' f hf
    obtain ⟨hh', hcompiled, -, hfok⟩ := compile_kept hh henv hf
    let s := (host'.withHeap { host'.heap with tripped := false }).interpreter.hold
      (.table sandbox.env)
    have hk : s.heap.Kept W := hh'.kept.congr rfl rfl rfl rfl
    have hrun := Heap.perform_leads hk patience false budget s.held hfok.callable .nil
    have hexecute : s.execute patience budget f =
        ({ s with heap := (s.heap.perform patience false budget s.held f []).1 },
          (s.heap.perform patience false budget s.held f []).2) := rfl
    dsimp only
    rw [show (host'.withHeap { host'.heap with tripped := false }).interpreter.hold
      (.table sandbox.env) = s from rfl, hexecute]
    generalize s.heap.perform patience false budget s.held f [] = p at hrun
    obtain ⟨g, r⟩ := p
    obtain ⟨hg, hr⟩ := hrun
    -- the mark of the last run is cleared before
    have hstarted : host'.heap.Sheds s.heap := .of_eq rfl rfl rfl
    have hfollows : host.heap.Follows W g :=
      hcompiled.trans ⟨hstarted.trans hg.toSheds, hg.size, hg.kept⟩
    have hend : Confined W
        { host' with interpreter := { s with heap := g, held := host'.interpreter.held } } :=
      hh'.of_kept _ hg.size hg.kept
    cases r with
    | unfinished => exact ⟨hend, hfollows, fun vs hvs => by cases hvs⟩
    | values vs =>
      dsimp only
      split
      · exact ⟨hend, hfollows, fun vs hvs => by cases hvs⟩
      · refine ⟨hend, hfollows, fun vs' hvs => ?_⟩
        cases hvs
        exact hr
    | failed e =>
      dsimp only
      split
      · exact ⟨hend, hfollows, fun vs hvs => by cases hvs⟩
      · have hfault := Interpreter.faultOf_kept (e := e) hend.kept hr
        exact ⟨hend.of_kept _ hfault.size hfault.kept, hfollows.trans hfault,
          fun vs hvs => by cases hvs⟩

/-- A call from outside of any script. -/
theorem call_kept (hh : host.Confined W) {f : Value} {args : List Value}
    (hf : f.Ok W host.heap.tables.size) (hargs : Oks W host.heap.tables.size args) :
    (host.call f args).1.Confined W ∧ host.heap.Follows W (host.call f args).1.heap ∧
      ∀ vs, (host.call f args).2 = .ok vs → Oks W (host.call f args).1.heap.tables.size vs := by
  have hcall := Interpreter.call_kept hh.kept hf hargs
  unfold call
  generalize host.interpreter.call f args = p at hcall
  obtain ⟨s, r⟩ := p
  obtain ⟨hfollows, hr⟩ := hcall
  have hend : Confined W { host with interpreter := s } :=
    hh.of_kept s hfollows.size hfollows.kept
  cases r with
  | unfinished => exact ⟨hend, hfollows, fun vs hvs => by cases hvs⟩
  | values vs =>
    refine ⟨hend, hfollows, fun vs' hvs => ?_⟩
    cases hvs
    exact hr
  | failed e =>
    have hfault := Interpreter.faultOf_kept hfollows.kept hr
    exact ⟨hend.of_kept _ hfault.size hfault.kept, hfollows.trans hfault,
      fun vs hvs => by cases hvs⟩

/-- Scripts may hold what a name of a sandbox holds. -/
theorem get_ok (hh : host.Confined W) {sandbox : Sandbox}
    (henv : (Value.table sandbox.env).Ok W host.heap.tables.size) (name : String) :
    (host.get sandbox name).Ok W host.heap.tables.size := by
  rw [get, Heap.getName, Heap.getKey_eq]
  exact hh.kept.get_ok henv.2 _

/-- The functions of a scope are those that its script could get hold of. -/
theorem takeScope_within (hh : host.Confined W) {sandbox : Sandbox}
    (henv : (Value.table sandbox.env).Ok W host.heap.tables.size) {scope label : String}
    {t : Scope.Table} (ht : host.takeScope sandbox scope label = .ok t) :
    t.Within fun f => (Value.function f).Ok W host.heap.tables.size := by
  have hk := hh.kept
  have hread (r : Nat) (hr : (Value.table r).Ok W host.heap.tables.size) :
      (host.heap.table (host.heap.readThrough r)).Holds (Value.Ok W host.heap.tables.size) :=
    hk.holds_of_readable (hk.readThrough_readable hr)
  unfold takeScope at ht
  split at ht
  · rename_i r hr
    split at ht
    · rename_i hsnapshot
      cases ht
      have hget := get_ok hh henv scope
      rw [hr] at hget
      exact Heap.snapshot_within (admits_ok W _) hread (fun f hf => hf) (hread r hget) hsnapshot
    · cases ht
  · cases ht

/-- The ward after a view has been added. -/
def frozenWard (W : Ward) (host : Host) (t : Scope.Table) : Ward :=
  W.extend host.heap.tables.size (host.heap.freeze t).1

/-- A view that is added can be fixed. -/
theorem freeze_kept (hh : host.Confined W) {t : Scope.Table}
    (ht : t.Within fun f => (Value.function f).Ok W host.heap.tables.size) (roots : List Value) :
    (host.freeze t roots).1.Confined (frozenWard W host t) ∧
      (frozenWard W host t).Contains W ∧
      (host.heap.freeze t).1.Follows (frozenWard W host t) (host.freeze t roots).1.heap ∧
      host.heap.tables.size ≤ (host.freeze t roots).1.heap.tables.size ∧
      (∀ v, (host.freeze t roots).2 = .ok v →
        v = (host.heap.freeze t).2 ∧ (Value.table v).Settled (frozenWard W host t)) ∧
      ∀ w : Value, w.Ok W host.heap.tables.size →
        w.Ok (frozenWard W host t) (host.freeze t roots).1.heap.tables.size := by
  have hk := hh.kept
  have hdeny : ¬(Value.function (.builtin (.view .deny))).Ok W host.heap.tables.size := by
    intro h
    cases h
  have hnew : host.heap.Viewed (fun f => (Value.function f).Ok W host.heap.tables.size)
      host.heap.tables.size := fun r m hr hm => absurd (Heap.lt_of_metatable hm) (Nat.not_lt.mpr hr)
  obtain ⟨hviewed, hext, hfrozen⟩ := Heap.freeze_viewed hdeny (Nat.le_refl _) hnew ht
  have hg : (host.heap.freeze t).1.Kept (frozenWard W host t) := hk.extend hext hviewed
  have hok {w : Value} (hw : w.Ok W host.heap.tables.size) :
      w.Ok (frozenWard W host t) (host.heap.freeze t).1.tables.size :=
    Heap.Kept.extend_ok hext hw
  have hle : (frozenWard W host t).Contains W :=
    ⟨fun hr => hk.extend_tables hr, fun hr => hk.extend_views hr, rfl, rfl, rfl, rfl, rfl⟩
  have hadded : (host.withHeap (host.heap.freeze t).1).Confined (frozenWard W host t) :=
    ⟨hg, fun r hr => hk.extend_settled hext (hh.libraries r hr), fun w hw => hok (hh.calls w hw)⟩
  obtain ⟨hconfined, hfollows, hsize⟩ := afford_kept hadded
    (.table (host.heap.freeze t).2 :: roots) (host.heap.freeze t).2
  refine ⟨hconfined, hle, hfollows, Nat.le_trans hext.size hfollows.size, fun v hv => ?_,
    fun w hw => (hok hw).mono hfollows.size⟩
  cases afford_ok hv
  exact ⟨rfl, Heap.Kept.extend_frozen hviewed hfrozen⟩

end Host

end StoryPack
