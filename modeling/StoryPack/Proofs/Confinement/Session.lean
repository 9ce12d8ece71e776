/-
Sessions: all that is done with one host.

The owner of a host makes sandboxes, runs scripts in them, takes the scopes that
they leave, and has views of scopes made.  What it gives to scripts is plain
data, tables of its own, views, and what it has got from scripts before.

A script may be given up after any number of moves, so what is shown of
sessions holds in the middle of scripts as well.  The owner also decides when the
collector runs, so what is shown of sessions does not depend on that.

* `Session` — a host, and what its owner has got from it;
* `Session.Step` — one thing that the owner does;
* `Session.Reaches` — any number of them.
-/
import StoryPack.Proofs.Confinement.Host

namespace StoryPack

open Script

/-- A function is somewhere in a scope. -/
def Scope.Table.Mentions (t : Scope.Table) (f : Function) : Prop := ¬t.Within (· ≠ f)

mutual

theorem Scope.Value.Within.mono {F G : Function → Prop} (hFG : ∀ f, F f → G f) :
    (v : Scope.Value) → v.Within F → v.Within G
  | .table entries, hv => Scope.Value.entriesWithin.mono hFG entries hv
  | .function f, hv => hFG f hv
  | .boolean _, _ | .integer _, _ | .number _, _ | .text _, _ => trivial

theorem Scope.Value.entriesWithin.mono {F G : Function → Prop} (hFG : ∀ f, F f → G f) :
    (entries : List (Scope.Key × Scope.Value)) → Scope.Value.entriesWithin F entries →
      Scope.Value.entriesWithin G entries
  | [], _ => trivial
  | (_, v) :: rest, hv =>
    ⟨Scope.Value.Within.mono hFG v hv.1, Scope.Value.entriesWithin.mono hFG rest hv.2⟩

end

/-- What holds of all functions of a scope holds of one that is in it. -/
theorem Scope.Table.Within.of_mentions {F : Function → Prop} {t : Scope.Table} (ht : t.Within F)
    {f : Function} (hf : t.Mentions f) : F f := by
  refine Classical.byContradiction fun hF => hf ?_
  refine Scope.Value.entriesWithin.mono (fun g hg => ?_) t.entries ht
  rintro rfl
  exact hF hg

/-- The host whose collector runs at another pace. -/
def Host.paced (host : Host) (pace : Pace) : Host :=
  host.withHeap { host.heap with pace := pace }

/-- A host, and what its owner has got from it. -/
structure Session where
  host : Host
  /-- The values that scripts have given. -/
  values : List Value := []
  sandboxes : List Sandbox := []
  /-- The tables that have been added for scripts to fill. -/
  tables : List Nat := []
  scopes : List Scope.Table := []
  views : List Nat

namespace Session

/-- The session with a new host. -/
def start (host : Host) : Session :=
  { host := host, views := [host.strings, host.tables, host.maths] }

/-- The tables of the owner. -/
def own (s : Session) : List Nat := s.sandboxes.map Sandbox.env ++ s.tables

/-- The values that the owner may give to scripts. -/
inductive Known (s : Session) : Value → Prop
  | plain {v : Value} (ht : ∀ r, v ≠ .table r) (hf : ∀ f, v ≠ .function f) : Known s v
  | value {v : Value} (hv : v ∈ s.values) : Known s v
  | table {r : Nat} (hr : r ∈ s.own) : Known s (.table r)
  | view {r : Nat} (hr : r ∈ s.views) : Known s (.table r)
  | taken {t : Scope.Table} {f : Function} (ht : t ∈ s.scopes) (hf : t.Mentions f) :
    Known s (.function f)

/-- The values that a call has given. -/
def given {ε : Type} : Except ε (List Value) → List Value
  | .ok vs => vs
  | .error _ => []

/-- What has been made, if there was memory for it. -/
def made {ε α : Type} : Except ε α → List α
  | .ok a => [a]
  | .error _ => []

/-- One thing that the owner of a host does. -/
inductive Step (s : Session) : Session → Prop
  | newSandbox {bindings : List (String × Value)} (hbindings : ∀ e ∈ bindings, s.Known e.2) :
    Step s { s with
      host := (s.host.newSandbox bindings).1
      sandboxes := made (s.host.newSandbox bindings).2 ++ s.sandboxes }
  /-- A script is run until it ends, or is given up before. -/
  | execute {sandbox : Sandbox} (hsandbox : sandbox ∈ s.sandboxes) (patience : Nat)
      (source : ByteArray) (label : String) (budget : Option Nat) :
    Step s { s with
      host := (s.host.executeWithin patience sandbox source label budget).1
      values := given (s.host.executeWithin patience sandbox source label budget).2 ++ s.values }
  | takeScope {sandbox : Sandbox} (hsandbox : sandbox ∈ s.sandboxes) {scope label : String}
      {t : Scope.Table} (ht : s.host.takeScope sandbox scope label = .ok t) :
    Step s { s with scopes := t :: s.scopes }
  | freeze {t : Scope.Table} (ht : t.Within fun f => s.Known (.function f)) (roots : List Value) :
    Step s { s with
      host := (s.host.freeze t roots).1
      views := made (s.host.freeze t roots).2 ++ s.views }
  | newTable : Step s { s with
      host := s.host.newTable.1
      tables := made s.host.newTable.2 ++ s.tables }
  /-- The value of a global variable is looked at. -/
  | get {sandbox : Sandbox} (hsandbox : sandbox ∈ s.sandboxes) (name : String) :
    Step s { s with values := s.host.get sandbox name :: s.values }
  /-- A key of a table of the owner is given a value. -/
  | put {r : Nat} (hr : r ∈ s.own) {k : Key} (hk : s.Known k.toValue) {v : Value}
      (hv : s.Known v) :
    Step s { s with host := s.host.withHeap (s.host.heap.setKey r k v) }
  | call {f : Value} (hf : s.Known f) {args : List Value} (hargs : ∀ v ∈ args, s.Known v) :
    Step s { s with
      host := (s.host.call f args).1
      values := given (s.host.call f args).2 ++ s.values }
  /-- Other values are kept from being lost. -/
  | hold (held : List Value) :
    Step s { s with host.interpreter.held := held }
  /-- The collector runs at another pace from now on. -/
  | pace (pace : Pace) :
    Step s { s with host := s.host.paced pace }

/-- Any number of steps. -/
inductive Reaches (s : Session) : Session → Prop
  | refl : Reaches s s
  | step {s' s'' : Session} (h : Reaches s s') (hs : Step s' s'') : Reaches s s''

/-- What is fixed is as it was, and the owner has nothing that scripts must not hold. -/
structure Confined (W : Ward) (s : Session) : Prop where
  host : s.host.Confined W
  values : Oks W s.host.heap.tables.size s.values
  own : ∀ r ∈ s.own, r < s.host.heap.tables.size ∧ W.tables r = none
  scopes : ∀ t ∈ s.scopes, t.Within fun f => (Value.function f).Ok W s.host.heap.tables.size
  views : ∀ r ∈ s.views, (W.views r).isSome

variable {W : Ward} {s s' : Session}

namespace Confined

theorem known (hs : s.Confined W) {v : Value} (hv : s.Known v) :
    v.Ok W s.host.heap.tables.size := by
  cases hv with
  | plain ht hf =>
    cases v with
    | table r => exact absurd rfl (ht r)
    | function f => exact absurd rfl (hf f)
    | _ => trivial
  | value hv => exact hs.values v hv
  | table hr => exact ⟨(hs.own _ hr).1, .inl (hs.own _ hr).2⟩
  | view hr =>
    obtain ⟨⟨m, b⟩, hview⟩ := Option.isSome_iff_exists.mp (hs.views _ hr)
    exact ⟨hs.host.kept.lt_of_fixed (hs.host.kept.sound.view hview).1, .inr (hs.views _ hr)⟩
  | taken ht hf => exact (hs.scopes _ ht).of_mentions hf

/-- The same with another host, when nothing more is fixed. -/
theorem withHost (hs : s.Confined W) {host : Host} (hh : host.Confined W)
    (hsize : s.host.heap.tables.size ≤ host.heap.tables.size) :
    Confined W { s with host := host } where
  host := hh
  values := hs.values.mono hsize
  own r hr := ⟨Nat.lt_of_lt_of_le (hs.own r hr).1 hsize, (hs.own r hr).2⟩
  scopes t ht :=
    Scope.Value.entriesWithin.mono (fun _ hf => hf.mono hsize) t.entries (hs.scopes t ht)
  views := hs.views

/-- More values have been given. -/
theorem give (hs : s.Confined W) {vs : List Value} (hvs : Oks W s.host.heap.tables.size vs) :
    Confined W { s with values := vs ++ s.values } :=
  { hs with values := Oks.append_iff.mpr ⟨hvs, hs.values⟩ }

theorem given_ok {ε : Type} {n : Nat} {r : Except ε (List Value)}
    (hr : ∀ vs, r = .ok vs → Oks W n vs) : Oks W n (given r) := by
  cases r with
  | ok vs => exact hr vs rfl
  | error e => exact .nil

theorem mem_made {ε α : Type} {r : Except ε α} {a : α} : a ∈ made r ↔ r = .ok a := by
  cases r <;> simp [made, eq_comm]

/-- Tables that scripts may fill have been added, if any. -/
theorem withTables (hs : s.Confined W) {host : Host} (hh : host.Confined W)
    (hfollows : s.host.heap.Follows W host.heap) (rs : List Nat)
    (hrs : ∀ r ∈ rs, r < host.heap.tables.size ∧ W.tables r = none) :
    ∀ r ∈ rs ++ s.own, r < host.heap.tables.size ∧ W.tables r = none := by
  intro r hr
  rcases List.mem_append.mp hr with hr | hr
  · exact hrs r hr
  · exact (hs.withHost hh hfollows.size).own r hr

theorem newSandbox (hs : s.Confined W) {bindings : List (String × Value)}
    (hbindings : ∀ e ∈ bindings, s.Known e.2) :
    Confined W { s with
      host := (s.host.newSandbox bindings).1
      sandboxes := made (s.host.newSandbox bindings).2 ++ s.sandboxes } := by
  obtain ⟨hh, hfollows, hsize, hmade⟩ :=
    Host.newSandbox_kept hs.host fun e he => hs.known (hbindings e he)
  refine { hs.withHost hh hfollows.size with own := fun r hr => ?_ }
  refine hs.withTables hh hfollows ((made (s.host.newSandbox bindings).2).map Sandbox.env)
    (fun r hr => ?_) r ?_
  · obtain ⟨sandbox, hsandbox, rfl⟩ := List.mem_map.mp hr
    obtain ⟨henv, hfree⟩ := hmade sandbox (mem_made.mp hsandbox)
    exact ⟨by omega, hfree⟩
  · simpa [Session.own] using hr

theorem env_ok (hs : s.Confined W) {sandbox : Sandbox} (hsandbox : sandbox ∈ s.sandboxes) :
    (Value.table sandbox.env).Ok W s.host.heap.tables.size := by
  have henv : sandbox.env ∈ s.own := List.mem_append_left _ (List.mem_map_of_mem hsandbox)
  exact hs.known (.table henv)

theorem get (hs : s.Confined W) {sandbox : Sandbox} (hsandbox : sandbox ∈ s.sandboxes)
    (name : String) : (s.host.get sandbox name).Ok W s.host.heap.tables.size :=
  Host.get_ok hs.host (hs.env_ok hsandbox) name

theorem newTable (hs : s.Confined W) :
    Confined W { s with
      host := s.host.newTable.1
      tables := made s.host.newTable.2 ++ s.tables } := by
  obtain ⟨hh, hfollows, hsize, hmade⟩ := Host.newTable_kept hs.host
  refine { hs.withHost hh hfollows.size with own := fun r hr => ?_ }
  refine hs.withTables hh hfollows (made s.host.newTable.2) (fun r hr => ?_) r ?_
  · obtain ⟨hr, hfree⟩ := hmade r (mem_made.mp hr)
    exact ⟨by omega, hfree⟩
  · simp only [Session.own, List.mem_append] at hr ⊢
    tauto

theorem put (hs : s.Confined W) {r : Nat} (hr : r ∈ s.own) {k : Key} (hk : s.Known k.toValue)
    {v : Value} (hv : s.Known v) :
    Confined W { s with host := s.host.withHeap (s.host.heap.setKey r k v) } := by
  have hkept := hs.host.kept.setKey (hs.own r hr).2 (hs.known hk) (hs.known hv)
  have hsize : s.host.heap.tables.size ≤ (s.host.heap.setKey r k v).tables.size :=
    Nat.le_of_eq (Heap.size_setKey ..).symm
  exact hs.withHost (hs.host.withHeap hsize hkept) hsize

theorem freeze (hs : s.Confined W) {t : Scope.Table}
    (ht : t.Within fun f => s.Known (.function f)) (roots : List Value) :
    Confined (Host.frozenWard W s.host t) { s with
      host := (s.host.freeze t roots).1
      views := made (s.host.freeze t roots).2 ++ s.views } ∧
      (Host.frozenWard W s.host t).Contains W := by
  have ht' := Scope.Value.entriesWithin.mono (fun f hf => hs.known hf) t.entries ht
  obtain ⟨hh, hle, -, hsize, hmade, hok⟩ := Host.freeze_kept hs.host ht' roots
  refine ⟨⟨hh, fun w hw => hok w (hs.values w hw), fun r hr => ?_, fun t' ht' => ?_,
    fun r hr => ?_⟩, hle⟩
  · have hlt := (hs.own r hr).1
    exact ⟨Nat.lt_of_lt_of_le hlt hsize, (if_pos hlt).trans (hs.own r hr).2⟩
  · exact Scope.Value.entriesWithin.mono (fun f hf => hok _ hf) t'.entries (hs.scopes t' ht')
  · rcases List.mem_append.mp hr with hr | hr
    · exact (hmade r (mem_made.mp hr)).2.2 r rfl
    · obtain ⟨p, hp⟩ := Option.isSome_iff_exists.mp (hs.views r hr)
      rw [hle.views hp]
      rfl

/-- What the owner of a host does keeps what is fixed, and only a view that is added needs to be
fixed besides. -/
theorem step_cases (hs : s.Confined W) (h : s.Step s') :
    s'.Confined W ∨ ∃ (t : Scope.Table) (roots : List Value),
      (t.Within fun f => s.Known (.function f)) ∧
        s' = { s with
          host := (s.host.freeze t roots).1
          views := made (s.host.freeze t roots).2 ++ s.views } := by
  cases h with
  | newSandbox hbindings => exact .inl (hs.newSandbox hbindings)
  | execute hsandbox patience source label budget =>
    obtain ⟨hh, hfollows, hvalues⟩ :=
      Host.executeWithin_kept hs.host (hs.env_ok hsandbox) patience source label budget
    exact .inl ((hs.withHost hh hfollows.size).give (given_ok hvalues))
  | takeScope hsandbox ht =>
    have hwithin := Host.takeScope_within hs.host (hs.env_ok hsandbox) ht
    exact .inl { hs with scopes := List.forall_mem_cons.mpr ⟨hwithin, hs.scopes⟩ }
  | freeze ht roots => exact .inr ⟨_, roots, ht, rfl⟩
  | newTable => exact .inl hs.newTable
  | get hsandbox name =>
    have hget := hs.get hsandbox name
    exact .inl { hs with values := Oks.cons_iff.mpr ⟨hget, hs.values⟩ }
  | put hr hk hv => exact .inl (hs.put hr hk hv)
  | call hf hargs =>
    obtain ⟨hh, hfollows, hvalues⟩ :=
      Host.call_kept hs.host (hs.known hf) fun v hv => hs.known (hargs v hv)
    exact .inl ((hs.withHost hh hfollows.size).give (given_ok hvalues))
  | hold held =>
    have hh := hs.host.of_kept { s.host.interpreter with held := held } (Nat.le_refl _)
      hs.host.kept
    exact .inl (hs.withHost hh (Nat.le_refl _))
  | pace pace =>
    have hh := hs.host.withHeap (h := { s.host.heap with pace := pace }) (Nat.le_refl _)
      (hs.host.kept.congr rfl rfl rfl rfl)
    exact .inl (hs.withHost hh (Nat.le_refl _))

/-- What the owner of a host does keeps what is fixed, and may fix more. -/
theorem step (hs : s.Confined W) (h : s.Step s') :
    ∃ W' : Ward, W'.Contains W ∧ s'.Confined W' := by
  obtain hs' | ⟨t, roots, ht, rfl⟩ := hs.step_cases h
  · exact ⟨W, .refl W, hs'⟩
  · obtain ⟨hs', hle⟩ := hs.freeze ht roots
    exact ⟨_, hle, hs'⟩

theorem reaches (hs : s.Confined W) (h : s.Reaches s') :
    ∃ W' : Ward, W'.Contains W ∧ s'.Confined W' := by
  induction h with
  | refl => exact ⟨W, .refl W, hs⟩
  | step _ hstep ih =>
    obtain ⟨W', hle, hs'⟩ := ih
    obtain ⟨W'', hle', hs''⟩ := hs'.step hstep
    exact ⟨W'', hle'.trans hle, hs''⟩

end Confined

/-- The host at the start. -/
theorem start_confined {limit : Option Nat} {host : Host} (hhost : host.Fresh limit) :
    (start host).Confined (Guard.ward host.heap) := by
  refine ⟨⟨hhost.kept, hhost.libraries, hhost.calls⟩, .nil, fun r hr => ?_, fun t ht => ?_,
    fun r hr => ?_⟩
  · cases hr
  · cases ht
  · exact (hhost.libraries r hr).2 r rfl

end Session

end StoryPack
