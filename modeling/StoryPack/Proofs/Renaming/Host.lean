/-
Hosts whose references are renamed.

What a host does for its owner is done in the same way by a host whose
references are renamed: sandboxes are made, scripts run, and scopes taken and
frozen, with the same results but for references.

* `Host.Renamed` — a host is another one with its references renamed;
* `Host.Renamed.executeWithin` — a script is run;
* `Host.Renamed.newSandbox`, `Host.Renamed.takeScope`, `Host.Renamed.freeze` —
  what is done before and after.
-/
import StoryPack.Proofs.Renaming.Run
import StoryPack.Proofs.Renaming.Scope
import StoryPack.Proofs.Confinement.Bindings
import StoryPack.Proofs.Confinement.Host

namespace StoryPack

open Script

variable {σ : Renaming} {W W' : Ward} {n n' : Nat}

namespace Interpreter

variable {s u : Interpreter}

/-- The function of a source, in corresponding tables. -/
theorem define_renamed (hs : s.heap.Renamed σ u.heap) (chunk source : ByteArray) (env : Nat) :
    (∃ e, s.define chunk source env = .error e ∧ u.define chunk source (σ.table env) = .error e) ∨
      ∃ t t' f, s.define chunk source env = .ok (t, f) ∧
        u.define chunk source (σ.table env) = .ok (t', σ.value f) ∧ t.heap.Renamed σ t'.heap := by
  unfold define
  cases Script.compile chunk source with
  | error e => exact .inl ⟨e, rfl, rfl⟩
  | ok p =>
    obtain ⟨hcells, hcell⟩ := hs.newCell (.table env)
    have hclosed : σ.closed ⟨p, #[(s.heap.newCell (.table env)).2]⟩ =
        ⟨p, #[(u.heap.newCell (.table (σ.table env))).2]⟩ := by
      rw [← σ.value_table, hcell]
      simp [Renaming.closed]
    have hnew := hcells.newClosure ⟨p, #[(s.heap.newCell (.table env)).2]⟩
    rw [hclosed] at hnew
    let t : Interpreter := { s with heap := ((s.heap.newCell (.table env)).1.newClosure
      ⟨p, #[(s.heap.newCell (.table env)).2]⟩).1 }
    let t' : Interpreter := { u with heap := ((u.heap.newCell (.table (σ.table env))).1.newClosure
      ⟨p, #[(u.heap.newCell (.table (σ.table env))).2]⟩).1 }
    refine .inr ⟨t, t', _, rfl, ?_, hnew.1⟩
    exact congrArg (fun r => Except.ok (t', Value.function (.closure r))) hnew.2

/-- A call from outside. -/
theorem call_renamed (hs : s.heap.Renamed σ u.heap) (hσ : σ.Shields W W' n n')
    (hk : s.heap.Kept W) (hk' : u.heap.Kept W') {f : Value} (hf : f.Callable W s.heap.tables.size)
    (hf' : (σ.value f).Callable W' u.heap.tables.size) {args : List Value}
    (hargs : Oks W s.heap.tables.size args) (hargs' : Oks W' u.heap.tables.size (σ.values args))
    (hv : s.heap.Spares n (s.call f args).1.heap)
    (hv' : u.heap.Spares n' (u.call (σ.value f) (σ.values args)).1.heap) :
    (s.call f args).1.heap.Renamed σ (u.call (σ.value f) (σ.values args)).1.heap ∧
      (u.call (σ.value f) (σ.values args)).2 = σ.conclusion (s.call f args).2 :=
  hs.perform hσ hk hk' Script.patience true none s.held u.held hf hf' hargs hargs' hv hv'

theorem shownFault_renamed (hs : s.heap.Renamed σ u.heap) (v : Value) (r : Conclusion) :
    u.shownFault (σ.value v) (σ.conclusion r) = s.shownFault v r := by
  have hother : HostFault.runtime (σ.value v).typeName.toUTF8 = .runtime v.typeName.toUTF8 := by
    rw [σ.typeName_value]
  cases r with
  | unfinished => exact hother
  | values vs =>
    cases vs with
    | nil => exact hother
    | cons w vs =>
      cases w with
      | str b => rfl
      | _ => exact hother
  | failed e =>
    cases e with
    | memory => rfl
    | thrown w =>
      cases w with
      | str b => rfl
      | fault r =>
        show (u.heap.faults[σ.fault r]?).getD default = (s.heap.faults[r]?).getD default
        rw [hs.fault]
      | _ => exact hother

/-- The fault that an uncaught error is. -/
theorem faultOf_renamed (hs : s.heap.Renamed σ u.heap) (hσ : σ.Shields W W' n n')
    (hk : s.heap.Kept W) (hk' : u.heap.Kept W') {e : Failure} (he : e.Ok W s.heap.tables.size)
    (he' : (σ.failure e).Ok W' u.heap.tables.size)
    (hv : s.heap.Spares n (s.faultOf e).1.heap)
    (hv' : u.heap.Spares n' (u.faultOf (σ.failure e)).1.heap) :
    (s.faultOf e).1.heap.Renamed σ (u.faultOf (σ.failure e)).1.heap ∧
      (u.faultOf (σ.failure e)).2 = (s.faultOf e).2 := by
  cases e with
  | memory => exact ⟨hs, rfl⟩
  | thrown v =>
    -- a value that is no string and no error object is shown as a text
    have hshown (hv : s.heap.Spares n (s.call (.builtin (.base .tostring)) [v]).1.heap)
        (hv' : u.heap.Spares n' (u.call (.builtin (.base .tostring)) [σ.value v]).1.heap) :
        (s.call (.builtin (.base .tostring)) [v]).1.heap.Renamed σ
          (u.call (.builtin (.base .tostring)) [σ.value v]).1.heap ∧
        (u.call (.builtin (.base .tostring)) [σ.value v]).1.shownFault (σ.value v)
          (u.call (.builtin (.base .tostring)) [σ.value v]).2 =
        (s.call (.builtin (.base .tostring)) [v]).1.shownFault v
          (s.call (.builtin (.base .tostring)) [v]).2 := by
      obtain ⟨hheap, hend⟩ := call_renamed hs hσ hk hk' (f := .builtin (.base .tostring)) (.inl rfl)
        (.inl rfl) (Oks.cons_iff.mpr ⟨he, .nil⟩) (Oks.cons_iff.mpr ⟨he', .nil⟩) hv hv'
      refine ⟨hheap, ?_⟩
      rw [← shownFault_renamed hheap v]
      exact congrArg _ hend
    cases v with
    | str b => exact ⟨hs, rfl⟩
    | fault r =>
      refine ⟨hs, ?_⟩
      show (u.heap.faults[σ.fault r]?).getD default = (s.heap.faults[r]?).getD default
      rw [hs.fault]
    | _ => exact hshown hv hv'

end Interpreter

namespace Host

/-- What becomes of a script when its run has ended. -/
def ended (host : Host) (label : String) (budget : Option Nat) (s : Interpreter) :
    Conclusion → Host × Except ScriptFault (List Value)
  | .unfinished =>
    ({ host with interpreter := s }, .error (.runtime label Interpreter.unfinishedMessage))
  | .values vs =>
    if s.heap.tripped then
      ({ host with interpreter := s }, .error (.resourceLimit label (budget.getD 0)))
    else ({ host with interpreter := s }, .ok vs)
  | .failed e =>
    if s.heap.tripped then
      ({ host with interpreter := s }, .error (.resourceLimit label (budget.getD 0)))
    else
      ({ host with interpreter := (s.faultOf e).1 },
        .error (.runtime label (Utf8.lossy (s.faultOf e).2.message)))

theorem executeWithin_of_compile {host host' : Host} {sandbox : Sandbox} {source : ByteArray}
    {label : String} {f : Value} (hf : host.compile sandbox source label = .ok (host', f))
    (patience : Nat) (budget : Option Nat) :
    executeWithin patience host sandbox source label budget =
      let p := Heap.perform { host'.heap with tripped := false } patience false budget
        (.table sandbox.env :: host'.interpreter.held) f []
      host'.ended label budget { host'.interpreter with heap := p.1 } p.2 := by
  unfold executeWithin
  rw [hf]
  rfl

/-- Entries only vanish. -/
theorem vanished_ended (host : Host) {s : Interpreter} (hk : s.heap.Kept W) {r : Conclusion}
    (hr : r.Ok W s.heap.tables.size) (label : String) (budget : Option Nat) :
    s.heap.vanished <:+ (host.ended label budget s r).1.heap.vanished := by
  cases r with
  | unfinished => exact List.suffix_rfl
  | values vs =>
    unfold ended
    dsimp only
    split <;> exact List.suffix_rfl
  | failed e =>
    unfold ended
    dsimp only
    split
    · exact List.suffix_rfl
    · exact (Interpreter.faultOf_kept hk hr).vanished

end Host

/-- A host is another one with its references renamed. What the hosts keep from being lost does not
matter. -/
structure Host.Renamed (σ : Renaming) (host host' : Host) : Prop where
  heap : host.heap.Renamed σ host'.heap
  strings : host'.strings = σ.table host.strings
  tables : host'.tables = σ.table host.tables
  maths : host'.maths = σ.table host.maths
  pcall : host'.pcall = σ.value host.pcall
  xpcall : host'.xpcall = σ.value host.xpcall

/-- Bindings with their references renamed. -/
def Script.Renaming.bindings (σ : Renaming) (bs : List (String × Value)) : List (String × Value) :=
  bs.map fun b => (b.1, σ.value b.2)

/-- The names of a sandbox are given their values. -/
theorem Script.Heap.Renamed.foldl_setName {h h' : Heap} (hh : h.Renamed σ h') (env : Nat)
    (bs : List (String × Value)) :
    (bs.foldl (fun h e => h.setName env e.1 e.2) h).Renamed σ
      ((σ.bindings bs).foldl (fun h e => h.setName (σ.table env) e.1 e.2) h') := by
  induction bs generalizing h h' with
  | nil => exact hh
  | cons b bs ih => exact ih (hh.setName env b.1 b.2)

namespace Host.Renamed

variable {host host' : Host} (hh : host.Renamed σ host')

include hh

/-- The same with other heaps that correspond. -/
theorem withInterpreter {s u : Interpreter} (hs : s.heap.Renamed σ u.heap) :
    Renamed σ { host with interpreter := s } { host' with interpreter := u } :=
  { hh with heap := hs }

theorem withHeap {h h' : Heap} (hheap : h.Renamed σ h') :
    (host.withHeap h).Renamed σ (host'.withHeap h') := { hh with heap := hheap }

/-- There is memory for a table in both. -/
theorem newTable : ∃ host₁ host₁' r, host.newTable = (host₁, .ok r) ∧
    host'.newTable = (host₁', .ok (σ.table r)) ∧ host₁.Renamed σ host₁' ∧
      host₁.heap.vanished = host.heap.vanished ∧ host₁'.heap.vanished = host'.heap.vanished := by
  have hempty : Table.Renamed σ {} {} := Table.renamed_empty 0 none
  obtain ⟨hheap, hr⟩ := hh.heap.newTable hempty
  have hr : host'.heap.tables.size = σ.table host.heap.tables.size := hr
  refine ⟨_, _, _, Host.newTable_of_limit hh.heap.limit, ?_, hh.withHeap hheap, rfl, rfl⟩
  rw [Host.newTable_of_limit hh.heap.limit', hr]

theorem hold (v v' : Value) : (host.hold v).Renamed σ (host'.hold v') := { hh with heap := hh.heap }

theorem defaults (env : Nat) : host'.defaults (σ.table env) = σ.bindings (host.defaults env) := by
  unfold Host.defaults
  rw [hh.strings, hh.tables, hh.maths, hh.pcall, hh.xpcall]
  simp only [Renaming.bindings, List.map_append, List.map_map]
  rfl

theorem furnish (bs : List (String × Value)) :
    (host.furnish bs).1.Renamed σ (host'.furnish (σ.bindings bs)).1 := by
  have hempty : Table.Renamed σ {} {} := Table.renamed_empty 0 none
  obtain ⟨hheap, henv⟩ := hh.heap.newTable hempty
  have hfold := hheap.foldl_setName (host.heap.newTable {}).2
    (host.defaults (host.heap.newTable {}).2 ++ bs)
  have hbindings : σ.bindings (host.defaults (host.heap.newTable {}).2 ++ bs) =
      host'.defaults (host'.heap.newTable {}).2 ++ σ.bindings bs := by
    rw [henv, hh.defaults]
    exact List.map_append
  rw [hbindings, ← henv] at hfold
  exact hh.withHeap hfold

/-- There is memory for a sandbox in both. -/
theorem newSandbox (bs : List (String × Value)) : ∃ host₁ host₁' env,
    host.newSandbox bs = (host₁, .ok ⟨env⟩) ∧
      host'.newSandbox (σ.bindings bs) = (host₁', .ok ⟨σ.table env⟩) ∧ host₁.Renamed σ host₁' ∧
      host₁.heap.vanished = host.heap.vanished ∧ host₁'.heap.vanished = host'.heap.vanished := by
  have hr : host'.heap.tables.size = σ.table host.heap.tables.size :=
    hh.heap.tables.size.symm
  obtain ⟨tables, used, hheap⟩ := host.rest_furnish bs
  obtain ⟨tables', used', hheap'⟩ := host'.rest_furnish (σ.bindings bs)
  refine ⟨_, _, _, Host.newSandbox_of_limit hh.heap.limit, ?_, hh.furnish bs, by rw [hheap],
    by rw [hheap']⟩
  rw [Host.newSandbox_of_limit hh.heap.limit', hr]

/-- The function of a source: both are refused for the same reason, or both are functions. -/
theorem compile (sandbox : Sandbox) (source : ByteArray) (label : String) :
    (∃ f, host.compile sandbox source label = .error f ∧
        host'.compile ⟨σ.table sandbox.env⟩ source label = .error f) ∨
      ∃ host₁ host₁' f, host.compile sandbox source label = .ok (host₁, f) ∧
        host'.compile ⟨σ.table sandbox.env⟩ source label = .ok (host₁', σ.value f) ∧
        host₁.Renamed σ host₁' := by
  unfold Host.compile
  dsimp only
  split
  · exact .inl ⟨_, rfl, rfl⟩
  · split
    · exact .inl ⟨_, rfl, rfl⟩
    · rcases Interpreter.define_renamed hh.heap (Script.chunkName ("=" ++ label).toUTF8) source
        sandbox.env with ⟨e, he, he'⟩ | ⟨t, t', f, hf, hf', hheap⟩
      · rw [he, he']
        cases e <;> exact .inl ⟨_, rfl, rfl⟩
      · rw [hf, hf']
        exact .inr ⟨_, _, f, rfl, rfl, hh.withInterpreter hheap⟩

/-- What becomes of a script when its run has ended. -/
theorem ended (hσ : σ.Shields W W' n n') {s u : Interpreter} (hs : s.heap.Renamed σ u.heap)
    (hk : s.heap.Kept W) (hk' : u.heap.Kept W') {r : Conclusion}
    (hr : r.Ok W s.heap.tables.size) (hr' : (σ.conclusion r).Ok W' u.heap.tables.size)
    (label : String) (budget : Option Nat)
    (hv : s.heap.Spares n (host.ended label budget s r).1.heap)
    (hv' : u.heap.Spares n' (host'.ended label budget u (σ.conclusion r)).1.heap) :
    (host.ended label budget s r).1.Renamed σ (host'.ended label budget u (σ.conclusion r)).1 ∧
      (host'.ended label budget u (σ.conclusion r)).2 =
        (host.ended label budget s r).2.map σ.values := by
  have hend := hh.withInterpreter hs
  cases r with
  | unfinished => exact ⟨hend, rfl⟩
  | values vs =>
    unfold Host.ended
    dsimp only [Renaming.conclusion]
    rw [hs.tripped]
    split <;> exact ⟨hend, rfl⟩
  | failed e =>
    unfold Host.ended at hv hv' ⊢
    dsimp only [Renaming.conclusion] at hv hv' ⊢
    rw [hs.tripped] at hv' ⊢
    cases htripped : s.heap.tripped with
    | true => exact ⟨hend, rfl⟩
    | false =>
      simp only [htripped, Bool.false_eq_true, if_false] at hv hv' ⊢
      obtain ⟨hfault, hmessage⟩ := Interpreter.faultOf_renamed hs hσ hk hk' hr hr' hv hv'
      exact ⟨hh.withInterpreter hfault,
        congrArg (fun f => Except.error (ScriptFault.runtime label (Utf8.lossy f.message)))
        hmessage⟩

/-- A script is run. -/
theorem executeWithin (hσ : σ.Shields W W' n n') (hconfined : host.Confined W)
    (hconfined' : host'.Confined W') {sandbox : Sandbox}
    (henv : (Value.table sandbox.env).Ok W host.heap.tables.size)
    (henv' : (Value.table (σ.table sandbox.env)).Ok W' host'.heap.tables.size) (patience : Nat)
    (source : ByteArray) (label : String) (budget : Option Nat)
    (hv : host.heap.Spares n
      (Host.executeWithin patience host sandbox source label budget).1.heap)
    (hv' : host'.heap.Spares n'
      (Host.executeWithin patience host' ⟨σ.table sandbox.env⟩ source label budget).1.heap) :
    (Host.executeWithin patience host sandbox source label budget).1.Renamed σ
        (Host.executeWithin patience host' ⟨σ.table sandbox.env⟩ source label budget).1 ∧
      (Host.executeWithin patience host' ⟨σ.table sandbox.env⟩ source label budget).2 =
        (Host.executeWithin patience host sandbox source label budget).2.map σ.values := by
  rcases hh.compile sandbox source label with ⟨e, he, he'⟩ | ⟨host₁, host₁', f, hf, hf', hh₁⟩
  · unfold Host.executeWithin
    rw [he, he']
    exact ⟨hh, rfl⟩
  · rw [Host.executeWithin_of_compile hf] at hv ⊢
    rw [Host.executeWithin_of_compile hf'] at hv' ⊢
    dsimp only at hv hv' ⊢
    obtain ⟨hconfined₁, hcompiled, -, hfok⟩ := Host.compile_kept hconfined henv hf
    obtain ⟨hconfined₁', hcompiled', -, hfok'⟩ := Host.compile_kept hconfined' henv' hf'
    have hk : Heap.Kept W { host₁.heap with tripped := false } :=
      hconfined₁.kept.congr rfl rfl rfl rfl
    have hk' : Heap.Kept W' { host₁'.heap with tripped := false } :=
      hconfined₁'.kept.congr rfl rfl rfl rfl
    obtain ⟨hrun, hr⟩ := Heap.perform_leads hk patience false budget
      (.table sandbox.env :: host₁.interpreter.held) hfok.callable .nil
    obtain ⟨hrun', hr'⟩ := Heap.perform_leads hk' patience false budget
      (.table (σ.table sandbox.env) :: host₁'.interpreter.held) hfok'.callable .nil
    -- entries vanish neither in the run nor when an error is shown after it
    obtain ⟨hnow, hlater⟩ := hv.parts (hcompiled.vanished.trans hrun.vanished)
      (host₁.vanished_ended (s := { host₁.interpreter with heap := _ }) hrun.kept hr label budget)
    obtain ⟨hnow', hlater'⟩ := hv'.parts (hcompiled'.vanished.trans hrun'.vanished)
      (host₁'.vanished_ended (s := { host₁'.interpreter with heap := _ }) hrun'.kept hr' label
        budget)
    have hsame := (hh₁.heap.setTripped false).perform hσ hk hk' patience false budget
      (.table sandbox.env :: host₁.interpreter.held)
      (.table (σ.table sandbox.env) :: host₁'.interpreter.held) hfok.callable hfok'.callable .nil
      .nil (hnow.parts hcompiled.vanished hrun.vanished).2
      (hnow'.parts hcompiled'.vanished hrun'.vanished).2
    rw [σ.values_nil] at hsame
    rw [hsame.2] at hr' hlater' ⊢
    exact hh₁.ended hσ hsame.1 hrun.kept hrun'.kept hr hr' label budget hlater hlater'
/-- The scope that a script has left under a name. -/
theorem takeScope (sandbox : Sandbox) (scope label : String) :
    host'.takeScope ⟨σ.table sandbox.env⟩ scope label =
      (host.takeScope sandbox scope label).map σ.scope := by
  have hget : host'.get ⟨σ.table sandbox.env⟩ scope = σ.value (host.get sandbox scope) :=
    hh.heap.getName sandbox.env scope
  have htype := σ.hostTypeName_value (host.get sandbox scope)
  unfold Host.takeScope
  rw [hget]
  generalize host.get sandbox scope = v at htype ⊢
  cases v with
  | table r =>
    dsimp only [Renaming.value_table]
    rw [hh.heap.snapshot]
    cases host.heap.snapshot r <;> rfl
  | _ => exact congrArg (fun t => Except.error (ScriptFault.scopeNotTable label scope t)) htype

/-- The view of a scope. There is memory for it in both. -/
theorem freeze (t : Scope.Table) (roots roots' : List Value) : ∃ host₁ host₁' v,
    host.freeze t roots = (host₁, .ok v) ∧
      host'.freeze (σ.scope t) roots' = (host₁', .ok (σ.table v)) ∧ host₁.Renamed σ host₁' := by
  obtain ⟨hheap, hv⟩ := hh.heap.freeze t
  refine ⟨_, host'.withHeap (host'.heap.freeze (σ.scope t)).1, (host.heap.freeze t).2,
    (host.withHeap (host.heap.freeze t).1).afford_of_limit hheap.limit _ _, ?_,
    hh.withHeap hheap⟩
  rw [← hv]
  exact (host'.withHeap _).afford_of_limit hheap.limit' _ _

end Host.Renamed

end StoryPack
