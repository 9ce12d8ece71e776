/-
The machine keeps what is fixed.

A state is kept when its heap is, and all that waits on the stack and goes on at
its top holds only what scripts may hold, but for the protected calls.  A guard
stands on the call of the function that made it, and the library functions that
catch errors are called from there only.  Every move keeps a state.

* `Task.Kept`, `Stack.Kept`, `Mode.Kept`, `State.Kept` — the invariant;
* `State.Leads` — a state that is kept and comes of a heap;
* `State.nest_leads`, `State.follow_leads`, … — one statement for each function
  that moves are made of.
-/
import StoryPack.Proofs.Confinement.Frame
import StoryPack.Script.Run

namespace StoryPack.Script

variable {W : Ward} {n m : Nat}

/-- A failure that tells scripts only what they may hold. -/
def Failure.Ok (W : Ward) (n : Nat) : Failure → Prop
  | .thrown v => v.Ok W n
  | .memory => True

/-- A waiting task that holds only what scripts may hold. -/
def Task.Kept (W : Ward) (n : Nat) : Task → Prop
  | .script f => f.Waits W n
  | .library _ rest | .operation rest =>
    ∀ h vs, n ≤ h.tables.size → h.Kept W → Oks W h.tables.size vs →
      (rest h vs).Obeys W (Oks W) h
  | .guard handler _ => ∀ v, handler = some v → v.Ok W n
  | .closing e rest => e.Ok W n ∧ ∀ c ∈ rest, c.2.Ok W n
  | .handling | .root _ => True

/-- The protected call on top of a stack waits for the function that catches errors. -/
def Awaits (W : Ward) (n : Nat) : List Task → Prop
  | .script f :: _ => f.Guarded W n ∧ f.pc = 4 ∧ f.want = .all
  | _ => False

/-- A stack of such tasks, in which every guard stands on a protected call. -/
def Stack.Kept (W : Ward) (n : Nat) : List Task → Prop
  | [] => True
  | .guard handler counting :: stack =>
    (Task.guard handler counting).Kept W n ∧ Awaits W n stack ∧ Stack.Kept W n stack
  | t :: stack => t.Kept W n ∧ Stack.Kept W n stack

/-- What may be called with a stack: the functions that catch errors are called by protected calls
only. -/
def Value.Summoned (W : Ward) (n : Nat) (stack : List Task) (f : Value) : Prop :=
  f.Callable W n ∨
    (f = .builtin (.base .pcall) ∨ f = .builtin (.base .xpcall)) ∧ Awaits W n stack

/-- What goes on at the top of a stack involves only what scripts may hold. -/
def Mode.Kept (W : Ward) (n : Nat) (stack : List Task) : Mode → Prop
  | .execute f => f.Kept W n
  | .call _ f args => f.Summoned W n stack ∧ Oks W n args
  | .deliver vs | .ended (.values vs) => Oks W n vs
  | .raise e | .unwind e | .ended (.failed e) => e.Ok W n

/-- A state that is kept. -/
structure State.Kept (W : Ward) (s : State) : Prop where
  heap : s.heap.Kept W
  stack : Stack.Kept W s.heap.tables.size s.stack
  mode : s.mode.Kept W s.heap.tables.size s.stack

/-- A state that is kept and comes of a heap: tables are only added, entries of weak tables only
vanish, and the mark of an overrun is as it was, or the run has overrun a budget. -/
structure State.Leads (W : Ward) (g : Heap) (s : State) : Prop extends g.Sheds s.heap where
  size : g.tables.size ≤ s.heap.tables.size
  tripped : s.heap.tripped = g.tripped ∨ s.budget ≠ 0 ∧ s.heap.tripped = true
  kept : s.Kept W

theorem Failure.Ok.mono {e : Failure} (h : e.Ok W n) (hle : n ≤ m) : e.Ok W m := by
  cases e with
  | thrown v => exact Value.Ok.mono h hle
  | memory => trivial

theorem Task.Kept.mono {t : Task} (h : t.Kept W n) (hle : n ≤ m) : t.Kept W m := by
  cases t with
  | script f => exact Frame.Waits.mono h hle
  | library b rest => exact fun g vs hm => h g vs (Nat.le_trans hle hm)
  | operation rest => exact fun g vs hm => h g vs (Nat.le_trans hle hm)
  | guard handler counting => exact fun v hv => (h v hv).mono hle
  | closing e rest => exact ⟨h.1.mono hle, fun c hc => (h.2 c hc).mono hle⟩
  | handling => trivial
  | root closes => trivial

theorem Awaits.mono {stack : List Task} (h : Awaits W n stack) (hle : n ≤ m) :
    Awaits W m stack := by
  unfold Awaits at h ⊢
  split
  · exact ⟨h.1.mono hle, h.2⟩
  · rename_i hne
    split at h
    · exact absurd rfl (hne _ _)
    · exact h

namespace Stack

variable {stack : List Task} {t : Task}

theorem Kept.task (h : Stack.Kept W n (t :: stack)) : t.Kept W n := by
  cases t with
  | guard handler counting => exact h.1
  | _ => exact h.1

theorem Kept.tail (h : Stack.Kept W n (t :: stack)) : Stack.Kept W n stack := by
  cases t with
  | guard handler counting => exact h.2.2
  | _ => exact h.2

theorem Kept.cons (h : Stack.Kept W n stack) (ht : t.Kept W n)
    (hguard : ∀ handler counting, t = .guard handler counting → Awaits W n stack) :
    Stack.Kept W n (t :: stack) := by
  cases t with
  | guard handler counting => exact ⟨ht, hguard _ _ rfl, h⟩
  | _ => exact ⟨ht, h⟩

theorem Kept.mono (h : Stack.Kept W n stack) (hle : n ≤ m) : Stack.Kept W m stack := by
  induction stack with
  | nil => trivial
  | cons t stack ih =>
    refine (ih h.tail).cons (h.task.mono hle) ?_
    rintro handler counting rfl
    exact h.2.1.mono hle

end Stack

namespace Heap.Leads

theorem sheds {g h : Heap} (hgh : g.Leads W h) : g.Sheds h :=
  .of_eq hgh.limit hgh.pace hgh.vanished

/-- A state whose heap comes of another one. -/
theorem state {g : Heap} {s : State} (hgh : g.Leads W s.heap) (hs : s.Kept W) : s.Leads W g :=
  ⟨hgh.sheds, hgh.size, .inl hgh.tripped, hs⟩

end Heap.Leads

namespace State

variable {s : State} {g : Heap}

theorem Leads.of_leads {h : Heap} (hs : s.Leads W h) (hgh : g.Leads W h) : s.Leads W g where
  toSheds := hgh.sheds.trans hs.toSheds
  size := Nat.le_trans hgh.size hs.size
  tripped := hs.tripped.imp_left fun ht => ht.trans hgh.tripped
  kept := hs.kept

/-- Both states are of one run, so an overrun on the way is one of this run. -/
theorem Leads.trans {t : State} (hs : s.Leads W g) (ht : t.Leads W s.heap)
    (hbudget : t.budget = s.budget) : t.Leads W g where
  toSheds := hs.toSheds.trans ht.toSheds
  size := Nat.le_trans hs.size ht.size
  tripped := by
    obtain ht | ht := ht.tripped
    · exact hs.tripped.imp ht.trans fun hs => ⟨hbudget ▸ hs.1, ht.trans hs.2⟩
    · exact .inr ht
  kept := ht.kept

/-! ### Errors -/

theorem resolve_leads (hk : g.Kept W) (stack : List Task) (o : Origin) {e : Raised}
    (he : e.Ok W g.tables.size) :
    g.Leads W (resolve g stack o e).1 ∧
      (resolve g stack o e).2.Ok W (resolve g stack o e).1.tables.size := by
  have hcount (b : ByteArray) : g.Leads W (g.countString b.size) :=
    Operation.countString_leads hk b.size
  cases e with
  | value v => exact ⟨.refl hk, he⟩
  | host f => exact ⟨⟨Nat.le_refl _, rfl, rfl, rfl, rfl, hk.congr rfl rfl rfl rfl⟩, trivial⟩
  | memory => exact ⟨.refl hk, trivial⟩
  | located level b => exact ⟨hcount _, trivial⟩
  | argument i b => exact ⟨hcount _, trivial⟩
  | operation b => exact ⟨hcount _, trivial⟩
  | operand verb t which => exact ⟨hcount _, trivial⟩
  | notIntegral which => exact ⟨hcount _, trivial⟩

theorem fail_leads (hk : s.heap.Kept W) (hstack : Stack.Kept W s.heap.tables.size s.stack)
    (o : Origin) {e : Raised} (he : e.Ok W s.heap.tables.size) :
    (s.fail o e).Leads W s.heap := by
  obtain ⟨hleads, hok⟩ := resolve_leads hk s.stack o he
  exact hleads.state ⟨hleads.kept, hstack.mono hleads.size, hok⟩

theorem unwinding_leads (hk : s.heap.Kept W) (hstack : Stack.Kept W s.heap.tables.size s.stack)
    {e : Failure} (he : e.Ok W s.heap.tables.size) : (s.unwinding e).Leads W s.heap := by
  unfold unwinding
  split
  · exact Heap.Leads.state (.refl hk) ⟨hk, hstack, he⟩
  · exact Heap.Leads.state (.refl hk) ⟨hk, hstack, he⟩

/-- A call that is nested. -/
theorem nest_leads (hk : s.heap.Kept W) {t : Task}
    (ht : Stack.Kept W s.heap.tables.size (t :: s.stack)) (o : Origin) {f : Value}
    {args : List Value} (hf : f.Callable W s.heap.tables.size)
    (hargs : Oks W s.heap.tables.size args) : (s.nest t o f args).Leads W s.heap := by
  unfold nest
  dsimp only
  split
  · obtain ⟨hleads, hok⟩ := resolve_leads hk s.stack o (e := .operation _) trivial
    exact Heap.Leads.state (s := { s with heap := _, stack := _, depth := _, mode := _ }) hleads
      ⟨hleads.kept, ht.mono hleads.size, hok⟩
  · split
    · exact unwinding_leads (s := { s with stack := t :: s.stack, depth := s.depth + 1 }) hk ht
        trivial
    · exact Heap.Leads.state (.refl hk) ⟨hk, ht, .inl hf, hargs⟩

/-! ### Calls -/

/-- The course of an action, as far as the machine goes with it at once. -/
theorem follow_leads {r : Run (List Value)} (hr : r.Obeys W (Oks W) g)
    (hstack : Stack.Kept W g.tables.size s.stack) (o : Origin) : (s.follow o r).Leads W g := by
  cases r with
  | done h vs =>
    obtain ⟨hleads, hvs⟩ := hr
    exact hleads.state (s := { s with heap := h, mode := .deliver vs })
      ⟨hleads.kept, hstack.mono hleads.size, hvs⟩
  | failed h e =>
    obtain ⟨hleads, he⟩ := hr
    exact (fail_leads (s := { s with heap := h }) hleads.kept (hstack.mono hleads.size) o
      he).of_leads hleads
  | call h f args rest =>
    obtain ⟨hleads, hf, hargs, hrest⟩ := hr
    have hstack := hstack.mono hleads.size
    have hnest (t : Task) (ht : Stack.Kept W h.tables.size (t :: s.stack)) :
        (nest { s with heap := h } t o f args).Leads W g :=
      (nest_leads (s := { s with heap := h }) hleads.kept ht o hf hargs).of_leads hleads
    cases o with
    | library b => exact hnest (.library b rest) ⟨hrest, hstack⟩
    | operation => exact hnest (.operation rest) ⟨hrest, hstack⟩

theorem perform_leads {a : Action (List Value)} (ha : a.Obeys W s.heap.tables.size (Oks W))
    (hk : s.heap.Kept W) (hstack : Stack.Kept W s.heap.tables.size s.stack) (o : Origin) :
    (s.perform o a).Leads W s.heap :=
  follow_leads (s := { s with heap := {} }) (ha s.heap (Nat.le_refl _) hk) hstack o

theorem notCallable_leads (hk : s.heap.Kept W)
    (hstack : Stack.Kept W s.heap.tables.size s.stack) (o : Origin) (f : Value) :
    (s.notCallable o f).Leads W s.heap :=
  Heap.Leads.state (Operation.countString_leads hk _)
    ⟨(Operation.countString_leads hk _).kept, hstack, trivial⟩

theorem fill_ok {a : Array Value} (ha : ∀ v ∈ a, v.Ok W n) (count i : Nat) {args : List Value}
    (hargs : Oks W n args) : ∀ v ∈ enter.fill a count i args, v.Ok W n := by
  induction count generalizing a i args with
  | zero => exact ha
  | succ count ih =>
    cases args with
    | nil => exact ha
    | cons v args =>
      obtain ⟨hv, hargs⟩ := Oks.cons_iff.mp hargs
      refine ih (fun w hw => ?_) _ hargs
      rcases Array.mem_or_eq_of_mem_setIfInBounds hw with hw | rfl
      · exact ha w hw
      · exact hv

/-- A script function is entered: one of a script, or one that makes protected calls. -/
theorem enter_leads (hk : s.heap.Kept W) (hstack : Stack.Kept W s.heap.tables.size s.stack)
    {r : Nat} (hr : r ≠ W.factory) {args : List Value} (hargs : Oks W s.heap.tables.size args) :
    (s.enter ((s.heap.closures[r]?).getD default) args).Leads W s.heap := by
  refine Heap.Leads.state (.refl hk) ⟨hk, hstack, ?_⟩
  have hvarargs (p : Proto) :
      Oks W s.heap.tables.size (if p.isVararg then args.drop p.parameters else []) := by
    split
    · exact hargs.drop _
    · exact .nil
  cases hw : W.wrappers r with
  | some w =>
    obtain ⟨c, raw⟩ := w
    obtain ⟨-, hwraps⟩ := hk.sound.wrapper hw
    obtain ⟨hcode, hboxes, hparameters, hvararg, hregisters, -⟩ := Guard.wrapper_spec
    rw [hk.wrapper hw]
    have hproto := hwraps.proto
    refine .inr ⟨⟨r, raw, hw⟩, ⟨raw, hwraps, ?_⟩, by simp, by simp [hproto, hboxes], hvarargs _,
      .nil, rfl⟩
    have hget (i : Nat) : ((Array.replicate 5 Value.nil).getD i .nil) = .nil := by
      rw [Array.getD_eq_getD_getElem?, Array.getElem?_replicate]
      split <;> rfl
    simp only [Option.getD_some, hproto, hregisters, hparameters, enter.fill]
    constructor
    · simp
    all_goals simp [hget]
  | none =>
    refine .inl ⟨fill_ok (fun v hv => ?_) _ _ hargs, fun c hc => ?_, ?_, hvarargs _, .nil, ?_⟩
    · rw [(Array.mem_replicate.mp hv).2]
      trivial
    · simp only at hc
      split at hc
      · simp at hc
      · rw [(Array.mem_replicate.mp hc).2]
        exact hk.sound.cell
    · cases hc : s.heap.closures[r]? with
      | none =>
        exact fun c hc => absurd hc (Array.not_mem_empty c)
      | some c => exact hk.closure hw hr hc
    · intro c hc
      cases hc

theorem enterIfRoom_leads (hk : s.heap.Kept W)
    (hstack : Stack.Kept W s.heap.tables.size s.stack) {r : Nat} (hr : r ≠ W.factory)
    {args : List Value} (hargs : Oks W s.heap.tables.size args) :
    (s.enterIfRoom r args).Leads W s.heap := by
  unfold enterIfRoom
  dsimp only
  split
  · exact fail_leads hk hstack _ trivial
  · exact enter_leads hk hstack hr hargs

/-- What a value is called through is something that may be called. -/
theorem calledThrough_ok (hk : g.Kept W) {room : Nat} {f : Value} {args : List Value}
    (hf : f.Callable W g.tables.size) (hargs : Oks W g.tables.size args) {f' : Value}
    {args' : List Value} (h : calledThrough g room f args = some (f', args')) :
    f'.Callable W g.tables.size ∧ Oks W g.tables.size args' := by
  induction room generalizing f args with
  | zero => cases h
  | succ room ih =>
    unfold calledThrough at h
    split at h
    · cases h
      exact ⟨hf, hargs⟩
    · rename_i hne
      have hok : f.Ok W g.tables.size := by
        rcases hf with hf | rfl
        · exact hf
        · exact absurd rfl (hne _)
      split at h
      · cases h
        exact ⟨hf, hargs⟩
      · have hnext := hk.metafield_ok hok Event.call (by decide)
        exact ih hnext.callable (by simpa using ⟨hok, hargs⟩) h

theorem Summoned.open {stack : List Task} {f : Builtin}
    (hf : (Value.builtin f).Summoned W n stack) (hpcall : f ≠ .base .pcall)
    (hxpcall : f ≠ .base .xpcall) : f.isOpen = true ∨ f = .view .deny := by
  rcases hf with (hf | hf) | ⟨hf | hf, -⟩
  · exact .inl hf
  · cases hf
    exact .inr rfl
  · cases hf
    exact absurd rfl hpcall
  · cases hf
    exact absurd rfl hxpcall

/-- A call of what may be called. -/
theorem call_leads (hk : s.heap.Kept W) (hstack : Stack.Kept W s.heap.tables.size s.stack)
    (o : Origin) {f : Value} {args : List Value}
    (hf : f.Summoned W s.heap.tables.size s.stack) (hargs : Oks W s.heap.tables.size args) :
    (s.call o f args).Leads W s.heap := by
  -- the functions that catch errors put a guard on the protected call that calls them
  have hguard (hopen : f.Ok W s.heap.tables.size → False) (hdeny : f ≠ .builtin (.view .deny))
      (handler : Option Value) (hhandler : ∀ v, handler = some v → v.Ok W s.heap.tables.size) :
      Stack.Kept W s.heap.tables.size (.guard handler s.counting :: s.stack) := by
    rcases hf with (hf | hf) | ⟨-, hf⟩
    · exact (hopen hf).elim
    · exact absurd hf hdeny
    · exact ⟨hhandler, hf, hstack⟩
  unfold call
  split
  · refine enterIfRoom_leads hk hstack ?_ hargs
    rcases hf with (hf | hf) | ⟨hf | hf, -⟩
    · exact hf
    · cases hf
    · cases hf
    · cases hf
  · split
    · exact fail_leads hk hstack _ trivial
    · rename_i g args
      obtain ⟨hg, hargs⟩ := Oks.cons_iff.mp hargs
      exact nest_leads hk (hguard (fun h => by cases h) (by simp [Value.builtin]) none
        (fun _ h => by cases h)) _ hg.callable hargs
  · split
    · rename_i g m args
      obtain ⟨hg, hm, hargs⟩ : g.Ok W s.heap.tables.size ∧ (Value.function m).Ok W _ ∧
          Oks W s.heap.tables.size args := by simpa using hargs
      refine nest_leads hk (hguard (fun h => by cases h) (by simp [Value.builtin]) _
        (fun v hv => ?_)) _ hg.callable hargs
      cases hv
      exact hm
    · exact fail_leads hk hstack _ trivial
  · rename_i b hpcall hxpcall
    refine perform_leads (Builtin.run_obeys (Summoned.open hf ?_ ?_) hargs) hk hstack _
    · rintro rfl
      exact hpcall rfl
    · rintro rfl
      exact hxpcall rfl
  · exact perform_leads (Library.nextMatch_obeys _) hk hstack _
  · rename_i hclosure hpcall hxpcall hbuiltin hmatcher
    have hf : f.Callable W s.heap.tables.size := by
      rcases hf with hf | ⟨hf | hf, -⟩
      · exact hf
      · exact absurd hf hpcall
      · exact absurd hf hxpcall
    split
    · exact fail_leads hk hstack _ trivial
    · rename_i g args hthrough
      obtain ⟨hg, hargs⟩ := calledThrough_ok hk hf hargs hthrough
      exact Heap.Leads.state (.refl hk) ⟨hk, hstack, .inl hg, hargs⟩
    · exact notCallable_leads hk hstack _ _

theorem handler?_ok {stack : List Task} (hstack : Stack.Kept W n stack) {f : Value}
    (hf : handler? stack = some f) : f.Ok W n := by
  induction stack with
  | nil => cases hf
  | cons t stack ih =>
    cases t with
    | guard handler counting => exact hstack.task f hf
    | _ => exact ih hstack.tail hf

/-- An error that is taken up. -/
theorem raised_leads (hk : s.heap.Kept W) (hstack : Stack.Kept W s.heap.tables.size s.stack)
    {e : Failure} (he : e.Ok W s.heap.tables.size) : (s.raised e).Leads W s.heap := by
  unfold raised
  split
  · rename_i v f hf
    have hv : v.Ok W s.heap.tables.size := he
    exact nest_leads (s := { s with handlers := s.handlers + 1 }) (t := .handling) hk
      ⟨trivial, hstack⟩ _ (handler?_ok hstack hf).callable (by simpa using hv)
  · exact unwinding_leads hk hstack he

theorem trip_leads (hk : s.heap.Kept W) (hbudget : s.budget ≠ 0) {f : Frame}
    (hstack : Stack.Kept W s.heap.tables.size (.script { f with want := .result } :: s.stack)) :
    (s.trip f).Leads W s.heap := by
  refine ⟨.of_eq rfl rfl rfl, Nat.le_refl _, .inr ⟨hbudget, rfl⟩, ?_, hstack, trivial⟩
  exact hk.congr rfl rfl rfl rfl

end State

end StoryPack.Script
