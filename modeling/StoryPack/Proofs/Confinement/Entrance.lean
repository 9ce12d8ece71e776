/-
The way into a protected call.

A protected call calls the library function that it was made from, with the
arguments that it has been called with itself.  There are three instructions
before that, and no function of a script is called on the way.

* `Guard.Entering` — a state on the way, and how many moves are left;
* `Guard.Summons` — the raw call is about to be made;
* `Guard.Entering.step` — a move leads on, or to the raw call;
* `Guard.Entering.exists_summons` — the raw call is made.
-/
import StoryPack.Proofs.Confinement.Passage

namespace StoryPack.Script

variable {W : Ward}

/-- A function protects the calls of one library function only. -/
theorem Ward.Wraps.unique {c : Closure} {raw raw' : BaseFunction} (h : W.Wraps c raw)
    (h' : W.Wraps c raw') : raw = raw' := by
  obtain ⟨_, cell, _, _, _, _, hc, -, hraw, -⟩ := h.upvalues
  obtain ⟨_, cell', _, _, _, _, hc', -, hraw', -⟩ := h'.upvalues
  rw [hc] at hc'
  cases hc'
  cases hraw.symm.trans hraw'
  rfl

namespace Guard

/-- A state on the way of a call of `c` to its raw call, with the stack of its caller, the limit of
the memory, and how many moves are left. -/
inductive Entering (W : Ward) (l : Option Nat) (c : Closure) (args : List Value) (rest : List Task)
    (n : Nat) (s : State) : Prop
  | work (f : Frame) (hf : f.Guarded W s.heap.tables.size) (hc : ⟨f.proto, f.upvalues⟩ = c)
      (hmode : s.mode = .execute f) (hstack : s.stack = rest) (hpc : f.pc ≤ 3)
      (hvarargs : f.varargs = args) (hhand : f.pc = 3 → f.hand = args)
      (hlimit : s.heap.limit = l) (hn : n = 4 - f.pc)

/-- A call of `c` is about to call a library function. -/
structure Summons (c : Closure) (raw : BaseFunction) (args : List Value) (rest : List Task)
    (s : State) : Prop where
  mode : s.mode = .call .operation (.builtin (.base raw)) args
  stack : ∃ f : Frame, ⟨f.proto, f.upvalues⟩ = c ∧ s.stack = .script f :: rest

variable {l : Option Nat} {c : Closure} {raw : BaseFunction} {args : List Value}
  {rest : List Task} {n : Nat}
  {s : State}

namespace Entering

/-- A move leads on, or to the raw call, unless it overruns the budget. -/
theorem step (h : Entering W l c args rest n s) (hs : s.Kept W) (hwraps : W.Wraps c raw) :
    (∃ m < n, Entering W l c args rest m s.step) ∨ Summons c raw args rest s.step ∨
      s.step.TellsOverrun rest := by
  obtain ⟨f, hf, rfl, hmode, rfl, hpc, rfl, hhand, rfl, rfl⟩ := h
  obtain htrip | ⟨left, hstep⟩ := step_execute_cases hmode
  · rw [htrip]
    exact .inr (.inr (tellsOverrun_trip { s with mode := .deliver [] } _))
  -- what goes on is the protected call itself
  have hgo (g : Frame) (hg : g.proto = f.proto ∧ g.upvalues = f.upvalues)
      (heq : s.step = State.go { s with left := left, mode := .deliver [] } g)
      (hnext : g.pc = f.pc + 1) (hlt : f.pc < 3) (hvarargs : g.varargs = f.varargs)
      (hhand : g.pc = 3 → g.hand = f.varargs) :
      ∃ m < 4 - f.pc,
        Entering W s.heap.limit ⟨f.proto, f.upvalues⟩ f.varargs s.stack m s.step := by
    have hmade : g.Made W := by
      unfold Frame.Made
      rw [hg.1, hg.2]
      exact hf.made
    have hguarded := guarded_of_execute (State.step_leads hs).kept (f := g) (by rw [heq]; rfl) hmade
    rw [heq] at hguarded ⊢
    exact ⟨4 - g.pc, by omega, .work g hguarded (by rw [hg.1, hg.2]) rfl rfl (by omega) hvarargs
      hhand rfl rfl⟩
  obtain ⟨raw', hwraps', ha⟩ := hf.wraps
  cases hwraps.unique hwraps'
  obtain hpc | hpc | hpc | hpc : f.pc = 0 ∨ f.pc = 1 ∨ f.pc = 2 ∨ f.pc = 3 := by omega
  · exact .inl (hgo (Frame.put { f with pc := 1 } 1 _) ⟨rfl, rfl⟩
      (hstep.trans (State.advance_at hf hpc rfl)) (by rw [hpc]; rfl) (by omega) rfl nofun)
  · exact .inl (hgo (Frame.put { f with pc := 2 } 2 _) ⟨rfl, rfl⟩
      (hstep.trans (State.advance_at hf hpc rfl)) (by rw [hpc]; rfl) (by omega) rfl nofun)
  · exact .inl (hgo { f with pc := 3, hand := f.varargs } ⟨rfl, rfl⟩
      (hstep.trans (State.advance_at hf hpc rfl)) (by rw [hpc]) (by omega) rfl fun _ => rfl)
  · rw [hpc] at ha
    have hargs : (f.registers.extract 3 3).toList ++ f.hand = f.varargs := by
      simpa using hhand hpc
    have hadvance : State.step.advance { s with left := left, mode := .deliver [] } f =
        { s with
          left := left
          stack := .script { f with pc := 4, hand := [], want := .all } :: s.stack
          mode := .call .operation (.builtin (.base raw)) f.varargs } := by
      rw [State.advance_at hf hpc rfl, ← ha.raw (by decide) (by decide), ← hargs]
      rfl
    rw [hstep, hadvance]
    exact .inr (.inl ⟨rfl, { f with pc := 4, hand := [], want := .all }, rfl, rfl⟩)

/-- The collector leaves the way where it is, or the memory is used up. -/
theorem tidy (h : Entering W l c args rest n s) :
    Entering W l c args rest n s.tidy ∨ l ≠ none ∧ s.tidy.OutOfMemory := by
  obtain heq | ⟨-, hcollect⟩ := s.tidy_eq_or
  · exact .inl (heq.symm ▸ h)
  obtain ⟨f, hf, hc, hmode, hstack, hpc, hvarargs, hhand, hlimit, hn⟩ := h
  obtain heq | ⟨hnone, heq⟩ := hcollect
  · rw [heq]
    exact .inl (.work f ((Heap.size_collected ..).symm ▸ hf) hc hmode hstack hpc hvarargs hhand
      ((Heap.limit_collected ..).trans hlimit) hn)
  · rw [heq]
    exact .inr ⟨hlimit ▸ hnone, (State.outOfMemory_unwinding _).1⟩

/-- The raw call is made. -/
theorem exists_summons (h : Entering W l c args rest n s) (hs : s.Kept W) (hwraps : W.Wraps c raw) :
    ∃ k ≤ n, Summons c raw args rest (s.run k) ∨ (s.run k).TellsOverrun rest ∨
      l ≠ none ∧ (s.run k).tidy.OutOfMemory := by
  induction n using Nat.strongRecOn generalizing s with
  | _ n ih =>
    have hpos : 0 < n := by
      obtain ⟨f, -, -, -, -, hpc, -, -, -, hn⟩ := h
      omega
    obtain htidy | hmemory := h.tidy
    · have hkept := (State.tidy_leads hs).kept
      obtain ⟨m, hm, hnext⟩ | hend := htidy.step hkept hwraps
      · obtain ⟨k, hle, hk⟩ := ih m hm hnext (State.step_leads hkept).kept
        refine ⟨k + 1, by omega, ?_⟩
        rw [State.run_eq_step]
        exact hk
      · refine ⟨1, hpos, ?_⟩
        rw [State.run_eq_step]
        exact hend.imp_right .inl
    · exact ⟨0, Nat.zero_le n, .inr (.inr hmemory)⟩

end Entering

/-- A call of a function that makes protected calls, if there is room for its registers. -/
theorem step_call_wrapper (hs : s.Kept W) {r : Nat} (hr : W.wrappers r = some (c, raw)) {o : Origin}
    (hmode : s.mode = .call o (.function (.closure r)) args)
    (hroom : s.isFull Guard.wrapper = false) :
    Entering W s.heap.limit c args s.stack 4 s.step := by
  obtain ⟨-, -, hparameters, hvararg, -, -⟩ := Guard.wrapper_spec
  have hproto : c.proto = Guard.wrapper := (hs.heap.sound.wrapper hr).2.proto
  have hclosure : (s.heap.closures[r]?).getD default = c := by
    rw [hs.heap.wrapper hr]
    rfl
  have hstep : s.step = State.enter { s with mode := .deliver [] } c args := by
    rw [State.step_call hmode]
    show State.enterIfRoom { s with mode := .deliver [] } r args = _
    have hfull : State.isFull { s with mode := .deliver [] } c.proto = false := hproto ▸ hroom
    unfold State.enterIfRoom
    dsimp only
    rw [hclosure, hfull]
    rfl
  have hkept := (State.step_leads hs).kept
  rw [hstep] at hkept ⊢
  refine .work _ (guarded_of_execute hkept rfl ⟨r, raw, hr⟩) rfl rfl rfl
    (Nat.zero_le 3) ?_ nofun rfl rfl
  show (if c.proto.isVararg then args.drop c.proto.parameters else []) = args
  rw [hproto, hvararg, hparameters]
  rfl

end Guard

end StoryPack.Script
