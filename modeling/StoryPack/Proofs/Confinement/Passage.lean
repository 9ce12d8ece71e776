/-
The way out of a protected call.

When the raw call has given its values, a protected call has a way of its own to
go.  It packs the values, asks whether the run has overrun its budget, and unpacks
them or raises an error.  It calls no function of a script on this way, so that
every move of the machine is known.

The way ends with the values on their way to the caller, and nothing has been
added to them or taken from them; or with an error that tells of an overrun, be it
the one that the protected call raises or one that stops its own instructions; or
the memory is used up.  Only a list that is as long as all registers together is
too long to be unpacked.

* `Frame.Made` — a call of a function that makes protected calls;
* `Guard.Passing` — a state on the way, and how many moves are left at most;
* `Guard.Outcome` — the ends of the way;
* `Guard.Passing.step` — a move leads on, or to an end;
* `Guard.Passing.exists_outcome` — an end is reached.
-/
import StoryPack.Proofs.Confinement.Freeze
import StoryPack.Proofs.Confinement.Run
import StoryPack.Proofs.Script.Packed
import StoryPack.Proofs.Script.Stack

namespace StoryPack.Script

variable {W : Ward} {n : Nat}

/-- A call of one of the functions that make protected calls. -/
def Frame.Made (W : Ward) (f : Frame) : Prop :=
  ∃ r raw, W.wrappers r = some (⟨f.proto, f.upvalues⟩, raw)

/-- Such a call is no call of a function of a script: its captured variables are fixed. -/
theorem Frame.Made.not_free {f : Frame} (hf : f.Made W) (hW : W.Sound) : ¬f.Free W n := by
  obtain ⟨r, raw, hr⟩ := hf
  obtain ⟨pack, _, _, _, _, _, hupvalues, hpack, -⟩ := (hW.wrapper hr).2.upvalues
  intro hfree
  have hmem : pack ∈ f.upvalues := by
    rw [show f.upvalues = _ from hupvalues]
    simp
  rw [hfree.upvalues pack hmem] at hpack
  cases hpack

theorem Frame.Made.guarded {f : Frame} (hf : f.Made W) (hW : W.Sound) (h : f.Kept W n) :
    f.Guarded W n :=
  h.resolve_left (hf.not_free hW)

namespace State

/-- The memory is used up, and the error that says so is on its way out. -/
def OutOfMemory (s : State) : Prop := s.mode = .unwind .memory ∨ s.mode = .ended (.failed .memory)

theorem outOfMemory_unwinding (s : State) :
    (s.unwinding .memory).OutOfMemory ∧ (s.unwinding .memory).stack = s.stack := by
  unfold unwinding
  split
  · exact ⟨.inl rfl, rfl⟩
  · exact ⟨.inr rfl, rfl⟩

/-- What the collector comes to: only where there is a limit it may find the memory used up. -/
theorem tidy_eq_or (s : State) :
    s.tidy = s ∨ (∃ f, s.mode = .execute f) ∧
      (s.tidy = { s with heap := s.heap.collected s.roots s.showsAll } ∨
        s.heap.limit ≠ none ∧
          s.tidy = unwinding { s with heap := s.heap.collected s.roots s.showsAll } .memory) := by
  unfold tidy
  split
  · rename_i f hf
    split
    · unfold collect
      dsimp only
      split
      · rename_i hfull
        refine .inr ⟨⟨f, hf⟩, .inr ⟨fun hlimit => ?_, rfl⟩⟩
        rw [Heap.exhausted, Heap.limit_collected, hlimit] at hfull
        cases hfull
      · exact .inr ⟨⟨f, hf⟩, .inl rfl⟩
    · exact .inl rfl
  · exact .inl rfl

theorem tidy_of_ne {s : State} (h : ∀ f, s.mode ≠ .execute f) : s.tidy = s := by
  obtain heq | ⟨⟨f, hmode⟩, -⟩ := s.tidy_eq_or
  · exact heq
  · exact absurd hmode (h f)

end State

/-- What protected calls tell of a failure. -/
def Failure.told : Failure → Value
  | .thrown v => v
  | .memory => .ofString memoryMessage

/-- A failure that tells of an overrun: the error of a protected call, or that of an instruction for
which there was no budget. -/
def Failure.TellsOverrun (h : Heap) (e : Failure) : Prop :=
  e = .thrown (.ofString overrunMessage) ∨
    ∃ r, e = .thrown (.fault r) ∧ h.faults[r]? = some (.runtime overrunMessage.toUTF8)

/-- In a run that has overrun its budget, the call on top of a stack raises an error to say so. -/
def State.TellsOverrun (s : State) (rest : List Task) : Prop :=
  ∃ f e, s.stack = .script f :: rest ∧ s.mode = .raise e ∧ e.TellsOverrun s.heap ∧
    s.heap.tripped = true

theorem State.TellsOverrun.tripped {s : State} {rest : List Task} (h : s.TellsOverrun rest) :
    s.heap.tripped = true := by
  obtain ⟨f, e, -, -, -, h⟩ := h
  exact h

namespace Guard

/-! ### The way -/

/-- What is known on the way when the instruction at `pc` is next: the values are packed in the
first register, and whether the run has overrun its budget decides where the way leads. -/
structure Carries (h : Heap) (vs : List Value) (pc : Nat) (a : Array Value) : Prop where
  packed : 5 ≤ pc ∧ pc ≤ 6 ∨ 12 ≤ pc →
    ∃ r, a.getD 0 .nil = .table r ∧ (h.table r).Packs vs
  marked : 7 ≤ pc → pc ≤ 11 → h.tripped = true
  clean : 12 ≤ pc → h.tripped = false
  table : 14 ≤ pc → a.getD 2 .nil = a.getD 0 .nil
  first : 15 ≤ pc → a.getD 3 .nil = .int 1
  count : 16 ≤ pc → a.getD 4 .nil = .int (Int64.ofNat vs.length)

/-- What is called on the way, with what arguments. -/
def Asks (h : Heap) (vs : List Value) (pc : Nat) (callee : Value) (args : List Value) : Prop :=
  pc = 5 ∧ callee = .builtin (.table .pack) ∧ args = vs ∨
    pc = 7 ∧ callee = .builtin .tripped ∧ args = [] ∨
    pc = 11 ∧ callee = .builtin (.base .error) ∧ args = [.ofString overrunMessage, .int 0] ∨
    pc = 17 ∧ callee = .builtin (.table .unpack) ∧
      ∃ r, args = [.table r, .int 1, .int (Int64.ofNat vs.length)] ∧ (h.table r).Packs vs

/-- What is given on the way. -/
def Gives (h : Heap) (vs : List Value) (pc : Nat) (ws : List Value) : Prop :=
  pc = 4 ∧ ws = vs ∨
    pc = 5 ∧ (∃ r, ws = [.table r] ∧ (h.table r).Packs vs) ∨
    pc = 7 ∧ ws = [.bool h.tripped] ∨
    pc = 17 ∧ (vs.length < slotLimit → ws = vs)

/-- A state on the way of a protected call whose raw call has given `vs`, with the stack of its
caller, the limit of the memory, and how many moves are left at most. -/
inductive Passing (W : Ward) (l : Option Nat) (vs : List Value) (rest : List Task) (n : Nat)
    (s : State) : Prop
  /-- An instruction of the protected call is next. -/
  | work (f : Frame) (hf : f.Guarded W s.heap.tables.size) (hmode : s.mode = .execute f)
      (hstack : s.stack = rest) (hpc : 4 ≤ f.pc ∧ f.pc ≤ 16 ∧ f.pc ≠ 11)
      (hhand : f.pc = 4 → f.hand = vs) (hcarries : Carries s.heap vs f.pc f.registers)
      (hlimit : s.heap.limit = l) (hn : n = 3 * (18 - f.pc))
  /-- A library function is about to be called. -/
  | call (f : Frame) (hf : f.Guarded W s.heap.tables.size) (hexpects : f.Expects) (callee : Value)
      (args : List Value) (hmode : s.mode = .call .operation callee args)
      (hstack : s.stack = .script f :: rest) (hasks : Asks s.heap vs f.pc callee args)
      (hcarries : Carries s.heap vs (f.pc - 1) f.registers) (hlimit : s.heap.limit = l)
      (hn : n = 3 * (18 - f.pc) + 2)
  /-- Values are on their way to the protected call. -/
  | receive (f : Frame) (hf : f.Guarded W s.heap.tables.size) (hexpects : f.Expects)
      (ws : List Value) (hmode : s.mode = .deliver ws) (hstack : s.stack = .script f :: rest)
      (hgives : Gives s.heap vs f.pc ws) (hcarries : Carries s.heap vs (f.pc - 1) f.registers)
      (hlimit : s.heap.limit = l) (hn : n = 3 * (18 - f.pc) + 1)

/-- How the way ends. -/
inductive Outcome (vs : List Value) (rest : List Task) (s : State) : Prop
  /-- The values are on their way to the caller. -/
  | returned (ws : List Value) (hws : vs.length < slotLimit → ws = vs) (hstack : s.stack = rest)
      (hmode : s.mode = .deliver ws) (hclean : s.heap.tripped = false)
  /-- The run has overrun its budget, and an error says so. -/
  | overrun (h : s.TellsOverrun rest)
  /-- There are too many values. -/
  | tooMany (hlong : slotLimit ≤ vs.length) (e : Failure) (f : Frame)
      (hstack : s.stack = .script f :: rest) (hmode : s.mode = .raise e)
      (hclean : s.heap.tripped = false)

variable {l : Option Nat} {vs ws : List Value} {rest : List Task} {s t : State} {f f' : Frame}
  {h h' : Heap} {pc pc' : Nat} {a : Array Value}

/-! ### Registers on the way -/

/-- Before the values are packed nothing has to be known. -/
theorem carries_of_le (hpc : pc ≤ 4) : Carries h vs pc a := by
  constructor <;> intros <;> omega

namespace Carries

/-- The table that the values are packed in has no metatable. -/
theorem collected (hc : Carries h vs pc a) {roots : List Value} {all : Bool} :
    Carries (h.collected roots all) vs pc a where
  packed hpc := by
    obtain ⟨r, hr, hpacks⟩ := hc.packed hpc
    exact ⟨r, hr, (Heap.table_collected hpacks.metatable).symm ▸ hpacks⟩
  marked h₁ h₂ := (Heap.tripped_collected ..).trans (hc.marked h₁ h₂)
  clean h₁ := (Heap.tripped_collected ..).trans (hc.clean h₁)
  table := hc.table
  first := hc.first
  count := hc.count

/-- A register other than the first one is written. -/
theorem put (hc : Carries h vs pc a) (ha : a.size = 5) {i : Nat} (hi : i < 5) (h0 : i ≠ 0)
    {v : Value} (hpacked : 5 ≤ pc' ∧ pc' ≤ 6 ∨ 12 ≤ pc' → 5 ≤ pc ∧ pc ≤ 6 ∨ 12 ≤ pc)
    (hmarked : 7 ≤ pc' → pc' ≤ 11 → h.tripped = true) (hclean : 12 ≤ pc' → h.tripped = false)
    (htable : 14 ≤ pc' → (if i = 2 then v else a.getD 2 .nil) = a.getD 0 .nil)
    (hfirst : 15 ≤ pc' → (if i = 3 then v else a.getD 3 .nil) = .int 1)
    (hcount : 16 ≤ pc' → (if i = 4 then v else a.getD 4 .nil) = .int (Int64.ofNat vs.length)) :
    Carries h vs pc' (a.set! i v) := by
  have hget := Registers.getD_set! ha hi v
  refine ⟨fun hpc => ?_, hmarked, hclean, fun hpc => ?_, fun hpc => ?_, fun hpc => ?_⟩
  · rw [hget, if_neg h0]
    exact hc.packed (hpacked hpc)
  · rw [hget, hget, if_neg h0]
    exact htable hpc
  · rw [hget]
    exact hfirst hpc
  · rw [hget]
    exact hcount hpc

end Carries

/-! ### Moves on the way -/

/-- An instruction that writes a register or reads a global variable leads to the next one. -/
theorem Move.exists_go (h : Move W s f t) (hpc : f.pc ≠ 3 ∧ f.pc ≠ 4 ∧ f.pc ≠ 6 ∧ f.pc ≠ 10)
    (hpc' : f.pc < 15) :
    ∃ f', f'.Guarded W s.heap.tables.size ∧ f'.pc = f.pc + 1 ∧ t = s.go f' := by
  cases h with
  | go f' hf' hnext => exact ⟨f', hf', hnext, rfl⟩
  | call f' hf' hnext hexpects callee args hargs hcalls =>
    rcases hcalls with ⟨h, -⟩ | ⟨h, -⟩ | ⟨h, -⟩ | ⟨h, -⟩ | ⟨h, -⟩ <;> omega
  | index f' hf' hat => omega
  | ret hat => omega

/-- An instruction that calls waits for the values. -/
theorem Move.exists_call (h : Move W s f t) {o : Origin} {callee : Value} {args : List Value}
    (hpc : f.pc ≠ 15) (hmode : t.mode = .call o callee args) :
    ∃ f', f'.Guarded W s.heap.tables.size ∧ f'.Expects ∧ f'.pc = f.pc + 1 ∧
      t.stack = .script f' :: s.stack := by
  cases h with
  | go f' => cases hmode
  | call f' hf' hnext hexpects => exact ⟨f', hf', hexpects, hnext, rfl⟩
  | index f' hf' hat => exact absurd hat hpc
  | ret => cases hmode

/-! ### What moves come to -/

/-- A move of a function at work overruns the budget, or runs the next instruction. -/
theorem step_execute_cases (hmode : s.mode = .execute f) :
    s.step = State.trip { s with mode := .deliver [] } { f with pc := f.pc + 1 } ∨
      ∃ left, s.step = State.step.advance { s with left := left, mode := .deliver [] } f := by
  unfold State.step
  rw [hmode]
  dsimp only
  split
  · split
    · exact .inl rfl
    · exact .inr ⟨_, rfl⟩
  · exact .inr ⟨s.left, rfl⟩

/-- A move that calls a library function, unless it is one that catches errors. -/
theorem step_call_library {o : Origin} {b : Builtin} {args : List Value}
    (hmode : s.mode = .call o (.builtin b) args) (hpcall : b ≠ .base .pcall)
    (hxpcall : b ≠ .base .xpcall) :
    s.step = State.perform { s with mode := .deliver [] } (.library (some b)) (b.run args) := by
  rw [State.step_call hmode]
  unfold State.call
  split
  · rename_i h
    cases h
  · rename_i h
    cases h
    exact absurd rfl hpcall
  · rename_i h
    cases h
    exact absurd rfl hxpcall
  · rename_i b' _ _ h
    cases h
    rfl
  · rename_i h
    cases h
  · rename_i hbuiltin _
    exact absurd rfl (hbuiltin b)

/-- An overrun on the way. -/
theorem tellsOverrun_trip (s : State) (f : Frame) : (s.trip f).TellsOverrun s.stack :=
  ⟨_, _, rfl, rfl, .inr ⟨s.heap.faults.size, rfl, Array.getElem?_push_size⟩, rfl⟩

/-- What is at work on the way is a protected call. -/
theorem guarded_of_execute (hs : s.Kept W) (hmode : s.mode = .execute f) (hf : f.Made W) :
    f.Guarded W s.heap.tables.size := by
  have hkept := hs.mode
  rw [hmode] at hkept
  exact hf.guarded hs.heap.sound hkept

/-! ### An instruction is next -/

section

variable (hs : s.Kept W) (hf : f.Guarded W s.heap.tables.size)

include hs hf

/-- An instruction that writes a register other than the first. -/
theorem passing_put (hplain : 4 ≤ pc ∧ pc + 1 ≤ 16 ∧ pc + 1 ≠ 11) {left r : Nat} {v : Value}
    (hstep : s.step = State.go { s with left := left, mode := .deliver [] }
      (Frame.put { f with pc := pc + 1 } r v))
    (hcarries : Carries s.heap vs (pc + 1) (f.registers.set! r v)) :
    Passing W s.heap.limit vs s.stack (3 * (18 - (pc + 1))) s.step := by
  have hguarded : (Frame.put { f with pc := pc + 1 } r v).Guarded W s.step.heap.tables.size :=
    guarded_of_execute (State.step_leads hs).kept (by rw [hstep]; rfl) hf.made
  rw [hstep] at hguarded ⊢
  refine .work _ hguarded rfl rfl ⟨?_, hplain.2⟩ ?_ hcarries rfl rfl
  · show 4 ≤ pc + 1
    omega
  · intro h4
    have h4 : pc + 1 = 4 := h4
    omega

/-- An instruction that calls what a register has. -/
theorem passing_call (hpc : f.pc = pc) (hplain : pc ≠ 15) {left fn count : Nat} {more : Bool}
    {want : Want}
    (hstep : s.step = State.step.advance { s with left := left, mode := .deliver [] } f)
    (hi : Guard.wrapperCode[pc]? = some (.call fn count more want)) {callee : Value}
    {args : List Value} (hcallee : f.registers.getD fn .nil = callee)
    (hargs : (f.registers.extract (fn + 1) (fn + 1 + count)).toList ++
      (if more then f.hand else []) = args)
    (hasks : Asks s.heap vs (pc + 1) callee args) (hcarries : Carries s.heap vs pc f.registers) :
    Passing W s.heap.limit vs s.stack (3 * (18 - (pc + 1)) + 2) s.step := by
  have hmove := State.advance_guarded (s := { s with left := left, mode := .deliver [] }) hs.heap hf
  have hadvance : State.step.advance { s with left := left, mode := .deliver [] } f =
      { s with
        left := left
        stack := .script { f with pc := pc + 1, hand := [], want := want } :: s.stack
        mode := .call .operation callee args } := by
    rw [State.advance_at hf hpc hi, ← hcallee, ← hargs]
    rfl
  rw [hadvance] at hmove hstep
  obtain ⟨f', hf', hexpects, hnext, hstack⟩ := hmove.exists_call (by omega) rfl
  cases hstack
  rw [hstep]
  exact .call _ hf' hexpects callee args rfl rfl hasks hcarries rfl rfl

/-- An instruction before the error of a run that has overrun its budget. -/
theorem passing_marked (hplain : 7 ≤ f.pc ∧ f.pc ≤ 9) {left : Nat}
    (hstep : s.step = State.step.advance { s with left := left, mode := .deliver [] } f)
    (hmarked : s.heap.tripped = true) :
    Passing W s.heap.limit vs s.stack (3 * (18 - (f.pc + 1))) s.step := by
  have hmove := State.advance_guarded (s := { s with left := left, mode := .deliver [] }) hs.heap hf
  obtain ⟨f', hf', hnext, hgo⟩ := hmove.exists_go (by omega) (by omega)
  rw [hstep, hgo]
  refine .work f' hf' rfl rfl (by omega) (fun h4 => by omega) ?_ rfl (by rw [hnext])
  rw [hnext]
  exact ⟨fun h => by omega, fun _ _ => hmarked, fun h => by omega, fun h => by omega,
    fun h => by omega, fun h => by omega⟩

/-- The count of the packed values is read. -/
theorem passing_count (hpc : f.pc = 15) {left : Nat}
    (hstep : s.step = State.step.advance { s with left := left, mode := .deliver [] } f)
    (hcarries : Carries s.heap vs 15 f.registers) :
    Passing W s.heap.limit vs s.stack (3 * (18 - (15 + 1))) s.step := by
  obtain ⟨r, hr, hpacks⟩ := hcarries.packed (.inr (by decide))
  obtain ⟨_, -, ha⟩ := hf.wraps
  have hget : (s.heap.table r).getValue (.str "n".toUTF8) = .int (Int64.ofNat vs.length) :=
    hpacks.count
  have hput : s.step = State.go { s with left := left, mode := .deliver [] }
      (Frame.put { f with pc := 15 + 1 } 4 (.int (Int64.ofNat vs.length))) := by
    rw [hstep, State.advance_at hf hpc rfl]
    show State.execute { s with left := left, mode := .deliver [] } { f with pc := 16 }
      (.index 4 (.register 0) (.constant (.str "n".toUTF8))) = _
    simp only [State.execute, Frame.fetch, Constant.value, hr, hget]
    rfl
  refine passing_put hs hf (by decide) hput ?_
  exact hcarries.put ha.size (by decide) (by decide) (fun _ => .inr (by decide))
    (fun _ h => by omega) (fun _ => hcarries.clean (by decide))
    (fun _ => hcarries.table (by decide)) (fun _ => hcarries.first (by decide)) fun _ => if_pos rfl

/-- The packed values are about to be unpacked. -/
theorem passing_unpack (hpc : f.pc = 16) {left : Nat}
    (hstep : s.step = State.step.advance { s with left := left, mode := .deliver [] } f)
    (hcarries : Carries s.heap vs 16 f.registers) :
    Passing W s.heap.limit vs s.stack (3 * (18 - (16 + 1)) + 2) s.step := by
  obtain ⟨r, hr, hpacks⟩ := hcarries.packed (.inr (by decide))
  obtain ⟨_, -, ha⟩ := hf.wraps
  rw [hpc] at ha
  have hmove := State.advance_guarded (s := { s with left := left, mode := .deliver [] }) hs.heap hf
  rw [State.advance_unpack hf hpc (ha.unpack (by decide) (by decide))] at hmove hstep
  obtain ⟨f', hf', hexpects, -, hstack⟩ := hmove.exists_call (by omega) rfl
  cases hstack
  rw [hstep]
  refine .call _ hf' hexpects _ _ rfl rfl
    (.inr (.inr (.inr ⟨rfl, rfl, r, ?_, hpacks⟩))) hcarries rfl
    rfl
  rw [State.extract_three ha.size, hcarries.table (by decide), hr, hcarries.first (by decide),
    hcarries.count (by decide)]

end

/-- An instruction on the way leads on, unless it overruns the budget. -/
theorem step_work (hs : s.Kept W) (hf : f.Guarded W s.heap.tables.size)
    (hmode : s.mode = .execute f) (hpc : 4 ≤ f.pc ∧ f.pc ≤ 16 ∧ f.pc ≠ 11)
    (hhand : f.pc = 4 → f.hand = vs) (hcarries : Carries s.heap vs f.pc f.registers) :
    (∃ m < 3 * (18 - f.pc), Passing W s.heap.limit vs s.stack m s.step) ∨
    Outcome vs s.stack s.step := by
  obtain htrip | ⟨left, hstep⟩ := step_execute_cases hmode
  · rw [htrip]
    exact .inr (.overrun (tellsOverrun_trip { s with mode := .deliver [] } _))
  refine .inl ?_
  obtain ⟨_, -, ha⟩ := hf.wraps
  have hsize := ha.size
  obtain h | h | h | h | h | h | h | h | h | h : f.pc = 4 ∨ f.pc = 5 ∨ f.pc = 6 ∨
      (7 ≤ f.pc ∧ f.pc ≤ 9) ∨ f.pc = 10 ∨ f.pc = 12 ∨ f.pc = 13 ∨ f.pc = 14 ∨ f.pc = 15 ∨
      f.pc = 16 := by omega
  · -- the values are at hand, and the function that packs them is called
    rw [h] at ha
    refine ⟨_, ?_, passing_call hs hf h (by decide) hstep rfl
      (ha.pack (by decide) (by decide)) ?_ (.inl ⟨rfl, rfl, rfl⟩) (carries_of_le (by decide))⟩
    · omega
    · simpa using hhand h
  · rw [h] at hcarries
    refine ⟨_, ?_, passing_put (r := 1) hs hf (by decide)
      (hstep.trans (State.advance_at hf h rfl)) ?_⟩
    · omega
    · exact hcarries.put hsize (by decide) (by decide) (fun _ => .inl (by decide))
        (fun h => by omega) (fun h => by omega) (fun h => by omega) (fun h => by omega)
        fun h => by omega
  · -- the mark is asked for
    rw [h] at ha hcarries
    refine ⟨_, ?_, passing_call hs hf h (by decide) hstep rfl (ha.tripped rfl) ?_
      (.inr (.inl ⟨rfl, rfl, rfl⟩)) hcarries⟩
    · omega
    · simp
  · exact ⟨_, by omega, passing_marked hs hf h hstep (hcarries.marked h.1 (by omega))⟩
  · -- the run has overrun its budget, and `error` is called
    rw [h] at ha hcarries
    refine ⟨_, ?_, passing_call hs hf h (by decide) hstep rfl
      (ha.error (by decide) (by decide)) ?_ (.inr (.inr (.inl ⟨rfl, rfl, rfl⟩))) hcarries⟩
    · omega
    · show (f.registers.extract 2 4).toList ++ [] = _
      rw [List.append_nil, State.extract_two hsize, ha.message (by decide) (by decide),
        ha.level rfl]
  · -- it has not, and the arguments for unpacking are put together
    rw [h] at hcarries
    refine ⟨_, ?_, passing_put (r := 1) hs hf (by decide)
      (hstep.trans (State.advance_at hf h rfl)) ?_⟩
    · omega
    · exact hcarries.put hsize (by decide) (by decide) (fun _ => .inr (by decide))
        (fun _ h => by omega) (fun _ => hcarries.clean (by decide)) (fun h => by omega)
        (fun h => by omega) fun h => by omega
  · rw [h] at hcarries
    refine ⟨_, ?_, passing_put (r := 2) hs hf (by decide)
      (hstep.trans (State.advance_at hf h rfl)) ?_⟩
    · omega
    · exact hcarries.put hsize (by decide) (by decide) (fun _ => .inr (by decide))
        (fun _ h => by omega) (fun _ => hcarries.clean (by decide)) (fun _ => if_pos rfl)
        (fun h => by omega) fun h => by omega
  · rw [h] at hcarries
    refine ⟨_, ?_, passing_put (r := 3) hs hf (by decide)
      (hstep.trans (State.advance_at hf h rfl)) ?_⟩
    · omega
    · exact hcarries.put hsize (by decide) (by decide) (fun _ => .inr (by decide))
        (fun _ h => by omega) (fun _ => hcarries.clean (by decide))
        (fun _ => hcarries.table (by decide)) (fun _ => if_pos rfl) fun h => by omega
  · rw [h] at hcarries
    exact ⟨_, by omega, passing_count hs hf h hstep hcarries⟩
  · rw [h] at hcarries
    exact ⟨_, by omega, passing_unpack hs hf h hstep hcarries⟩

/-! ### A library function is called -/

/-- A library function that ends at once. -/
theorem step_call_of_done {b : Builtin} {args : List Value}
    (hmode : s.mode = .call .operation (.builtin b) args) (hpcall : b ≠ .base .pcall)
    (hxpcall : b ≠ .base .xpcall) (hrun : b.run args s.heap = .done h ws) :
    s.step = { s with heap := h, mode := .deliver ws } := by
  rw [step_call_library hmode hpcall hxpcall]
  unfold State.perform
  dsimp only
  rw [hrun]
  rfl

/-- A library function that fails. -/
theorem step_call_of_failed {b : Builtin} {args : List Value} {e : Raised}
    (hmode : s.mode = .call .operation (.builtin b) args) (hpcall : b ≠ .base .pcall)
    (hxpcall : b ≠ .base .xpcall) (hrun : b.run args s.heap = .failed h e) :
    s.step = State.fail { s with heap := h, mode := .deliver [] } (.library (some b)) e := by
  rw [step_call_library hmode hpcall hxpcall]
  unfold State.perform
  dsimp only
  rw [hrun]
  rfl

theorem tripped_fail (s : State) (o : Origin) (e : Raised) :
    (s.fail o e).heap.tripped = s.heap.tripped := by
  cases e <;> rfl

/-- A library function that is called on the way gives its values, or the way ends. -/
theorem step_asked (hf : f.Guarded W s.heap.tables.size) (hexpects : f.Expects) {callee : Value}
    {args : List Value} (hmode : s.mode = .call .operation callee args)
    (hstack : s.stack = .script f :: rest) (hasks : Asks s.heap vs f.pc callee args)
    (hcarries : Carries s.heap vs (f.pc - 1) f.registers) :
    Passing W s.heap.limit vs rest (3 * (18 - f.pc) + 1) s.step ∨ Outcome vs rest s.step := by
  rcases hasks with ⟨hpc, rfl, rfl⟩ | ⟨hpc, rfl, rfl⟩ | ⟨hpc, rfl, rfl⟩ | ⟨hpc, rfl, r, rfl, hpacks⟩
  · -- the values are packed
    obtain ⟨t, ht, hpacked⟩ := Library.packed_eq args s.heap
    rw [step_call_of_done hmode nofun nofun hpacked]
    have hsize : s.heap.tables.size ≤ (s.heap.newTable t).1.tables.size := by
      simp [Heap.newTable]
    refine .inl (.receive f (hf.mono hsize) hexpects _ rfl hstack
      (.inr (.inl ⟨hpc, _, rfl, ?_⟩)) (carries_of_le (by omega)) rfl rfl)
    rw [Heap.table_push (h := s.heap) (t := t) _ rfl]
    simpa [Heap.newTable] using ht
  · -- the mark is read
    have hrun : Builtin.tripped.run [] s.heap = .done s.heap [.bool s.heap.tripped] := rfl
    rw [step_call_of_done hmode nofun nofun hrun]
    exact .inl
      (.receive f hf hexpects _ rfl hstack (.inr (.inr (.inl ⟨hpc, rfl⟩))) hcarries rfl rfl)
  · -- `error` raises the message as it is
    rw [step_call_of_failed hmode nofun nofun (h := s.heap) (e := .value (.ofString overrunMessage))
      rfl]
    exact .inr (.overrun
      ⟨f, _, hstack, rfl, .inl rfl, hcarries.marked (by omega) (by omega)⟩)
  · -- the values are unpacked
    have hclean := hcarries.clean (by omega)
    have hshort : vs.length < slotLimit → Library.unpack [.table r, .int 1,
        .int (Int64.ofNat vs.length)] s.heap = .done s.heap vs :=
      fun hlt => Library.unpack_of_packs hpacks hlt
    obtain ⟨ws, hws⟩ | ⟨e, he⟩ :=
      Library.unpack_of_table hpacks.metatable (Int64.ofNat vs.length)
    · rw [step_call_of_done hmode nofun nofun hws]
      refine .inl (.receive f hf hexpects ws rfl hstack (.inr (.inr (.inr ⟨hpc, fun hlt => ?_⟩)))
        hcarries rfl rfl)
      cases hws.symm.trans (hshort hlt)
      rfl
    · have hlong : slotLimit ≤ vs.length := by
        by_contra hlt
        cases he.symm.trans (hshort (by omega))
      rw [step_call_of_failed hmode nofun nofun he]
      exact .inr (.tooMany hlong _ f hstack rfl ((tripped_fail _ _ e).trans hclean))

/-! ### Values arrive -/

/-- Values that arrive on the way are taken on, or they are on their way to the caller. -/
theorem step_given (hs : s.Kept W) (hf : f.Guarded W s.heap.tables.size) (hexpects : f.Expects)
    (hmode : s.mode = .deliver ws) (hstack : s.stack = .script f :: rest)
    (hgives : Gives s.heap vs f.pc ws) (hcarries : Carries s.heap vs (f.pc - 1) f.registers) :
    (∃ m < 3 * (18 - f.pc) + 1, Passing W s.heap.limit vs rest m s.step) ∨
    Outcome vs rest s.step := by
  obtain ⟨_, -, ha⟩ := hf.wraps
  have hstep : s.step = State.resume { s with stack := rest, mode := .deliver [] } f ws := by
    rw [State.step_deliver hmode]
    unfold State.deliver
    rw [hstack]
  -- what goes on is the protected call itself
  have hgo (g : Frame) (hg : g.proto = f.proto ∧ g.upvalues = f.upvalues)
      (heq : s.step = State.go { s with stack := rest, mode := .deliver [] } g)
      (hpc : 4 ≤ g.pc ∧ g.pc ≤ 16 ∧ g.pc ≠ 11) (hle : f.pc ≤ g.pc) (hhand : g.pc = 4 → g.hand = vs)
      (hcarries : Carries s.heap vs g.pc g.registers) :
      ∃ m < 3 * (18 - f.pc) + 1, Passing W s.heap.limit vs rest m s.step := by
    have hmade : g.Made W := by
      unfold Frame.Made
      rw [hg.1, hg.2]
      exact hf.made
    have hguarded := guarded_of_execute (State.step_leads hs).kept (f := g) (by rw [heq]; rfl) hmade
    rw [heq] at hguarded ⊢
    exact ⟨3 * (18 - g.pc), by omega, .work g hguarded rfl rfl hpc hhand hcarries rfl rfl⟩
  unfold State.resume at hstep
  unfold Frame.Expects at hexpects
  rcases hgives with ⟨hpc, rfl⟩ | ⟨hpc, r, rfl, hpacks⟩ | ⟨hpc, rfl⟩ | ⟨hpc, hws⟩
  · -- what the raw call gives, all of it
    have hwant : f.want = .all := by simpa [hpc] using hexpects
    rw [hwant] at hstep
    exact .inl (hgo { f with hand := ws, want := .all } ⟨rfl, rfl⟩ hstep (by simp [hpc])
      (Nat.le_refl _) (fun _ => rfl) (carries_of_le (by simp [hpc])))
  · -- the table that they are packed in, for the first register
    have hwant : f.want = .registers 0 1 := by simpa [hpc] using hexpects
    rw [hwant] at hstep
    refine .inl (hgo (f.put 0 (.table r)) ⟨rfl, rfl⟩ hstep ?_ (Nat.le_refl _) ?_ ?_)
    · show 4 ≤ f.pc ∧ f.pc ≤ 16 ∧ f.pc ≠ 11
      omega
    · intro h4
      have h4 : f.pc = 4 := h4
      omega
    · show Carries s.heap vs f.pc (f.registers.set! 0 (.table r))
      rw [hpc]
      refine ⟨fun _ => ⟨r, ?_, hpacks⟩, fun _ h => by omega, fun h => by omega, fun h => by omega,
        fun h => by omega, fun h => by omega⟩
      rw [Registers.getD_set! ha.size (by decide), if_pos rfl]
  · -- the mark, which decides where the way leads
    have hwant : f.want = .test false 12 := by simpa [hpc] using hexpects
    rw [hwant] at hstep
    refine .inl ?_
    cases htripped : s.heap.tripped with
    | false =>
      rw [htripped] at hstep
      have hpacked := hcarries.packed (by omega)
      exact hgo (f.goto 12) ⟨rfl, rfl⟩ hstep (by simp [Frame.goto]) (by simp [Frame.goto, hpc])
        (by simp [Frame.goto]) ⟨fun _ => hpacked, fun _ => by simp [Frame.goto],
          fun _ => htripped, by simp [Frame.goto], by simp [Frame.goto], by simp [Frame.goto]⟩
    | true =>
      rw [htripped] at hstep
      exact hgo f ⟨rfl, rfl⟩ hstep (by omega) (Nat.le_refl _) (by omega) (by
        rw [hpc]
        exact ⟨fun _ => by omega, fun _ _ => htripped, fun _ => by omega, fun _ => by omega,
          fun _ => by omega, fun _ => by omega⟩)
  · -- the unpacked values, which the protected call returns
    have hwant : f.want = .result := by simpa [hpc] using hexpects
    rw [hwant] at hstep
    rw [hstep]
    exact .inr (.returned ws hws rfl rfl (hcarries.clean (by omega)))

/-! ### The way begins -/

/-- A raw call finishes, and `vs` is what it gives to the protected call `f` on top of `rest`. -/
inductive Finishes (s : State) (f : Frame) (rest : List Task) (vs : List Value) : Prop
  /-- The function that was called has given values. -/
  | values {handler : Option Value} {counting : Bool} {ws : List Value}
      (hstack : s.stack = .guard handler counting :: .script f :: rest)
      (hmode : s.mode = .deliver ws) (hvs : vs = .bool true :: ws)
  /-- An error is caught, after the message handler if there is one. -/
  | error {handler : Option Value} {counting : Bool} {e : Failure}
      (hstack : s.stack = .guard handler counting :: .script f :: rest)
      (hmode : s.mode = .unwind e) (hvs : vs = [.bool false, e.told])

theorem Finishes.tidy_eq (h : Finishes s f rest vs) : s.tidy = s := by
  refine State.tidy_of_ne fun g hg => ?_
  cases h with
  | values heq hmode => cases hg.symm.trans hmode
  | error heq hmode => cases hg.symm.trans hmode

/-- What a raw call gives is on its way to the protected call. -/
theorem Finishes.step (h : Finishes s f rest vs) (hs : s.Kept W) :
    f.Made W ∧ Passing W s.heap.limit vs rest 43 s.step := by
  have hstack := hs.stack
  obtain @⟨handler, counting, ws, heq, hmode, rfl⟩ | @⟨handler, counting, e, heq, hmode, rfl⟩ := h
  all_goals
    rw [heq] at hstack
    obtain ⟨-, ⟨hf, hpc, hwant⟩, -⟩ := hstack
    refine ⟨hf.made, ?_⟩
  · rw [State.step_deliver hmode]
    unfold State.deliver
    rw [heq]
    exact .receive f hf (.inl ⟨hpc, hwant⟩) _ rfl rfl (.inl ⟨hpc, rfl⟩) (carries_of_le (by omega))
      rfl (by omega)
  · rw [State.step_unwind hmode]
    unfold State.unwindTop
    rw [heq]
    exact .receive f hf (.inl ⟨hpc, hwant⟩) _ rfl rfl (.inl ⟨hpc, rfl⟩) (carries_of_le (by omega))
      rfl (by omega)

/-! ### The whole way -/

namespace Passing

theorem rank_pos (h : Passing W l vs rest n s) : 0 < n := by
  cases h with
  | work f hf hmode hstack hpc hhand hcarries hlimit hn => omega
  | call f hf hexpects callee args hmode hstack hasks hcarries hlimit hn => omega
  | receive f hf hexpects ws hmode hstack hgives hcarries hlimit hn => omega

/-- Values that are on the way are not on their way to the caller yet. -/
theorem stack_ne (h : Passing W l vs rest n s) (hmode : s.mode = .deliver ws) : s.stack ≠ rest := by
  cases h with
  | work f hf hmode' => cases hmode.symm.trans hmode'
  | call f hf hexpects callee args hmode' => cases hmode.symm.trans hmode'
  | receive f hf hexpects ws hmode' hstack =>
    rw [hstack]
    exact List.cons_ne_self _ _

/-- A move leads on, or to an end. -/
theorem step (h : Passing W l vs rest n s) (hs : s.Kept W) :
    (∃ m < n, Passing W l vs rest m s.step) ∨ Outcome vs rest s.step := by
  cases h with
  | work f hf hmode hstack hpc hhand hcarries hlimit hn =>
    subst hn hstack hlimit
    exact step_work hs hf hmode hpc hhand hcarries
  | call f hf hexpects callee args hmode hstack hasks hcarries hlimit hn =>
    subst hn hlimit
    exact (step_asked hf hexpects hmode hstack hasks hcarries).imp_left fun h => ⟨_, by omega, h⟩
  | receive f hf hexpects ws hmode hstack hgives hcarries hlimit hn =>
    subst hn hlimit
    exact step_given hs hf hexpects hmode hstack hgives hcarries

/-- The collector leaves the way where it is, or the memory is used up: no table there is weak. -/
theorem tidy (h : Passing W l vs rest n s) :
    Passing W l vs rest n s.tidy ∨ l ≠ none ∧ s.tidy.OutOfMemory ∧ s.tidy.stack = rest := by
  obtain heq | ⟨⟨f, hmode⟩, hcollect⟩ := s.tidy_eq_or
  · exact .inl (heq.symm ▸ h)
  · cases h with
    | work f hf hmode' hstack hpc hhand hcarries hlimit hn =>
      subst hstack
      obtain heq | ⟨hnone, heq⟩ := hcollect
      · rw [heq]
        exact .inl (.work f ((Heap.size_collected ..).symm ▸ hf) hmode' rfl hpc hhand
          hcarries.collected ((Heap.limit_collected ..).trans hlimit) hn)
      · rw [heq]
        exact .inr ⟨hlimit ▸ hnone, State.outOfMemory_unwinding _⟩
    | call f hf hexpects callee args hmode' => cases hmode.symm.trans hmode'
    | receive f hf hexpects ws hmode' => cases hmode.symm.trans hmode'

/-- An end of the way is reached. -/
theorem exists_outcome (h : Passing W l vs rest n s) (hs : s.Kept W) :
    ∃ k ≤ n, Outcome vs rest (s.run k) ∨ l ≠ none ∧ (s.run k).tidy.OutOfMemory := by
  -- every move takes up room first, and that may end the way as well
  induction n using Nat.strongRecOn generalizing s with
  | _ n ih =>
    obtain htidy | ⟨hlimit, hmemory, -⟩ := h.tidy
    · have hkept := (State.tidy_leads hs).kept
      obtain ⟨m, hm, hnext⟩ | hend := htidy.step hkept
      · obtain ⟨k, hle, hk⟩ := ih m hm hnext (State.step_leads hkept).kept
        refine ⟨k + 1, by omega, ?_⟩
        rw [State.run_eq_step]
        exact hk
      · refine ⟨1, h.rank_pos, .inl ?_⟩
        rw [State.run_eq_step]
        exact hend
    · exact ⟨0, Nat.zero_le n, .inr ⟨hlimit, hmemory⟩⟩

end Passing

end Guard

end StoryPack.Script
