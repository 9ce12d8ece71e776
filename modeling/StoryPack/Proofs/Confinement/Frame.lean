/-
Calls of script functions.

A call holds registers, variables and values at hand.  Most calls hold only what
scripts may hold.  A protected call holds more: its captured variables are fixed
cells, and while it runs one of its registers has the library function that
catches errors.  What its registers have is known at each of its instructions.

* `Frame.Free` — a call of a function of a script;
* `Guard.Registers` — the registers of a protected call at an instruction;
* `Frame.Guarded` — a protected call, `Frame.Expects` when it waits for values;
* `Frame.Kept`, `Frame.Waits` — a call at work, and one that waits.
-/
import StoryPack.Proofs.Confinement.Library
import StoryPack.Script.Machine

namespace StoryPack.Script

variable {W : Ward} {n m : Nat}

/-- A call that holds only what scripts may hold. -/
structure Frame.Free (W : Ward) (n : Nat) (f : Frame) : Prop where
  registers : ∀ v ∈ f.registers, v.Ok W n
  boxes : ∀ c ∈ f.boxes, W.cells c = none
  upvalues : ∀ c ∈ f.upvalues, W.cells c = none
  varargs : Oks W n f.varargs
  hand : Oks W n f.hand
  closing : ∀ c ∈ f.closing, c.2.Ok W n

/-- What the registers of a protected call hold when the instruction at `pc` is next. Its second
register has the function that catches errors until something else is put there. -/
structure Guard.Registers (W : Ward) (n : Nat) (raw : BaseFunction) (pc : Nat)
    (a : Array Value) : Prop where
  size : a.size = 5
  ok : ∀ i, i ≠ 2 → (a.getD i .nil).Ok W n
  second : 9 ≤ pc → pc ≠ 12 → pc ≠ 13 → (a.getD 2 .nil).Ok W n
  raw : 2 ≤ pc → pc ≤ 3 → a.getD 2 .nil = .builtin (.base raw)
  pack : 1 ≤ pc → pc ≤ 4 → a.getD 1 .nil = .builtin (.table .pack)
  tripped : pc = 6 → a.getD 1 .nil = .builtin .tripped
  error : 8 ≤ pc → pc ≤ 10 → a.getD 1 .nil = .builtin (.base .error)
  message : 9 ≤ pc → pc ≤ 10 → a.getD 2 .nil = .ofString overrunMessage
  level : pc = 10 → a.getD 3 .nil = .int 0
  unpack : 13 ≤ pc → pc ≤ 16 → a.getD 1 .nil = .builtin (.table .unpack)

/-- A protected call. -/
structure Frame.Guarded (W : Ward) (n : Nat) (f : Frame) : Prop where
  made : ∃ r raw, W.wrappers r = some (⟨f.proto, f.upvalues⟩, raw)
  wraps : ∃ raw, W.Wraps ⟨f.proto, f.upvalues⟩ raw ∧ Guard.Registers W n raw f.pc f.registers
  pc : f.pc ≤ 17
  boxes : f.boxes = #[]
  varargs : Oks W n f.varargs
  hand : Oks W n f.hand
  closing : f.closing = []

/-- What a protected call does with the values that it waits for. -/
def Frame.Expects (f : Frame) : Prop :=
  f.pc = 4 ∧ f.want = .all ∨ f.pc = 5 ∧ f.want = .registers 0 1 ∨
    f.pc = 7 ∧ f.want = .test false 12 ∨ f.pc = 11 ∧ f.want = .none ∨
    f.pc = 16 ∧ f.want = .registers 4 1 ∨ f.pc = 17 ∧ f.want = .result

/-- A call at work. -/
def Frame.Kept (W : Ward) (n : Nat) (f : Frame) : Prop := f.Free W n ∨ f.Guarded W n

/-- A call that hands on the values that it waits for. -/
def Frame.Passes (f : Frame) : Prop := f.want = .result ∧ f.closing = []

/-- A call that waits for values. -/
def Frame.Waits (W : Ward) (n : Nat) (f : Frame) : Prop :=
  f.Free W n ∨ f.Guarded W n ∧ f.Expects ∨ f.Passes

theorem Guard.Registers.mono {raw : BaseFunction} {pc : Nat} {a : Array Value}
    (h : Guard.Registers W n raw pc a) (hle : n ≤ m) : Guard.Registers W m raw pc a where
  size := h.size
  ok i hi := (h.ok i hi).mono hle
  second h₁ h₂ h₃ := (h.second h₁ h₂ h₃).mono hle
  raw := h.raw
  pack := h.pack
  tripped := h.tripped
  error := h.error
  message := h.message
  level := h.level
  unpack := h.unpack

namespace Guard.Registers

variable {raw : BaseFunction} {pc pc' : Nat} {a : Array Value}

theorem getD_set! (ha : a.size = 5) {i : Nat} (hi : i < 5) (v : Value) (j : Nat) :
    (a.set! i v).getD j .nil = if i = j then v else a.getD j .nil := by
  simp only [Array.getD_eq_getD_getElem?, Array.set!_eq_setIfInBounds,
    Array.getElem?_setIfInBounds]
  split
  · rw [if_pos (by omega)]
    rfl
  · rfl

/-- The registers at another instruction. -/
theorem goto (h : Guard.Registers W n raw pc a)
    (hsecond : 9 ≤ pc' → pc' ≠ 12 → pc' ≠ 13 → (a.getD 2 .nil).Ok W n)
    (hraw : 2 ≤ pc' → pc' ≤ 3 → a.getD 2 .nil = .builtin (.base raw))
    (hpack : 1 ≤ pc' → pc' ≤ 4 → a.getD 1 .nil = .builtin (.table .pack))
    (htripped : pc' = 6 → a.getD 1 .nil = .builtin .tripped)
    (herror : 8 ≤ pc' → pc' ≤ 10 → a.getD 1 .nil = .builtin (.base .error))
    (hmessage : 9 ≤ pc' → pc' ≤ 10 → a.getD 2 .nil = .ofString overrunMessage)
    (hlevel : pc' = 10 → a.getD 3 .nil = .int 0)
    (hunpack : 13 ≤ pc' → pc' ≤ 16 → a.getD 1 .nil = .builtin (.table .unpack)) :
    Guard.Registers W n raw pc' a :=
  ⟨h.size, h.ok, hsecond, hraw, hpack, htripped, herror, hmessage, hlevel, hunpack⟩

/-- The registers at another instruction, after one of them has been written. -/
theorem put (h : Guard.Registers W n raw pc a) {i : Nat} (hi : i < 5) {v : Value}
    (hv : i ≠ 2 → v.Ok W n)
    (hsecond : 9 ≤ pc' → pc' ≠ 12 → pc' ≠ 13 → (if i = 2 then v else a.getD 2 .nil).Ok W n)
    (hraw : 2 ≤ pc' → pc' ≤ 3 → (if i = 2 then v else a.getD 2 .nil) = .builtin (.base raw))
    (hpack : 1 ≤ pc' → pc' ≤ 4 → (if i = 1 then v else a.getD 1 .nil) = .builtin (.table .pack))
    (htripped : pc' = 6 → (if i = 1 then v else a.getD 1 .nil) = .builtin .tripped)
    (herror : 8 ≤ pc' → pc' ≤ 10 →
      (if i = 1 then v else a.getD 1 .nil) = .builtin (.base .error))
    (hmessage : 9 ≤ pc' → pc' ≤ 10 →
      (if i = 2 then v else a.getD 2 .nil) = .ofString overrunMessage)
    (hlevel : pc' = 10 → (if i = 3 then v else a.getD 3 .nil) = .int 0)
    (hunpack : 13 ≤ pc' → pc' ≤ 16 →
      (if i = 1 then v else a.getD 1 .nil) = .builtin (.table .unpack)) :
    Guard.Registers W n raw pc' (a.set! i v) := by
  constructor
  case size => simp [h.size]
  case ok =>
    intro j hj
    rw [getD_set! h.size hi]
    split
    · rename_i hij
      exact hv (hij ▸ hj)
    · exact h.ok j hj
  all_goals
    rw [getD_set! h.size hi]
    assumption

end Guard.Registers

namespace Frame

variable {f : Frame}

theorem Free.mono (h : f.Free W n) (hle : n ≤ m) : f.Free W m where
  registers v hv := (h.registers v hv).mono hle
  boxes := h.boxes
  upvalues := h.upvalues
  varargs := h.varargs.mono hle
  hand := h.hand.mono hle
  closing c hc := (h.closing c hc).mono hle

theorem Guarded.mono (h : f.Guarded W n) (hle : n ≤ m) : f.Guarded W m where
  made := h.made
  wraps := by
    obtain ⟨raw, hwraps, hregisters⟩ := h.wraps
    exact ⟨raw, hwraps, hregisters.mono hle⟩
  pc := h.pc
  boxes := h.boxes
  varargs := h.varargs.mono hle
  hand := h.hand.mono hle
  closing := h.closing

theorem Waits.mono (h : f.Waits W n) (hle : n ≤ m) : f.Waits W m :=
  h.imp (fun h => h.mono hle) fun h => h.imp_left fun h => ⟨h.1.mono hle, h.2⟩

theorem Waits.closing (h : f.Waits W n) : ∀ c ∈ f.closing, c.2.Ok W n := by
  have hnil (hnil : f.closing = []) : ∀ c ∈ f.closing, c.2.Ok W n := by
    rw [hnil]
    intro c hc
    cases hc
  rcases h with h | ⟨h, -⟩ | ⟨-, h⟩
  · exact h.closing
  · exact hnil h.closing
  · exact hnil h

theorem Guarded.at (h : f.Guarded W n) {raw : BaseFunction}
    (hwraps : W.Wraps ⟨f.proto, f.upvalues⟩ raw) (pc : Nat) (hpc : pc ≤ 17) {a : Array Value}
    (ha : Guard.Registers W n raw pc a) {hand : List Value} (hhand : Oks W n hand) (want : Want) :
    Guarded W n { f with pc := pc, registers := a, hand := hand, want := want } :=
  ⟨h.made, ⟨raw, hwraps, ha⟩, hpc, h.boxes, h.varargs, hhand, h.closing⟩

/-! ### Calls of functions of scripts -/

namespace Free

theorem getD (h : f.Free W n) (r : Nat) : (f.registers.getD r .nil).Ok W n := by
  rw [Array.getD_eq_getD_getElem?]
  cases hr : f.registers[r]? with
  | none => trivial
  | some v => exact h.registers v (Array.mem_of_getElem? hr)

theorem box (h : f.Free W n) (hzero : W.cells 0 = none) (b : Nat) :
    W.cells (f.boxes.getD b 0) = none := by
  rw [Array.getD_eq_getD_getElem?]
  cases hb : f.boxes[b]? with
  | none => exact hzero
  | some c => exact h.boxes c (Array.mem_of_getElem? hb)

theorem upvalue (h : f.Free W n) (hzero : W.cells 0 = none) (u : Nat) :
    W.cells (f.upvalues.getD u 0) = none := by
  rw [Array.getD_eq_getD_getElem?]
  cases hu : f.upvalues[u]? with
  | none => exact hzero
  | some c => exact h.upvalues c (Array.mem_of_getElem? hu)

theorem fetch {h : Heap} (hf : f.Free W h.tables.size) (hk : h.Kept W) (o : Operand) :
    (f.fetch h o).Ok W h.tables.size := by
  cases o with
  | register r => exact hf.getD r
  | constant c => exact Value.ok_constant c
  | upvalue u => exact hk.cell_ok (hf.upvalue hk.sound.cell u)
  | box b => exact hk.cell_ok (hf.box hk.sound.cell b)

theorem put (h : f.Free W n) (r : Nat) {v : Value} (hv : v.Ok W n) : (f.put r v).Free W n where
  registers w hw := by
    rcases Array.mem_or_eq_of_mem_setIfInBounds hw with hw | rfl
    · exact h.registers w hw
    · exact hv
  boxes := h.boxes
  upvalues := h.upvalues
  varargs := h.varargs
  hand := h.hand
  closing := h.closing

theorem putAll (h : f.Free W n) (r count : Nat) {vs : List Value} (hvs : Oks W n vs) :
    (f.putAll r count vs).Free W n := by
  induction count generalizing f r vs with
  | zero => exact h
  | succ count ih =>
    cases vs with
    | nil => exact ih (h.put r Value.ok_nil) _ hvs
    | cons v vs =>
      obtain ⟨hv, hvs⟩ := Oks.cons_iff.mp hvs
      exact ih (h.put r hv) _ hvs

theorem goto (h : f.Free W n) (pc : Nat) : (f.goto pc).Free W n :=
  ⟨h.registers, h.boxes, h.upvalues, h.varargs, h.hand, h.closing⟩

theorem withHand (h : f.Free W n) {vs : List Value} (hvs : Oks W n vs) :
    Free W n { f with hand := vs } :=
  ⟨h.registers, h.boxes, h.upvalues, h.varargs, hvs, h.closing⟩

theorem withWant (h : f.Free W n) (want : Want) : Free W n { f with want := want } :=
  ⟨h.registers, h.boxes, h.upvalues, h.varargs, h.hand, h.closing⟩

theorem withClosing (h : f.Free W n) {closing : List (Nat × Value)}
    (hclosing : ∀ c ∈ closing, c.2.Ok W n) : Free W n { f with closing := closing } :=
  ⟨h.registers, h.boxes, h.upvalues, h.varargs, h.hand, hclosing⟩

theorem withBox (h : f.Free W n) (b : Nat) {c : Nat} (hc : W.cells c = none) :
    Free W n { f with boxes := f.boxes.set! b c } := by
  refine ⟨h.registers, fun d hd => ?_, h.upvalues, h.varargs, h.hand, h.closing⟩
  rcases Array.mem_or_eq_of_mem_setIfInBounds hd with hd | rfl
  · exact h.boxes d hd
  · exact hc

theorem gather (h : f.Free W n) (first count : Nat) (more : Bool) :
    Oks W n (f.gather first count more) := by
  unfold Frame.gather
  refine Oks.append_iff.mpr ⟨fun v hv => ?_, ?_⟩
  · rw [Array.mem_toList_iff] at hv
    obtain ⟨i, hi, rfl⟩ := Array.getElem_of_mem hv
    rw [Array.getElem_extract]
    exact h.registers _ (Array.getElem_mem _)
  · split
    · exact h.hand
    · exact .nil

end Free

end Frame

end StoryPack.Script
