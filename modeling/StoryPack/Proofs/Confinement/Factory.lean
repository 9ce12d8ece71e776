/-
The run that makes a protected call.

The compiled script of protected calls is run for each library function that
catches errors.  It captures what it is given, and two functions of the table
library, and returns the function that closes over them.  At each of its
instructions the collector may run; where there is a limit the script may run out of
memory there, and then gives nothing.

* `Guard.stage` — the state before each instruction of the script;
* `Guard.Made` — what the run may have added to the heap;
* `Guard.run_stage` — the run from each of its states.
-/
import StoryPack.Proofs.Confinement.Guard
import StoryPack.Proofs.Script.Collection
import StoryPack.Proofs.Script.Straight

namespace StoryPack.Guard

open Script

/-- What the captured variables of the script hold in the end. -/
def contents (raw : Value) : Array Value :=
  #[raw, .builtin .tripped, .ofString overrunMessage, .builtin (.table .pack),
    .builtin (.table .unpack)]

/-- How many of them there are before an instruction. -/
def captured : Nat → Nat
  | 0 | 1 => 0
  | 2 => 1
  | 3 => 2
  | 4 | 5 | 6 | 7 | 8 => 3
  | 9 => 4
  | _ => 5

/-- The registers before an instruction; `made` is the number of functions at the start. -/
def registers (raw : Value) (made : Nat) : Nat → Array Value
  | 0 => Array.replicate 6 .nil
  | 1 | 2 | 3 | 4 => #[raw, .builtin .tripped, .ofString overrunMessage, .nil, .nil, .nil]
  | 5 => #[raw, .builtin .tripped, .ofString overrunMessage, .nil, .nil, .table 2]
  | 6 =>
    #[raw, .builtin .tripped, .ofString overrunMessage, .builtin (.table .pack), .nil, .table 2]
  | 7 =>
    #[raw, .builtin .tripped, .ofString overrunMessage, .builtin (.table .pack), .nil, .table 2]
  | 8 | 9 | 10 =>
    #[raw, .builtin .tripped, .ofString overrunMessage, .builtin (.table .pack),
      .builtin (.table .unpack), .table 2]
  | _ =>
    #[raw, .builtin .tripped, .ofString overrunMessage, .builtin (.table .pack),
      .builtin (.table .unpack), .function (.closure made)]

/-- The cells of the captured variables; `c` is the number of cells at the start. -/
def boxes (c : Nat) : Nat → Array Nat
  | 0 => #[0, 0, 0, 0, 0]
  | 1 => #[c, 0, 0, 0, 0]
  | 2 => #[c, c + 1, 0, 0, 0]
  | 3 => #[c, c + 1, c + 2, 0, 0]
  | 4 => #[c, c + 1, c + 2, c + 3, 0]
  | _ => #[c, c + 1, c + 2, c + 3, c + 4]

/-- The function that the script makes. -/
def wrapperClosure (c : Nat) : Closure := ⟨wrapper, #[c + 3, c, c + 1, 1, c + 2, c + 4]⟩

variable (h : Heap) (raw : Value) (held : List Value)

/-- The heap before an instruction. -/
def stageHeap (pc used kept : Nat) : Heap :=
  { h with
    cells := h.cells ++ (contents raw).extract 0 (captured pc)
    closures := if pc ≤ 10 then h.closures else h.closures.push (wrapperClosure h.cells.size)
    used := used
    kept := kept }

/-- The frame before an instruction. -/
def stageFrame (pc : Nat) : Frame :=
  { proto := factory, upvalues := #[1], pc := pc, registers := registers raw h.closures.size pc
    boxes := boxes h.cells.size (captured pc)
    varargs := [raw, .builtin .tripped, .ofString overrunMessage], hand := [], closing := []
    want := .none }

/-- The state before an instruction. -/
def stage (pc used kept : Nat) : State :=
  { heap := stageHeap h raw pc used kept, stack := [.root true]
    mode := .execute (stageFrame h raw pc), slots := 8, held := held }

variable {h raw held}

theorem advance_stage {pc : Nat} {i : Instr} (hi : factoryCode[pc]? = some i)
    (used kept : Nat) :
    (stage h raw held pc used kept).step =
      State.execute { stage h raw held pc used kept with mode := .deliver [] }
        { stageFrame h raw pc with pc := pc + 1 } i := by
  have hcode : (stageFrame h raw pc).proto.code[(stageFrame h raw pc).pc]? = some i := by
    rw [← hi, ← factory_spec.1]
    rfl
  show State.step.advance { stage h raw held pc used kept with mode := .deliver [] }
    (stageFrame h raw pc) = _
  unfold State.step.advance
  rw [hcode]
  rfl

/-- What the script needs: its global variables, and the two functions in the table library. No
table is weak. -/
structure Needs (h : Heap) : Prop where
  strong : ∀ r, h.weakness (h.table r) = {}
  env : h.cells[1]? = some (.table Heap.globals)
  library : (h.table Heap.globals).getValue (.str "table".toUTF8) = .table 2
  pack : (h.table 2).getValue (.str "pack".toUTF8) = .builtin (.table .pack)
  unpack : (h.table 2).getValue (.str "unpack".toUTF8) = .builtin (.table .unpack)

/-- The table library is looked up. -/
theorem step_library (hh : Needs h) {pc used kept : Nat}
    (hi : factoryCode[pc]? = some (.index 5 (.upvalue 0) (.constant (.str "table".toUTF8)))) :
    (stage h raw held pc used kept).step =
      { stage h raw held pc used kept with
        mode := .execute (Frame.put { stageFrame h raw pc with pc := pc + 1 } 5 (.table 2)) } := by
  have henv : (stageHeap h raw pc used kept).cell 1 = .table Heap.globals := by
    have hlt : 1 < h.cells.size := (Array.getElem?_eq_some_iff.mp hh.env).1
    rw [Heap.cell, stageHeap, Array.getElem?_append_left hlt, hh.env]
    rfl
  rw [advance_stage hi]
  show State.execute _ _ _ = _
  unfold State.execute
  have hfetch : (stageHeap h raw pc used kept).cell ((stageFrame h raw pc).upvalues.getD 0 0) =
      .table Heap.globals := henv
  have htable : ((stageHeap h raw pc used kept).table Heap.globals).getValue (.str "table".toUTF8) =
      .table 2 := hh.library
  simp only [stage, hfetch, Frame.fetch, Constant.value, htable]
  rfl

/-- A function is looked up in it. -/
theorem step_function {f : TableFunction} {pc used kept : Nat} {name : String} (dst : Nat)
    (hget : (h.table 2).getValue (.str name.toUTF8) = .builtin (.table f))
    (hlast : (registers raw h.closures.size pc).getD 5 .nil = .table 2)
    (hi : factoryCode[pc]? = some (.index dst (.register 5) (.constant (.str name.toUTF8)))) :
    (stage h raw held pc used kept).step =
      { stage h raw held pc used kept with
        mode := .execute (Frame.put { stageFrame h raw pc with pc := pc + 1 } dst
          (.builtin (.table f))) } := by
  rw [advance_stage hi]
  show State.execute _ _ _ = _
  unfold State.execute
  have hfetch : (stageFrame h raw pc).registers.getD 5 .nil = .table 2 := hlast
  have htable : ((stageHeap h raw pc used kept).table 2).getValue (.str name.toUTF8) =
      .builtin (.table f) := hget
  simp only [stage, hfetch, Frame.fetch, Constant.value, htable]
  rfl

/-- Every instruction but the last leads to the next one. -/
theorem step_stage (raw : Value) (held : List Value) (hh : Needs h) {pc : Nat} (hpc : pc < 11)
    (used kept : Nat) : ∃ used',
    (stage h raw held pc used kept).step = stage h raw held (pc + 1) used' kept := by
  have hbox {pc b r : Nat} (hi : factoryCode[pc]? = some (.freshBox b (.register r))) :
      (stage h raw held pc used kept).step = State.execute
        { stage h raw held pc used kept with mode := .deliver [] }
        { stageFrame h raw pc with pc := pc + 1 } (.freshBox b (.register r)) :=
    advance_stage hi used kept
  match pc with
  | 0 =>
    refine ⟨used, ?_⟩
    rw [advance_stage (i := .varargs (.registers 0 3)) rfl]
    rfl
  | 1 =>
    refine ⟨used + 40, ?_⟩
    rw [hbox (b := 0) (r := 0) rfl]
    simp [State.execute, Frame.fetch, Heap.newCell, stage, stageHeap, stageFrame, captured,
      registers, boxes, contents]
  | 2 =>
    refine ⟨used + 40, ?_⟩
    rw [hbox (b := 1) (r := 1) rfl]
    simp [State.execute, Frame.fetch, Heap.newCell, stage, stageHeap, stageFrame, captured,
      registers, boxes, contents]
    rfl
  | 3 =>
    refine ⟨used + 40, ?_⟩
    rw [hbox (b := 2) (r := 2) rfl]
    simp [State.execute, Frame.fetch, Heap.newCell, stage, stageHeap, stageFrame, captured,
      registers, boxes, contents]
  | 4 => exact ⟨used, (step_library hh rfl).trans rfl⟩
  | 5 => exact ⟨used, (step_function 3 hh.pack rfl rfl).trans rfl⟩
  | 6 => exact ⟨used, (step_library hh rfl).trans rfl⟩
  | 7 => exact ⟨used, (step_function 4 hh.unpack rfl rfl).trans rfl⟩
  | 8 =>
    refine ⟨used + 40, ?_⟩
    rw [hbox (b := 3) (r := 3) rfl]
    simp [State.execute, Frame.fetch, Heap.newCell, stage, stageHeap, stageFrame, captured,
      registers, boxes, contents]
  | 9 =>
    refine ⟨used + 40, ?_⟩
    rw [hbox (b := 4) (r := 4) rfl]
    simp [State.execute, Frame.fetch, Heap.newCell, stage, stageHeap, stageFrame, captured,
      registers, boxes, contents]
  | 10 =>
    refine ⟨used + 40 + 8 * 6, ?_⟩
    rw [advance_stage (i := .closure 5 0) rfl]
    have hproto : factory.protos.getD 0 default = wrapper := rfl
    simp only [State.execute, State.makeClosure, stageFrame, hproto, wrapper_spec.2.2.2.2.2]
    simp [Heap.newClosure, stage, stageHeap, stageFrame, captured, registers, boxes,
      wrapperClosure, Frame.put]

/-- Before an instruction the collector may run. It changes only counts, but it may find that there
is too little memory. -/
theorem tidy_stage (raw : Value) (held : List Value) (hh : Needs h) (pc used kept : Nat) :
    ∃ used' kept', (stage h raw held pc used kept).tidy = stage h raw held pc used' kept' ∨
      h.limit ≠ none ∧ (stage h raw held pc used kept).tidy =
        { stage h raw held pc used' kept' with mode := .unwind .memory } := by
  have htidy : (stage h raw held pc used kept).tidy =
      if (stageHeap h raw pc used kept).isDue then (stage h raw held pc used kept).collect
      else stage h raw held pc used kept := rfl
  rw [htidy]
  by_cases hdue : (stageHeap h raw pc used kept).isDue
  · obtain ⟨n, hn⟩ := @Heap.collected_of_strong (stageHeap h raw pc used kept)
      (stage h raw held pc used kept).roots (stage h raw held pc used kept).showsAll hh.strong
    have hheap : (stage h raw held pc used kept).heap = stageHeap h raw pc used kept := rfl
    refine ⟨n, n, ?_⟩
    rw [if_pos hdue]
    unfold State.collect
    dsimp only
    rw [hheap, hn]
    split
    · rename_i hfull
      refine .inr ⟨fun hlimit => ?_, rfl⟩
      have hnone : (stageHeap h raw pc n n).limit = none := hlimit
      have hfull : (stageHeap h raw pc n n).exhausted = true := hfull
      rw [Heap.exhausted, hnone] at hfull
      cases hfull
    · exact .inl rfl
  · rw [if_neg hdue]
    exact ⟨used, kept, .inl rfl⟩

/-- What the run may have added to a heap, and how it ends: with the new function, or with an error
where there is a limit. -/
inductive Made (h : Heap) (raw : Value) (g : Heap) : Conclusion → Prop where
  | function (used kept : Nat) (hg : g = stageHeap h raw 11 used kept) :
    Made h raw g (.values [.function (.closure h.closures.size)])
  | nothing {r : Conclusion} (pc used kept : Nat) (hg : g = stageHeap h raw pc used kept)
    (hr : ∀ vs, r ≠ .values vs) (hlimit : h.limit ≠ none) : Made h raw g r

/-- The run from the state before an instruction, if it takes the two moves for each instruction and
its values at the end. -/
theorem run_stage (hh : Needs h) {pc : Nat} (hpc : pc ≤ 11) (used kept : Nat) {patience : Nat}
    (hpatience : 13 ≤ patience + pc) :
    let s := (stage h raw held pc used kept).run patience
    Made h raw s.heap s.conclusion := by
  induction patience generalizing pc used kept with
  | zero => omega
  | succ patience ih =>
    have hrun : (stage h raw held pc used kept).run (patience + 1) =
        (stage h raw held pc used kept).tidy.step.run patience := rfl
    rw [hrun]
    obtain ⟨used', kept', htidy | ⟨hlimit, htidy⟩⟩ := tidy_stage raw held hh pc used kept
    · rw [htidy]
      rcases Nat.lt_or_eq_of_le hpc with hlt | rfl
      · obtain ⟨used'', hstep⟩ := step_stage raw held hh hlt used' kept'
        rw [hstep]
        exact ih hlt used'' kept' (by omega)
      · -- the function is returned
        have hstep : (stage h raw held 11 used' kept').step =
            { stage h raw held 11 used' kept' with
              mode := .deliver [.function (.closure h.closures.size)], slots := 0 } := by
          rw [advance_stage (i := .ret 5 1 false) rfl]
          simp only [State.execute, stage, stageFrame, Frame.gather, factory_spec.2.2.2.2]
          rfl
        rw [hstep]
        obtain ⟨patience, rfl⟩ : ∃ n, patience = n + 1 := ⟨patience - 1, by omega⟩
        have hend : (State.run (patience + 1) { stage h raw held 11 used' kept' with
              mode := .deliver [.function (.closure h.closures.size)], slots := 0 }) =
            { stage h raw held 11 used' kept' with
              stack := [], mode := .ended (.values [.function (.closure h.closures.size)])
              slots := 0 } :=
          State.run_of_ended rfl patience
        rw [hend]
        exact .function used' kept' rfl
    · rw [htidy]
      have hend : State.run patience
            (State.step { stage h raw held pc used' kept' with mode := .unwind .memory }) =
          { stage h raw held pc used' kept' with stack := [], mode := .ended (.failed .memory) } :=
        State.run_of_ended rfl patience
      rw [hend]
      exact .nothing pc used' kept' rfl (fun vs hvs => by cases hvs) hlimit

/-- The call of the script. -/
theorem call_factory (raw : Value) (held : List Value) (hh : Needs h) {f : Nat}
    (hf : h.closures[f]? = some ⟨factory, #[1]⟩) {patience : Nat} (hpatience : 14 ≤ patience) :
    let r := h.perform patience true none held (.function (.closure f))
      [raw, .builtin .tripped, .ofString overrunMessage]
    Made h raw r.1 r.2 := by
  unfold Heap.perform
  dsimp only
  have hstart : stageHeap h raw 0 h.used h.kept = h := by
    simp [stageHeap, captured]
  obtain ⟨patience, rfl⟩ : ∃ n, patience = n + 1 := ⟨patience - 1, by omega⟩
  have hstep : (State.start h true none held (.function (.closure f))
      [raw, .builtin .tripped, .ofString overrunMessage]).step =
      stage h raw held 0 h.used h.kept := by
    show State.enterIfRoom _ f _ = _
    have hclosure : (h.closures[f]?).getD default = ⟨factory, #[1]⟩ := by rw [hf]; rfl
    unfold State.enterIfRoom
    simp only [State.start, hclosure, State.isFull, State.enter, factory_spec, State.enter.fill]
    rw [if_neg (by simp [slotLimit]), stage, hstart]
    rfl
  have hrun : (State.start h true none held (.function (.closure f))
      [raw, .builtin .tripped, .ofString overrunMessage]).run (patience + 1) =
      (stage h raw held 0 h.used h.kept).run patience := congrArg (State.run patience) hstep
  rw [hrun]
  exact run_stage hh (Nat.zero_le _) h.used h.kept (by omega)

end StoryPack.Guard
