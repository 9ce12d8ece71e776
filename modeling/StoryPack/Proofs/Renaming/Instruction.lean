/-
Instructions in states whose references are renamed.

An instruction reads operands, goes by their types and by plain values, and
writes what it has made of them.  In corresponding states it finds values that
correspond and leaves states that correspond.

* `State.loopStart_renamed`, `State.storeList_renamed`, … — what instructions are
  made of;
* `State.execute_renamed` — one instruction.
-/
import StoryPack.Proofs.Renaming.Machine

namespace StoryPack.Script

variable {σ : Renaming}

/-- The start of a numeric loop with its references renamed. -/
def Renaming.loop (σ : Renaming) : State.LoopStart → State.LoopStart
  | .error e => .error (σ.raised e)
  | .skip => .skip
  | .start init limit step => .start (σ.value init) (σ.value limit) (σ.value step)

namespace State

variable {h h' : Heap} {s u : State}

theorem loopError_renamed (hh : h.Renamed σ h') (what : String) (v : Value) :
    loopError h' what (σ.value v) = σ.raised (loopError h what v) := by
  unfold loopError
  rw [hh.typeName]
  rfl

/-- The start of a loop whose bounds are taken as doubles. -/
def floatLoopStart (h : Heap) (init limit step : Value) : LoopStart :=
  match Numeral.toFloat? limit with
  | none => .error (loopError h "limit" limit)
  | some l =>
    match Numeral.toFloat? step with
    | none => .error (loopError h "step" step)
    | some k =>
      match Numeral.toFloat? init with
      | none => .error (loopError h "initial value" init)
      | some i =>
        if k == 0.0 then .error (.operation "'for' step is zero".toUTF8)
        else if (if 0.0 < k then l < i else i < l) then .skip
        else .start (.float i) (.float l) (.float k)

theorem loopStart_renamed (hh : h.Renamed σ h') (init limit step : Value) :
    loopStart h' (σ.value init) (σ.value limit) (σ.value step) =
      σ.loop (loopStart h init limit step) := by
  -- all but two integers is taken as doubles
  have hfloat : floatLoopStart h' (σ.value init) (σ.value limit) (σ.value step) =
      σ.loop (floatLoopStart h init limit step) := by
    simp only [floatLoopStart, σ.toFloat?_value, loopError_renamed hh]
    cases Numeral.toFloat? limit with
    | none => rfl
    | some l =>
      cases Numeral.toFloat? step with
      | none => rfl
      | some k =>
        cases Numeral.toFloat? init with
        | none => rfl
        | some i =>
          dsimp only
          rw [apply_ite σ.loop, apply_ite σ.loop]
          rfl
  unfold loopStart
  cases init with
  | int i =>
    cases step with
    | int k =>
      have hlimit : integerLimit (σ.value limit) k = integerLimit limit k := by
        unfold integerLimit
        rw [σ.ofValue?_value]
      dsimp only [Renaming.value_int]
      rw [hlimit, loopError_renamed hh]
      split
      · rfl
      · cases integerLimit limit k with
        | error => rfl
        | ok l =>
          cases l with
          | none => rfl
          | some l =>
            dsimp only
            rw [apply_ite σ.loop]
            rfl
    | _ => exact hfloat
  | _ => exact hfloat

theorem storeList_renamed (hh : h.Renamed σ h') (r offset : Nat) (vs : List Value) :
    (storeList h r offset vs).Renamed σ (storeList h' (σ.table r) offset (σ.values vs)) := by
  unfold storeList
  dsimp only
  refine hh.modifyTable r (fun t t' ht => ?_) _ _
  refine Table.Renamed.setFrom ?_ offset vs
  rw [σ.length_values, ht.size_array, ht.capacity]
  split
  · exact ht.resize _ _
  · exact ht

/-- The cell of a variable that is captured. -/
def capturedCell (f : Frame) : Capture → Nat
  | .box b => f.boxes.getD b 0
  | .upvalue n => f.upvalues.getD n 0

theorem makeClosure_renamed (hh : h.Renamed σ h') (f : Frame) (p : Proto) :
    (makeClosure h f p).1.Renamed σ (makeClosure h' (σ.frame f) p).1 ∧
      (makeClosure h' (σ.frame f) p).2 = σ.closure (makeClosure h f p).2 := by
  have hmake (h : Heap) (f : Frame) :
      makeClosure h f p = h.newClosure ⟨p, p.captures.map (capturedCell f)⟩ := rfl
  have hclosure : makeClosure h' (σ.frame f) p =
      h'.newClosure (σ.closed ⟨p, p.captures.map (capturedCell f)⟩) := by
    refine congrArg (fun cells => h'.newClosure ⟨p, cells⟩) ?_
    rw [Array.map_map]
    refine Array.map_congr_left fun capture _ => ?_
    cases capture with
    | box b => exact Frame.getD_cells f.boxes b
    | upvalue n => exact Frame.getD_cells f.upvalues n
  rw [hclosure]
  exact hh.newClosure _

/-- A value that is called through what its metatable holds for that. -/
def throughField (h : Heap) (fuel : Nat) (f : Value) (field : Value) (args : List Value) :
    Value × List Value :=
  match field with
  | .nil => (f, args)
  | g => tailCallFrom.throughMeta h fuel g (f :: args)

theorem throughMeta_renamed (hh : h.Renamed σ h') (fuel : Nat) (f : Value) (args : List Value) :
    tailCallFrom.throughMeta h' fuel (σ.value f) (σ.values args) =
      (σ.value (tailCallFrom.throughMeta h fuel f args).1,
        σ.values (tailCallFrom.throughMeta h fuel f args).2) := by
  induction fuel generalizing f args with
  | zero => rfl
  | succ fuel ih =>
    have hthrough (f : Value) :
        throughField h' fuel (σ.value f) (h'.metafield (σ.value f) Event.call) (σ.values args) =
          Prod.map σ.value σ.values
            (throughField h fuel f (h.metafield f Event.call) args) := by
      rw [hh.metafield]
      generalize h.metafield f Event.call = g
      cases g with
      | nil => rfl
      | _ => exact ih _ (f :: args)
    cases f with
    | function f => rfl
    | fault r => exact hthrough (.fault r)
    | _ => exact hthrough _

variable (hs : s.Alike σ u) (hh : s.heap.Renamed σ u.heap)

include hs

/-- The heap changes, and the function goes on. -/
theorem change_renamed (hh : h.Renamed σ h') {f f' : Frame} (hf : f' = σ.frame f) :
    State.Renamed σ { s with heap := h, mode := .execute f }
      { u with heap := h', mode := .execute f' } :=
  State.Renamed.mk (s := { s with heap := h, mode := .execute f })
    (u := { u with heap := h', mode := .execute f' }) { hs with } hh (congrArg Mode.execute hf)

include hh

/-- The function goes on with what it has made of its frame. -/
theorem goOn_renamed {f f' : Frame} (hf : f' = σ.frame f) : (s.go f).Renamed σ (u.go f') :=
  hf ▸ go_renamed hs hh f

/-- The instruction fails. -/
theorem failAt_renamed (f : Frame) (e : Raised) :
    (fail { s with stack := .script f :: s.stack } .operation e).Renamed σ
      (fail { u with stack := .script (σ.frame f) :: u.stack } .operation (σ.raised e)) :=
  fail_renamed (s := { s with stack := .script f :: s.stack })
    (u := { u with stack := .script (σ.frame f) :: u.stack })
    { hs with stack := .cons (.script f) hs.stack } hh .operation e

theorem callFrom_renamed (f : Frame) (fn count : Nat) (more : Bool) (want : Want) :
    (s.callFrom f fn count more want).Renamed σ (u.callFrom (σ.frame f) fn count more want) := by
  unfold callFrom
  dsimp only
  rw [Frame.getD_registers, Frame.gather_frame]
  exact State.Renamed.mk (s := { s with stack := _, mode := _ })
    (u := { u with stack := _, mode := _ })
    { hs with stack := .cons (.script { f with want := want, hand := [] }) hs.stack } hh rfl

theorem tailCallFrom_renamed (f : Frame) (fn count : Nat) (more : Bool) :
    (s.tailCallFrom f fn count more).Renamed σ (u.tailCallFrom (σ.frame f) fn count more) := by
  unfold tailCallFrom
  dsimp only
  rw [Frame.getD_registers, Frame.gather_frame, throughMeta_renamed hh]
  generalize tailCallFrom.throughMeta s.heap 100 _ _ = p
  obtain ⟨callee, args⟩ := p
  -- everything else is called as it is, and the function waits for its values
  have hwaits (callee : Value) : State.Renamed σ
      { s with
        stack := .script { f with want := .result, hand := [] } :: s.stack
        mode := .call .operation callee args }
      { u with
        stack := .script { σ.frame f with want := .result, hand := [] } :: u.stack
        mode := .call .operation (σ.value callee) (σ.values args) } :=
    State.Renamed.mk (s := { s with stack := _, mode := _ })
      (u := { u with stack := _, mode := _ })
      { hs with stack := .cons (.script { f with want := .result, hand := [] }) hs.stack } hh rfl
  cases callee with
  | function g =>
    cases g with
    | closure r =>
      dsimp only [Renaming.value_function, Renaming.function_closure]
      rw [hh.closure]
      exact enter_renamed
        (s := { s with slots := s.slots - (f.proto.registers + 2) })
        (u := { u with slots := u.slots - (f.proto.registers + 2) })
        { hs with slots := congrArg (· - (f.proto.registers + 2)) hs.slots } hh _ args
    | _ => exact hwaits _
  | _ => exact hwaits _

/-- A jump on a comparison, `plain` being its result when it is known without metamethods. -/
def compared (s : State) (f : Frame) (op : Comparison) (x y : Value) (sense : Bool) (target : Nat)
    (plain : Option Bool) : State :=
  match plain with
  | some r => s.go (if r == sense then f.goto target else f)
  | none => s.operate f (.test sense target) do pure [.bool (← Operation.compare op x y)]

/-- One instruction. -/
theorem execute_renamed (f : Frame) (i : Instr) :
    (s.execute f i).Renamed σ (u.execute (σ.frame f) i) := by
  have hfetch (o : Operand) : (σ.frame f).fetch u.heap o = σ.value (f.fetch s.heap o) :=
    f.fetch_frame hh o
  have hgo {f f' : Frame} (hf : f' = σ.frame f) := goOn_renamed hs hh hf
  have hoperate1 (f : Frame) (dst : Nat) {a a' : Action Value} (ha : a.Renamed σ σ.value a') :=
    operate1_renamed hs hh f dst ha
  cases i with
  | move dst src =>
    unfold execute
    cases dst with
    | register dst =>
      dsimp only
      rw [hfetch]
      exact hgo (f.put_frame dst _)
    | box b =>
      dsimp only
      rw [hfetch]
      exact change_renamed hs (Frame.getD_cells f.boxes b ▸ hh.setCell _ _) rfl
    | upvalue n =>
      dsimp only
      rw [hfetch]
      exact change_renamed hs (Frame.getD_cells f.upvalues n ▸ hh.setCell _ _) rfl
  | freshBox b src =>
    unfold execute
    dsimp only
    rw [hfetch]
    obtain ⟨hheap, hcell⟩ := hh.newCell (f.fetch s.heap src)
    refine change_renamed hs hheap ?_
    simp only [hcell, Renaming.frame, Array.set!_eq_setIfInBounds, Array.map_setIfInBounds]
  | newTable dst array slots =>
    obtain ⟨hheap, htable⟩ := hh.newTable (Table.renamed_sized array slots)
    exact change_renamed hs hheap
      ((congrArg (fun r => (σ.frame f).put dst (.table r)) htable).trans
        (f.put_frame dst (.table (s.heap.newTable (Table.sized array slots)).2)))
  | setList table first count offset more =>
    unfold execute
    dsimp only
    rw [Frame.getD_registers, Frame.gather_frame]
    cases f.registers.getD table .nil with
    | table r =>
      dsimp only [Renaming.value_table]
      rw [(hh.table r).metatable, Option.isNone_map]
      split
      · exact change_renamed hs (storeList_renamed hh r offset _) rfl
      · exact hgo rfl
    | _ => exact hgo rfl
  | index dst object key =>
    unfold execute
    dsimp only
    rw [hfetch, hfetch]
    have hindex := hoperate1 f dst
      (Operation.index_renamed (f.fetch s.heap object) (f.fetch s.heap key))
    generalize f.fetch s.heap object = o at hindex ⊢
    cases o with
    | table r =>
      dsimp only [Renaming.value_table]
      rw [(hh.table r).getValue, σ.isNil_value]
      split
      · exact hindex
      · exact hgo (f.put_frame dst _)
    | _ => exact hindex
  | setIndex object key value =>
    have hset : (s.operate f .none do
          Operation.setIndex (f.fetch s.heap object) (f.fetch s.heap key) (f.fetch s.heap value)
          pure []).Renamed σ
        (u.operate (σ.frame f) .none do
          Operation.setIndex (σ.value (f.fetch s.heap object)) (σ.value (f.fetch s.heap key))
            (σ.value (f.fetch s.heap value))
          pure []) :=
      operate_renamed hs hh f .none ((Operation.setIndex_renamed _ _ _).andThen fun _ => .pure [])
    unfold execute
    dsimp only
    rw [hfetch, hfetch, hfetch, σ.toKey?_value]
    generalize f.fetch s.heap object = o at hset ⊢
    generalize f.fetch s.heap key = k at hset ⊢
    cases o with
    | table r =>
      dsimp only [Renaming.value_table] at hset ⊢
      rw [(hh.table r).metatable, Option.isNone_map]
      cases (s.heap.table r).metatable.isNone with
      | false => exact hset
      | true =>
        cases hk : k.toKey? with
        | none => exact hset
        | some k => exact change_renamed hs (hh.setKey r k _) rfl
    | _ => exact hset
  | method dst object key =>
    unfold execute
    dsimp only
    rw [hfetch, hfetch, Frame.put_frame]
    exact hoperate1 _ dst (Operation.index_renamed _ _)
  | arith op dst a b =>
    have harith :=
      hoperate1 f dst (Operation.arith_renamed op (f.fetch s.heap a) (f.fetch s.heap b))
    unfold execute
    dsimp only
    rw [hfetch, hfetch, σ.arithmetic_value]
    cases hresult : arithmetic op (f.fetch s.heap a) (f.fetch s.heap b) with
    | value v =>
      have hv := f.put_frame (σ := σ) dst v
      rw [σ.value_of_arithmetic _ _ hresult] at hv
      exact hgo hv
    | _ => exact harith
  | not dst a =>
    unfold execute
    dsimp only
    rw [hfetch, σ.truthy_value]
    exact hgo (f.put_frame dst (.bool _))
  | length dst a =>
    unfold execute
    dsimp only
    rw [hfetch]
    exact hoperate1 f dst (Operation.length_renamed _)
  | concat dst first count =>
    unfold execute
    dsimp only
    rw [Frame.gather_frame]
    exact hoperate1 f dst (Operation.concat_renamed _)
  | jump target => exact hgo rfl
  | test a sense target =>
    unfold execute
    dsimp only
    rw [hfetch, σ.truthy_value]
    refine hgo ?_
    split
    · rfl
    · rfl
  | compare op a b sense target =>
    have hcompare := operate_renamed hs hh f (.test sense target)
      ((Operation.compare_renamed op (f.fetch s.heap a) (f.fetch s.heap b)).andThen
        fun r => .pure [.bool r])
    -- what is known without metamethods is taken as it is
    have hplain (plain : Option Bool) :
        (s.compared f op (f.fetch s.heap a) (f.fetch s.heap b) sense target plain).Renamed σ
          (u.compared (σ.frame f) op (σ.value (f.fetch s.heap a)) (σ.value (f.fetch s.heap b)) sense
            target plain) := by
      cases plain with
      | none => exact hcompare
      | some r =>
        refine hgo ?_
        split
        · rfl
        · rfl
    unfold execute
    dsimp only
    rw [hfetch, hfetch]
    cases op with
    | lt =>
      dsimp only
      rw [σ.lessThan?_value]
      exact hplain _
    | le =>
      dsimp only
      rw [σ.lessEqual?_value]
      exact hplain _
    | eq =>
      have hequal := hplain (some (rawEqual (f.fetch s.heap a) (f.fetch s.heap b)))
      have hasked := hplain none
      dsimp only
      rw [σ.rawEqual_value]
      generalize f.fetch s.heap a = x at hequal hasked ⊢
      generalize f.fetch s.heap b = y at hequal hasked ⊢
      cases x with
      | table r =>
        cases y with
        | table r' => exact hasked
        | _ => exact hequal
      | _ => exact hequal
  | closure dst p =>
    obtain ⟨hheap, hclosure⟩ := makeClosure_renamed hh f (f.proto.protos.getD p default)
    exact change_renamed hs hheap
      ((congrArg (fun r => (σ.frame f).put dst (.function (.closure r))) hclosure).trans
        (f.put_frame dst (.function (.closure
          (makeClosure s.heap f (f.proto.protos.getD p default)).2))))
  | varargs want =>
    unfold execute
    dsimp only
    cases want with
    | registers first count => exact hgo (f.putAll_frame first count f.varargs)
    | _ => exact hgo rfl
  | call fn count more want => exact callFrom_renamed hs hh f fn count more want
  | tailCall fn count more => exact tailCallFrom_renamed hs hh f fn count more
  | ret first count more =>
    unfold execute
    dsimp only
    rw [Frame.gather_frame]
    exact { hs with
      heap := hh, mode := rfl, slots := congrArg (· - (f.proto.registers + 2)) hs.slots }
  | stash first count more =>
    unfold execute
    dsimp only
    rw [Frame.gather_frame]
    exact hgo rfl
  | forPrepare base target =>
    unfold execute
    dsimp only
    rw [Frame.getD_registers, Frame.getD_registers, Frame.getD_registers, loopStart_renamed hh]
    cases loopStart s.heap (f.registers.getD base .nil) (f.registers.getD (base + 1) .nil)
      (f.registers.getD (base + 2) .nil) with
    | error e => exact failAt_renamed hs hh f e
    | skip => exact hgo rfl
    | start init limit step =>
      dsimp only [Renaming.loop]
      simp only [Frame.put_frame]
      exact hgo rfl
  | forLoop base target =>
    unfold execute
    dsimp only
    rw [Frame.getD_registers, Frame.getD_registers, Frame.getD_registers]
    generalize f.registers.getD base .nil = x
    generalize f.registers.getD (base + 1) .nil = y
    generalize f.registers.getD (base + 2) .nil = z
    cases x with
    | int i =>
      cases y with
      | int count =>
        cases z with
        | int step =>
          dsimp only [Renaming.value_int]
          have hput (f : Frame) (r : Nat) (i : Int64) :
            (σ.frame f).put r (.int i) = σ.frame (f.put r (.int i)) := f.put_frame r (.int i)
          split
          · exact hgo rfl
          · rw [hput, hput, hput]
            exact hgo rfl
        | _ => exact hgo rfl
      | _ => exact hgo rfl
    | float x =>
      cases y with
      | float limit =>
        cases z with
        | float step =>
          dsimp only [Renaming.value_float]
          have hput (f : Frame) (r : Nat) (x : Float) :
            (σ.frame f).put r (.float x) = σ.frame (f.put r (.float x)) := f.put_frame r (.float x)
          have hnext : State.Renamed σ
              (s.go (((f.put base (.float (x + step))).put (base + 3) (.float (x + step))).goto
                target))
              (u.go ((((σ.frame f).put base (.float (x + step))).put (base + 3)
                (.float (x + step))).goto target)) := by
            rw [hput, hput]
            exact hgo rfl
          split
          · split
            · exact hnext
            · exact hgo rfl
          · split
            · exact hnext
            · exact hgo rfl
        | _ => exact hgo rfl
      | _ => exact hgo rfl
    | _ => exact hgo rfl
  | iterate base count =>
    unfold execute
    dsimp only
    rw [Frame.getD_registers, Frame.getD_registers, Frame.getD_registers]
    exact State.Renamed.mk (s := { s with stack := _, mode := _ })
      (u := { u with stack := _, mode := _ })
      { hs with stack := .cons (.script { f with want := .registers (base + 4) count }) hs.stack }
      hh rfl
  | iterateLoop base target =>
    unfold execute
    dsimp only
    rw [Frame.getD_registers, σ.isNil_value]
    split
    · exact hgo rfl
    · exact hgo (congrArg (Frame.goto · target) (f.put_frame _ _))
  | markClose level a =>
    unfold execute
    dsimp only
    rw [hfetch, σ.truthy_value, hh.metafield, σ.isNil_value]
    split
    · exact hgo rfl
    · split
      · exact failAt_renamed hs hh f _
      · exact hgo rfl
  | close level =>
    unfold execute
    dsimp only
    rw [show (σ.frame f).closing = σ.marked f.closing from rfl]
    cases f.closing with
    | nil => exact hgo rfl
    | cons c rest =>
      obtain ⟨l, v⟩ := c
      rw [show σ.marked ((l, v) :: rest) = (l, σ.value v) :: σ.marked rest from rfl]
      dsimp only
      split
      · rw [hh.metafield]
        exact nest_renamed
          (s := { s with stack := .script { f with closing := rest, want := .again } :: s.stack })
          (u := { u with stack := _ })
          { hs with stack := .cons (.script { f with closing := rest, want := .again }) hs.stack }
          hh (.operation fun h h' vs hh => .done hh vs) .operation _ [v, .nil]
      · exact hgo rfl

end State

end StoryPack.Script
