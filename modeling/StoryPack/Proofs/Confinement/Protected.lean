/-
The instructions of protected calls.

A protected call runs a fixed script: it calls the library function that catches
errors and packs what that gives, raises an error when the run has overrun its
budget, and unpacks otherwise.  Each of its instructions leads to the next one,
or calls the function that its registers are known to have.

* `Guard.Move` — what an instruction of a protected call comes to;
* `State.advance_guarded` — every instruction comes to that;
* `State.advance_guarded_leads` — and so keeps what is fixed.
-/
import StoryPack.Proofs.Confinement.Instruction

namespace StoryPack.Script

variable {W : Ward} {n : Nat}

/-- What a protected call calls at its instructions. -/
def Guard.Calls (pc : Nat) (callee : Value) (args : List Value) : Prop :=
  pc = 3 ∧ (callee = .builtin (.base .pcall) ∨ callee = .builtin (.base .xpcall)) ∨
    pc = 4 ∧ callee = .builtin (.table .pack) ∨
    pc = 6 ∧ callee = .builtin .tripped ∨
    pc = 10 ∧ callee = .builtin (.base .error) ∧ args = [.ofString overrunMessage, .int 0] ∨
    pc = 16 ∧ callee = .builtin (.table .unpack)

/-- What an instruction of a protected call `f` in a state `s` comes to. -/
inductive Guard.Move (W : Ward) (s : State) (f : Frame) : State → Prop where
  | go (f' : Frame) (hf' : f'.Guarded W s.heap.tables.size) (hpc : f'.pc = f.pc + 1)
      (hplain : f.pc ≠ 3 ∧ f.pc ≠ 4 ∧ f.pc ≠ 6 ∧ f.pc ≠ 10) : Guard.Move W s f (s.go f')
  | call (f' : Frame) (hf' : f'.Guarded W s.heap.tables.size) (hpc : f'.pc = f.pc + 1)
      (hexpects : f'.Expects) (callee : Value) (args : List Value)
      (hargs : Oks W s.heap.tables.size args) (hcallee : Guard.Calls f.pc callee args) :
      Guard.Move W s f
        { s with stack := .script f' :: s.stack, mode := .call .operation callee args }
  | index (f' : Frame) (hf' : Frame.Guarded W s.heap.tables.size { f' with want := .registers 4 1 })
      (hf : f.pc = 15) (hpc : f'.pc = 16) (object : Value)
      (hobject : object.Ok W s.heap.tables.size) :
      Guard.Move W s f (s.operate1 f' 4 (Operation.index object (.str "n".toUTF8)))
  | ret (hpc : f.pc = 17) (slots : Nat) :
      Guard.Move W s f { s with mode := .deliver [], slots := slots }

namespace State

variable {s : State} {f : Frame}

theorem advance_at (hf : f.Guarded W n) {pc : Nat} (hpc : f.pc = pc) {i : Instr}
    (hi : Guard.wrapperCode[pc]? = some i) :
    step.advance s f = s.execute { f with pc := pc + 1 } i := by
  obtain ⟨raw, hwraps, -⟩ := hf.wraps
  have hcode : f.proto.code = Guard.wrapperCode :=
    (congrArg Proto.code hwraps.proto).trans Guard.wrapper_spec.1
  unfold step.advance
  rw [hcode, hpc, hi]

section

variable {raw : BaseFunction} {pc : Nat}

/-- An instruction that writes a register. -/
theorem move_guarded (hf : f.Guarded W s.heap.tables.size)
    (hwraps : W.Wraps ⟨f.proto, f.upvalues⟩ raw) (hpc : f.pc = pc)
    (hplain : pc < 17 ∧ pc ≠ 3 ∧ pc ≠ 4 ∧ pc ≠ 6 ∧ pc ≠ 10) {r : Nat} {v : Value}
    (hstep : step.advance s f = s.go (Frame.put { f with pc := pc + 1 } r v))
    (ha : Guard.Registers W s.heap.tables.size raw (pc + 1) (f.registers.set! r v)) :
    Guard.Move W s f (step.advance s f) := by
  rw [hstep]
  exact .go _ (hf.at hwraps _ (by omega) ha hf.hand f.want) (by rw [hpc]; rfl) (by omega)

/-- An instruction that calls what a register has. -/
theorem call_guarded (hf : f.Guarded W s.heap.tables.size)
    (hwraps : W.Wraps ⟨f.proto, f.upvalues⟩ raw) (hpc : f.pc = pc) (hlt : pc < 17)
    {fn count : Nat} {more : Bool} {want : Want}
    (hi : Guard.wrapperCode[pc]? = some (.call fn count more want)) {callee : Value}
    {args : List Value} (hfn : f.registers.getD fn .nil = callee)
    (hargs : (f.registers.extract (fn + 1) (fn + 1 + count)).toList ++
      (if more then f.hand else []) = args)
    (ha : Guard.Registers W s.heap.tables.size raw (pc + 1) f.registers)
    (hexpects : Frame.Expects { f with pc := pc + 1, hand := [], want := want })
    (hok : Oks W s.heap.tables.size args) (hcallee : Guard.Calls pc callee args) :
    Guard.Move W s f (step.advance s f) := by
  have hstep : step.advance s f =
      { s with
        stack := .script { f with pc := pc + 1, hand := [], want := want } :: s.stack
        mode := .call .operation callee args } := by
    rw [advance_at hf hpc hi, ← hfn, ← hargs]
    rfl
  rw [hstep]
  exact .call _ (hf.at hwraps _ (by omega) ha .nil want) (by rw [hpc]) hexpects callee args hok
    (hpc ▸ hcallee)

end

theorem extract_two {a : Array Value} (ha : a.size = 5) :
    (a.extract 2 4).toList = [a.getD 2 .nil, a.getD 3 .nil] := by
  obtain ⟨l⟩ := a
  match l, ha with
  | [_, _, _, _, _], _ => rfl

theorem extract_three {a : Array Value} (ha : a.size = 5) :
    (a.extract 2 5).toList = [a.getD 2 .nil, a.getD 3 .nil, a.getD 4 .nil] := by
  obtain ⟨l⟩ := a
  match l, ha with
  | [_, _, _, _, _], _ => rfl

/-- The values are unpacked in place of the call itself. -/
theorem advance_unpack (hf : f.Guarded W n) (hpc : f.pc = 16)
    (hunpack : f.registers.getD 1 .nil = .builtin (.table .unpack)) :
    step.advance s f =
      { s with
        stack := .script { f with pc := 17, hand := [], want := .result } :: s.stack
        mode := .call .operation (.builtin (.table .unpack))
          (f.registers.extract 2 5).toList } := by
  rw [advance_at hf hpc rfl]
  show tailCallFrom s { f with pc := 17 } 1 3 false = _
  have hgather : Frame.gather { f with pc := 17 } (1 + 1) 3 false =
      (f.registers.extract 2 5).toList := List.append_nil _
  unfold tailCallFrom
  dsimp only
  rw [hgather, hunpack]
  rfl

theorem advance_guarded (hk : s.heap.Kept W) (hf : f.Guarded W s.heap.tables.size) :
    Guard.Move W s f (step.advance s f) := by
  obtain ⟨raw, hwraps, ha⟩ := hf.wraps
  obtain ⟨pack, rawCell, tripped, env, message, unpack, hupvalues, hpack, hraw, htripped, henv,
    hmessage, hunpack⟩ := hwraps.upvalues
  have hupvalue {u c : Nat} {v : Value} (hu : f.upvalues.getD u 0 = c)
      (hc : W.cells c = some v) : s.heap.cell (f.upvalues.getD u 0) = v := by
    rw [hu]
    exact hk.cell_of_fixed hc
  replace hupvalues : f.upvalues = #[pack, rawCell, tripped, env, message, unpack] := hupvalues
  obtain hpc | hpc | hpc | hpc | hpc | hpc | hpc | hpc | hpc | hpc | hpc | hpc | hpc | hpc | hpc |
      hpc | hpc | hpc : f.pc = 0 ∨ f.pc = 1 ∨ f.pc = 2 ∨ f.pc = 3 ∨ f.pc = 4 ∨ f.pc = 5 ∨
      f.pc = 6 ∨ f.pc = 7 ∨ f.pc = 8 ∨ f.pc = 9 ∨ f.pc = 10 ∨ f.pc = 11 ∨ f.pc = 12 ∨
      f.pc = 13 ∨ f.pc = 14 ∨ f.pc = 15 ∨ f.pc = 16 ∨ f.pc = 17 := by
    have := hf.pc
    omega
  all_goals rw [hpc] at ha
  · have hv := hupvalue (u := 0) (by rw [hupvalues]; rfl) hpack
    refine move_guarded (v := .builtin (.table .pack)) hf hwraps hpc (by decide)
      ((advance_at hf hpc rfl).trans (by rw [← hv]; rfl)) (ha.put ?_ ?_ ?_ ?_ ?_ ?_ ?_ ?_ ?_ ?_)
    all_goals simp [Value.builtin, Builtin.isOpen]
  · have hv := hupvalue (u := 1) (by rw [hupvalues]; rfl) hraw
    have hpack := ha.pack (by decide) (by decide)
    refine move_guarded (v := .builtin (.base raw)) hf hwraps hpc (by decide)
      ((advance_at hf hpc rfl).trans (by rw [← hv]; rfl)) (ha.put ?_ ?_ ?_ ?_ ?_ ?_ ?_ ?_ ?_ ?_)
    all_goals simp [hpack]
  · -- the arguments are brought to hand
    have hpack := ha.pack (by decide) (by decide)
    have hraw := ha.raw (by decide) (by decide)
    rw [advance_at hf hpc rfl]
    refine .go _ (hf.at hwraps 3 (by decide) (ha.goto ?_ ?_ ?_ ?_ ?_ ?_ ?_ ?_) hf.varargs
      f.want) (by rw [hpc]) (by omega)
    all_goals simp [hpack, hraw]
  · -- the library function that catches errors is called
    have hpack := ha.pack (by decide) (by decide)
    refine call_guarded hf hwraps hpc (by decide) rfl (ha.raw (by decide) (by decide)) rfl
      (ha.goto ?_ ?_ ?_ ?_ ?_ ?_ ?_ ?_) (.inl ⟨rfl, rfl⟩) (by simpa using hf.hand)
      (.inl ⟨rfl, ?_⟩)
    case refine_9 =>
      rcases hwraps.isRaw with rfl | rfl
      · exact .inl rfl
      · exact .inr rfl
    all_goals simp [hpack]
  · -- its values are packed
    refine call_guarded hf hwraps hpc (by decide) rfl (ha.pack (by decide) (by decide)) rfl
      (ha.goto ?_ ?_ ?_ ?_ ?_ ?_ ?_ ?_) (.inr (.inl ⟨rfl, rfl⟩)) (by simpa using hf.hand)
      (.inr (.inl ⟨rfl, rfl⟩))
    all_goals simp
  · have hv := hupvalue (u := 2) (by rw [hupvalues]; rfl) htripped
    refine move_guarded (v := .builtin .tripped) hf hwraps hpc (by decide)
      ((advance_at hf hpc rfl).trans (by rw [← hv]; rfl)) (ha.put ?_ ?_ ?_ ?_ ?_ ?_ ?_ ?_ ?_ ?_)
    all_goals simp [Value.builtin, Builtin.isOpen]
  · refine call_guarded hf hwraps hpc (by decide) rfl (ha.tripped rfl) rfl
      (ha.goto ?_ ?_ ?_ ?_ ?_ ?_ ?_ ?_) (.inr (.inr (.inl ⟨rfl, rfl⟩))) (by simp)
      (.inr (.inr (.inl ⟨rfl, rfl⟩)))
    all_goals simp
  · -- `error` is looked up among the global variables
    obtain ⟨t, ht, -, -, herror⟩ := hk.sound.globals
    have hv := hupvalue (u := 3) (by rw [hupvalues]; rfl) henv
    have hstep : step.advance s f =
        s.go (Frame.put { f with pc := 7 + 1 } 1 (.builtin (.base .error))) := by
      have hget : (s.heap.table Heap.globals).getValue (.str "error".toUTF8) =
          .builtin (.base .error) := by
        rw [hk.table_of_fixed ht]
        exact herror
      rw [advance_at hf hpc rfl]
      show execute s { f with pc := 8 }
        (.index 1 (.upvalue 3) (.constant (.str "error".toUTF8))) = _
      simp only [execute, Frame.fetch, Constant.value, hv, hget]
      rfl
    refine move_guarded hf hwraps hpc (by decide) hstep (ha.put ?_ ?_ ?_ ?_ ?_ ?_ ?_ ?_ ?_ ?_)
    all_goals simp [Value.builtin, Builtin.isOpen]
  · have hv := hupvalue (u := 4) (by rw [hupvalues]; rfl) hmessage
    have herror := ha.error (by decide) (by decide)
    refine move_guarded (v := .ofString overrunMessage) hf hwraps hpc (by decide)
      ((advance_at hf hpc rfl).trans (by rw [← hv]; rfl)) (ha.put ?_ ?_ ?_ ?_ ?_ ?_ ?_ ?_ ?_ ?_)
    all_goals simp [herror, Value.ofString]
  · have herror := ha.error (by decide) (by decide)
    have hmessage := ha.message (by decide) (by decide)
    have hsecond := ha.second (by decide) (by decide) (by decide)
    refine move_guarded (v := .int 0) hf hwraps hpc (by decide) (advance_at hf hpc rfl)
      (ha.put ?_ ?_ ?_ ?_ ?_ ?_ ?_ ?_ ?_ ?_)
    all_goals simp [herror, hmessage, Value.ofString]
  · -- the error of a run that has overrun its budget
    have hsecond := ha.second (by decide) (by decide) (by decide)
    have hargs : (f.registers.extract 2 4).toList = [.ofString overrunMessage, .int 0] := by
      rw [extract_two ha.size, ha.message (by decide) (by decide), ha.level rfl]
    refine call_guarded hf hwraps hpc (by decide) rfl
      (ha.error (by decide) (by decide)) ((List.append_nil _).trans hargs)
      (ha.goto (fun _ _ _ => hsecond) ?_ ?_ ?_ ?_ ?_ ?_ ?_) (.inr (.inr (.inr (.inl ⟨rfl, rfl⟩))))
      (by simp [Value.ofString]) (.inr (.inr (.inr (.inl ⟨rfl, rfl, rfl⟩))))
    all_goals simp
  · rw [advance_at hf hpc rfl]
    refine .go _ (hf.at hwraps 12 (by decide) (ha.goto ?_ ?_ ?_ ?_ ?_ ?_ ?_ ?_) hf.hand
      f.want) (by rw [hpc]; rfl) (by omega)
    all_goals simp
  · have hv := hupvalue (u := 5) (by rw [hupvalues]; rfl) hunpack
    refine move_guarded (v := .builtin (.table .unpack)) hf hwraps hpc (by decide)
      ((advance_at hf hpc rfl).trans (by rw [← hv]; rfl)) (ha.put ?_ ?_ ?_ ?_ ?_ ?_ ?_ ?_ ?_ ?_)
    all_goals simp [Value.builtin, Builtin.isOpen]
  · have hunpack := ha.unpack (by decide) (by decide)
    have hfirst := ha.ok 0 (by decide)
    refine move_guarded hf hwraps hpc (by decide) (advance_at hf hpc rfl)
      (ha.put ?_ (fun h => absurd rfl h) (fun _ _ _ => hfirst) ?_ ?_ ?_ ?_ ?_ ?_
        fun _ _ => hunpack)
    all_goals simp
  · have hunpack := ha.unpack (by decide) (by decide)
    have hsecond := ha.second (by decide) (by decide) (by decide)
    refine move_guarded (v := .int 1) hf hwraps hpc (by decide) (advance_at hf hpc rfl)
      (ha.put ?_ ?_ (fun _ _ _ => hsecond) ?_ ?_ ?_ ?_ ?_ ?_ fun _ _ => hunpack)
    all_goals simp
  · -- the count of the packed values, which their table has
    have hunpack := ha.unpack (by decide) (by decide)
    have hsecond := ha.second (by decide) (by decide) (by decide)
    have hfirst := ha.ok 0 (by decide)
    have hindex : Guard.Move W s f (s.operate1 { f with pc := 16 } 4
        (Operation.index (f.registers.getD 0 .nil) (.str "n".toUTF8))) := by
      refine .index _ (hf.at hwraps 16 (by decide) (ha.goto ?_ ?_ ?_ ?_ ?_ ?_ ?_ ?_)
        hf.hand _) hpc rfl _ hfirst
      case refine_1 => exact fun _ _ _ => hsecond
      case refine_8 => exact fun _ _ => hunpack
      all_goals simp
    rw [advance_at hf hpc rfl]
    show Guard.Move W s f (execute s { f with pc := 16 }
      (.index 4 (.register 0) (.constant (.str "n".toUTF8))))
    unfold execute
    dsimp only [Frame.fetch, Constant.value]
    split
    · rename_i r hr
      split
      · exact hr ▸ hindex
      · have hv := hk.getValue_ok (hr ▸ hfirst).2 (.str "n".toUTF8)
        refine .go _ (hf.at hwraps 16 (by decide) (ha.put (i := 4) (by decide)
          (fun _ => hv) ?_ ?_ ?_ ?_ ?_ ?_ ?_ ?_) hf.hand f.want) (by rw [hpc]; rfl) (by omega)
        case refine_1 => exact fun _ _ _ => hsecond
        case refine_8 => exact fun _ _ => hunpack
        all_goals simp
    · exact hindex
  · -- the values are unpacked in place of the call itself
    have hunpack := ha.unpack (by decide) (by decide)
    have hsecond := ha.second (by decide) (by decide) (by decide)
    have hargs : Oks W s.heap.tables.size (f.registers.extract 2 5).toList := by
      rw [extract_three ha.size]
      exact Oks.cons_iff.mpr ⟨hsecond, Oks.cons_iff.mpr ⟨ha.ok 3 (by decide),
        Oks.cons_iff.mpr ⟨ha.ok 4 (by decide), .nil⟩⟩⟩
    rw [advance_unpack hf hpc hunpack]
    refine .call _ (hf.at hwraps 17 (by decide) (ha.goto (fun _ _ _ => hsecond)
      ?_ ?_ ?_ ?_ ?_ ?_ ?_) .nil .result) (by rw [hpc]) ?_ _ _ hargs ?_
    case refine_8 => exact .inr (.inr (.inr (.inr (.inr ⟨rfl, rfl⟩))))
    case refine_9 => exact .inr (.inr (.inr (.inr ⟨hpc, rfl⟩)))
    all_goals simp
  · have hstep : step.advance s f =
        { s with mode := .deliver [], slots := s.slots - (f.proto.registers + 2) } := by
      rw [advance_at hf hpc rfl]
      have hgather : Frame.gather { f with pc := 18 } 0 0 false = [] := by simp [Frame.gather]
      show ({ s with mode := .deliver (Frame.gather { f with pc := 18 } 0 0 false), slots := _ } :
        State) = _
      rw [hgather]
    rw [hstep]
    exact .ret hpc _

/-- An instruction of a protected call keeps what is fixed. -/
theorem advance_guarded_leads (hk : s.heap.Kept W)
    (hstack : Stack.Kept W s.heap.tables.size s.stack) (hf : f.Guarded W s.heap.tables.size) :
    (step.advance s f).Leads W s.heap := by
  have hmove := advance_guarded hk hf
  generalize step.advance s f = t at hmove ⊢
  cases hmove with
  | go f' hf' => exact go_leads hk hstack (.inr hf')
  | call f' hf' hpc hexpects callee args hargs hcallee =>
    refine Heap.Leads.state (.refl hk) ⟨hk, ⟨.inr (.inl ⟨hf', hexpects⟩), hstack⟩, ?_, hargs⟩
    rcases hcallee with ⟨h, hraw⟩ | ⟨h, rfl⟩ | ⟨h, rfl⟩ | ⟨h, rfl, -⟩ | ⟨h, rfl⟩
    · refine .inr ⟨hraw, hf', by omega, ?_⟩
      rcases hexpects with ⟨-, hwant⟩ | ⟨h', -⟩ | ⟨h', -⟩ | ⟨h', -⟩ | ⟨h', -⟩ | ⟨h', -⟩
      · exact hwant
      all_goals omega
    · exact .inl (.inl rfl)
    · exact .inl (.inl rfl)
    · exact .inl (.inl rfl)
    · exact .inl (.inl rfl)
  | index f' hf' hpc hpc' object hobject =>
    refine operate1_leads hk hstack (.inr (.inl ⟨hf', ?_⟩)) (Operation.index_obeys hobject trivial)
    exact .inr (.inr (.inr (.inr (.inl ⟨hpc', rfl⟩))))
  | ret hpc slots => exact Heap.Leads.state (.refl hk) ⟨hk, hstack, .nil⟩

end State

end StoryPack.Script
