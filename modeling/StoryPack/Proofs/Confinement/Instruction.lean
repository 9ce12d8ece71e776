/-
The instructions of scripts keep what is fixed.

An instruction of a function of a script reads and writes what the call of the
function holds, tables that scripts may hold, and cells that are not fixed.  So
every one of them leads from a state that is kept to another one.

* `State.operate_leads`, `State.callFrom_leads`, … — what instructions are made of;
* `State.execute_leads` — one instruction.
-/
import StoryPack.Proofs.Confinement.Machine

namespace StoryPack.Script.State

variable {W : Ward} {n m : Nat} {s : State} {g : Heap} {f : Frame}

theorem go_leads (hk : s.heap.Kept W) (hstack : Stack.Kept W s.heap.tables.size s.stack)
    (hf : f.Kept W s.heap.tables.size) : (s.go f).Leads W s.heap :=
  Heap.Leads.state (.refl hk) ⟨hk, hstack, hf⟩

/-- The heap changes, and the function goes on. -/
theorem change_leads (hstack : Stack.Kept W s.heap.tables.size s.stack) {h : Heap}
    (hleads : s.heap.Leads W h) (hf : f.Kept W h.tables.size) :
    State.Leads W s.heap { s with heap := h, mode := .execute f } :=
  hleads.state ⟨hleads.kept, hstack.mono hleads.size, hf⟩

/-- An operator is run for a function, which waits for it. -/
theorem operate_leads (hk : s.heap.Kept W) (hstack : Stack.Kept W s.heap.tables.size s.stack)
    {want : Want} (hf : Frame.Waits W s.heap.tables.size { f with want := want })
    {a : Action (List Value)} (ha : a.Obeys W s.heap.tables.size (Oks W)) :
    (s.operate f want a).Leads W s.heap :=
  perform_leads (s := { s with stack := .script { f with want := want } :: s.stack }) ha hk
    ⟨hf, hstack⟩ .operation

theorem operate1_leads (hk : s.heap.Kept W) (hstack : Stack.Kept W s.heap.tables.size s.stack)
    {dst : Nat} (hf : Frame.Waits W s.heap.tables.size { f with want := .registers dst 1 })
    {a : Action Value} (ha : a.Obeys W s.heap.tables.size fun k v => v.Ok W k) :
    (s.operate1 f dst a).Leads W s.heap :=
  operate_leads hk hstack hf
    (.bind ha fun _ _ _ hv => .pure fun _ hle => by simpa using hv.mono hle)

theorem storeList_leads (hk : g.Kept W) {r : Nat} (hr : W.tables r = none) (offset : Nat)
    {vs : List Value} (hvs : Oks W g.tables.size vs) : g.Leads W (storeList g r offset vs) := by
  have htables : (storeList g r offset vs).tables = g.tables.modify r fun t =>
      (if t.array.size < min (offset + vs.length) Table.maxArray then
        t.resize (min (offset + vs.length) Table.maxArray) t.capacity else t).setFrom
          offset vs := rfl
  refine ⟨by simp [storeList], rfl, rfl, rfl, rfl,
    hk.setTable hr (fun t ht => ?_) htables rfl rfl rfl⟩
  refine Table.Free.setFrom ?_ offset hvs
  split
  · exact ht.resize _ (Nat.min_le_right _ _)
  · exact ht

theorem makeClosure_leads (hk : g.Kept W) (hf : f.Free W n) (p : Proto) :
    g.Leads W (makeClosure g f p).1 ∧
      (Value.function (.closure (makeClosure g f p).2)).Ok W m := by
  refine ⟨⟨Nat.le_refl _, rfl, rfl, rfl, rfl, hk.newClosure fun c hc => ?_⟩, hk.newClosure_ok _⟩
  obtain ⟨capture, -, rfl⟩ := Array.mem_map.mp hc
  cases capture with
  | box b => exact hf.box hk.sound.cell b
  | upvalue u => exact hf.upvalue hk.sound.cell u

theorem callFrom_leads (hk : s.heap.Kept W) (hstack : Stack.Kept W s.heap.tables.size s.stack)
    (hf : f.Free W s.heap.tables.size) (fn count : Nat) (more : Bool) (want : Want) :
    (s.callFrom f fn count more want).Leads W s.heap :=
  Heap.Leads.state (.refl hk) ⟨hk, ⟨.inl ((hf.withHand .nil).withWant want), hstack⟩,
    .inl (hf.getD fn).callable, hf.gather _ _ _⟩

theorem throughMeta_ok (hk : g.Kept W) (fuel : Nat) {v : Value} {args : List Value}
    (hv : v.Ok W g.tables.size) (hargs : Oks W g.tables.size args) :
    (tailCallFrom.throughMeta g fuel v args).1.Ok W g.tables.size ∧
      Oks W g.tables.size (tailCallFrom.throughMeta g fuel v args).2 := by
  induction fuel generalizing v args with
  | zero => exact ⟨hv, hargs⟩
  | succ fuel ih =>
    unfold tailCallFrom.throughMeta
    split
    · exact ⟨hv, hargs⟩
    · split
      · exact ⟨hv, hargs⟩
      · exact ih (hk.metafield_ok hv Event.call (by decide)) (by simpa using ⟨hv, hargs⟩)

theorem tailCallFrom_leads (hk : s.heap.Kept W)
    (hstack : Stack.Kept W s.heap.tables.size s.stack) (hf : f.Free W s.heap.tables.size)
    (fn count : Nat) (more : Bool) : (s.tailCallFrom f fn count more).Leads W s.heap := by
  obtain ⟨hv, hargs⟩ := throughMeta_ok hk 100 (hf.getD fn)
    (hf.gather (fn + 1) count more)
  unfold tailCallFrom
  dsimp only
  generalize tailCallFrom.throughMeta s.heap 100 (f.registers.getD fn .nil)
    (f.gather (fn + 1) count more) = r at hv hargs
  obtain ⟨callee, args⟩ := r
  dsimp only at hv hargs ⊢
  split
  · exact enter_leads (s := { s with slots := s.slots - (f.proto.registers + 2) })
      hk hstack hv hargs
  · exact Heap.Leads.state (.refl hk) ⟨hk, ⟨.inl ((hf.withHand .nil).withWant .result), hstack⟩,
      .inl hv.callable, hargs⟩

theorem ite_leads {c : Prop} [Decidable c] {t u : State} (ht : t.Leads W g) (hu : u.Leads W g) :
    (if c then t else u).Leads W g := by
  split
  · exact ht
  · exact hu

/-- A failure of an instruction. -/
theorem failAt_leads (hk : s.heap.Kept W) (hstack : Stack.Kept W s.heap.tables.size s.stack)
    (hf : f.Free W s.heap.tables.size) {e : Raised} (he : e.Ok W s.heap.tables.size) :
    (fail { s with stack := .script f :: s.stack } .operation e).Leads W s.heap :=
  fail_leads (s := { s with stack := .script f :: s.stack }) hk ⟨.inl hf, hstack⟩ _ he

/-- A loop that starts with what scripts may hold, or fails with what they may be told. -/
def LoopStart.Ok (W : Ward) (n : Nat) : LoopStart → Prop
  | .error e => e.Ok W n
  | .skip => True
  | .start init limit step => init.Ok W n ∧ limit.Ok W n ∧ step.Ok W n

theorem LoopStart.ite_ok {c : Prop} [Decidable c] {a b : LoopStart} (ha : a.Ok W n)
    (hb : b.Ok W n) : (if c then a else b).Ok W n := by
  split
  · exact ha
  · exact hb

theorem loopStart_ok (h : Heap) (init limit step : Value) :
    (loopStart h init limit step).Ok W n := by
  unfold loopStart
  split
  · refine LoopStart.ite_ok trivial ?_
    split
    · trivial
    · trivial
    · exact LoopStart.ite_ok trivial ⟨trivial, trivial, trivial⟩
  · split
    · trivial
    · split
      · trivial
      · split
        · trivial
        · exact LoopStart.ite_ok trivial (LoopStart.ite_ok trivial ⟨trivial, trivial, trivial⟩)

theorem execute_leads (hk : s.heap.Kept W) (hstack : Stack.Kept W s.heap.tables.size s.stack)
    (hf : f.Free W s.heap.tables.size) (i : Instr) : (s.execute f i).Leads W s.heap := by
  have hgo {f' : Frame} (hf' : f'.Free W s.heap.tables.size) : (s.go f').Leads W s.heap :=
    go_leads hk hstack (.inl hf')
  have hoperate1 (dst : Nat) {a : Action Value}
      (ha : a.Obeys W s.heap.tables.size fun k v => v.Ok W k) :
      (s.operate1 f dst a).Leads W s.heap :=
    operate1_leads hk hstack (.inl (hf.withWant _)) ha
  have hfetch := hf.fetch hk
  cases i with
  | move dst src =>
    have hcell {c : Nat} (hc : W.cells c = none) :
        State.Leads W s.heap
          { s with heap := s.heap.setCell c (f.fetch s.heap src), mode := .execute f } :=
      change_leads hstack ⟨by simp, by simp, by simp, by simp, by simp, hk.setCell hc (hfetch src)⟩
        (.inl (by rwa [Heap.tables_setCell]))
    cases dst with
    | register r => exact hgo (hf.put r (hfetch src))
    | box b => exact hcell (hf.box hk.sound.cell b)
    | upvalue u => exact hcell (hf.upvalue hk.sound.cell u)
  | freshBox b src =>
    exact change_leads hstack ⟨Nat.le_refl _, rfl, rfl, rfl, rfl, hk.newCell (hfetch src)⟩
      (.inl (hf.withBox b (hk.newCell_free (f.fetch s.heap src))))
  | newTable dst array slots =>
    have hsize :
        s.heap.tables.size ≤ (s.heap.newTable (Table.sized array slots)).1.tables.size := by
      simp [Heap.newTable]
    exact change_leads hstack
      ⟨hsize, rfl, rfl, rfl, rfl, hk.newTable (Table.free_sized W _ array slots)⟩
      (.inl ((hf.mono hsize).put dst (hk.newTable_ok _)))
  | setList table first count offset more =>
    unfold execute
    dsimp only
    split
    · rename_i r hr
      split
      · rename_i hnone
        have hleads := storeList_leads hk (hk.free_of_isNone (hr ▸ hf.getD table).2 hnone) offset
          (hf.gather first count more)
        exact change_leads hstack hleads (.inl ((hf.mono hleads.size).withHand .nil))
      · exact hgo hf
    · exact hgo hf
  | index dst object key =>
    unfold execute
    dsimp only
    have hindex := hoperate1 dst (Operation.index_obeys (hfetch object) (hfetch key))
    split
    · rename_i r hr
      split
      · exact hr ▸ hindex
      · exact hgo (hf.put dst (hk.getValue_ok (hr ▸ hfetch object).2 _))
    · exact hindex
  | setIndex object key value =>
    unfold execute
    dsimp only
    have hset : (s.operate f .none do
        Operation.setIndex (f.fetch s.heap object) (f.fetch s.heap key) (f.fetch s.heap value)
        pure []).Leads W s.heap :=
      operate_leads hk hstack (.inl (hf.withWant _))
        (.bind (Operation.setIndex_obeys (hfetch object) (hfetch key) (hfetch value))
          fun _ _ _ _ => .pure fun _ _ => .nil)
    split
    · rename_i r k hplain hr hkey
      rw [hr] at hplain
      refine change_leads hstack ⟨by simp [Heap.setKey], rfl, rfl, rfl, rfl, ?_⟩
        (.inl (hf.mono (by simp [Heap.setKey])))
      exact hk.setKey (hk.free_of_isNone (hr ▸ hfetch object).2 hplain)
        (Value.ok_of_toKey? hkey (hfetch key)) (hfetch value)
    · exact hset
  | method dst object key =>
    exact operate1_leads hk hstack (.inl ((hf.put _ (hfetch object)).withWant _))
      (Operation.index_obeys (hfetch object) (hfetch key))
  | arith op dst a b =>
    unfold execute
    dsimp only
    split
    · exact hgo (hf.put dst (Operation.arithmetic_ok ‹_›))
    · exact hoperate1 dst (Operation.arith_obeys op (hfetch a) (hfetch b))
  | not dst a => exact hgo (hf.put dst (Value.ok_bool _))
  | length dst a => exact hoperate1 dst (Operation.length_obeys (hfetch a))
  | concat dst first count => exact hoperate1 dst (Operation.concat_obeys (hf.gather _ _ _))
  | jump target => exact hgo (hf.goto target)
  | test a sense target =>
    unfold execute
    dsimp only
    split
    · exact hgo (hf.goto target)
    · exact hgo hf
  | compare op a b sense target =>
    unfold execute
    dsimp only
    split
    · split
      · exact hgo (hf.goto target)
      · exact hgo hf
    · exact operate_leads hk hstack (.inl (hf.withWant _))
        (.bind (Operation.compare_obeys op (hfetch a) (hfetch b)) fun _ _ _ _ =>
          .pure fun _ _ => by simp)
  | closure dst p =>
    obtain ⟨hleads, hok⟩ := makeClosure_leads (m := s.heap.tables.size) hk hf
      (f.proto.protos.getD p default)
    exact change_leads hstack hleads (.inl (hf.put dst hok))
  | varargs want =>
    unfold execute
    dsimp only
    split
    · exact hgo (hf.putAll _ _ hf.varargs)
    · exact hgo (hf.withHand hf.varargs)
  | call fn count more want => exact callFrom_leads hk hstack hf _ _ _ _
  | tailCall fn count more => exact tailCallFrom_leads hk hstack hf _ _ _
  | ret first count more =>
    exact Heap.Leads.state (.refl hk) ⟨hk, hstack, hf.gather _ _ _⟩
  | stash first count more => exact hgo (hf.withHand (hf.gather _ _ _))
  | forPrepare base target =>
    unfold execute
    dsimp only
    have hstart := loopStart_ok (W := W) (n := s.heap.tables.size) s.heap
      (f.registers.getD base .nil) (f.registers.getD (base + 1) .nil)
      (f.registers.getD (base + 2) .nil)
    split
    · rename_i heq
      rw [heq] at hstart
      exact failAt_leads hk hstack hf hstart
    · exact hgo (hf.goto target)
    · rename_i heq
      rw [heq] at hstart
      obtain ⟨hinit, hlimit, hstep⟩ := hstart
      exact hgo ((((hf.put _ hinit).put _ hlimit).put _ hstep).put _ hinit)
  | forLoop base target =>
    unfold execute
    dsimp only
    split
    · split
      · exact hgo hf
      · exact hgo ((((hf.put _ (Value.ok_int _)).put _ (Value.ok_int _)).put _
          (Value.ok_int _)).goto target)
    · have hnext (x : Float) := hgo (((hf.put base (Value.ok_float x)).put (base + 3)
        (Value.ok_float x)).goto target)
      split
      · exact ite_leads (hnext _) (hgo hf)
      · exact ite_leads (hnext _) (hgo hf)
    · exact hgo hf
  | iterate base count =>
    refine Heap.Leads.state (.refl hk) ⟨hk, ⟨.inl (hf.withWant _), hstack⟩,
      .inl (hf.getD base).callable, ?_⟩
    exact Oks.cons_iff.mpr ⟨hf.getD _, Oks.cons_iff.mpr ⟨hf.getD _, .nil⟩⟩
  | iterateLoop base target =>
    unfold execute
    dsimp only
    split
    · exact hgo hf
    · exact hgo ((hf.put _ (hf.getD _)).goto target)
  | markClose level a =>
    unfold execute
    dsimp only
    split
    · exact hgo hf
    · split
      · exact failAt_leads hk hstack hf trivial
      · refine hgo (hf.withClosing fun c hc => ?_)
        rcases List.mem_cons.mp hc with rfl | hc
        · exact hfetch a
        · exact hf.closing c hc
  | close level =>
    unfold execute
    dsimp only
    split
    · rename_i l v rest hclosing
      have hv : v.Ok W s.heap.tables.size := hf.closing (l, v) (by simp [hclosing])
      have hrest : ∀ c ∈ rest, c.2.Ok W s.heap.tables.size := fun c hc =>
        hf.closing c (by simp [hclosing, hc])
      split
      · refine nest_leads
          (s := { s with stack := .script { f with closing := rest, want := .again } :: s.stack })
          (t := .operation fun h vs => .done h vs) hk ⟨fun _ _ _ hk hvs => ⟨.refl hk, hvs⟩,
            .inl ((hf.withClosing hrest).withWant _), hstack⟩ _
          (hk.metafield_ok hv Event.close (by decide)).callable (by simpa using hv)
      · exact hgo hf
    · exact hgo hf

end StoryPack.Script.State
