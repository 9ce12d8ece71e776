/-
Runs keep what is fixed.

Every move of the machine keeps a state, and so does a run of any length.  A call
from outside ends in a heap in which all that is fixed is as it was, with values
or a failure that hold only what scripts may hold.

* `State.step_leads` — one move;
* `State.run_leads` — a run;
* `Heap.Follows`, `Heap.perform_leads` — a call from outside.
-/
import StoryPack.Proofs.Confinement.Protected
import StoryPack.Proofs.Script.Budget

namespace StoryPack.Script

variable {W : Ward} {n : Nat}

namespace State

variable {s : State} {f : Frame}

/-- A protected call takes the values that it waits for and goes on where it is, or behind its error
when the run has not overrun its budget, or it hands them on. -/
theorem resume_guarded (s : State) (hf : f.Guarded W n) (hexpects : f.Expects) {vs : List Value}
    (hvs : Oks W n vs) :
    (∃ f', s.resume f vs = s.go f' ∧ f'.Guarded W n ∧
        (f'.pc = f.pc ∨ f.pc = 7 ∧ (vs.headD .nil).truthy = false ∧ f'.pc = 12)) ∨
      f.pc = 17 ∧
        s.resume f vs =
        { s with mode := .deliver vs, slots := s.slots - (f.proto.registers + 2) } := by
  obtain ⟨raw, hwraps, ha⟩ := hf.wraps
  -- one register is written
  have hput (i : Nat) (hi : i < 5) (hne : i ≠ 1 ∧ i ≠ 2 ∧ i ≠ 3) :
      Frame.Guarded W n (f.putAll i 1 vs) := by
    have hv : (vs.headD .nil).Ok W n := hvs.headD
    have hregisters : Guard.Registers W n raw f.pc (f.registers.set! i (vs.headD .nil)) := by
      refine ha.put hi (fun _ => hv) ?_ ?_ ?_ ?_ ?_ ?_ ?_ ?_
      all_goals
        simp only [hne.1, hne.2.1, hne.2.2, if_false]
      · exact ha.second
      · exact ha.raw
      · exact ha.pack
      · exact ha.tripped
      · exact ha.error
      · exact ha.message
      · exact ha.level
      · exact ha.unpack
    have hputAll : f.putAll i 1 vs = f.put i (vs.headD .nil) := by
      cases vs <;> rfl
    rw [hputAll]
    exact hf.at hwraps f.pc hf.pc hregisters hf.hand f.want
  unfold resume
  rcases hexpects with ⟨-, hwant⟩ | ⟨-, hwant⟩ | ⟨hpc, hwant⟩ | ⟨-, hwant⟩ | ⟨-, hwant⟩ |
    ⟨hpc, hwant⟩
  all_goals rw [hwant]
  · exact .inl ⟨_, rfl, hf.at hwraps f.pc hf.pc ha hvs _, .inl rfl⟩
  · exact .inl ⟨_, rfl, hput 0 (by decide) (by decide), .inl (by cases vs <;> rfl)⟩
  · dsimp only
    refine .inl ?_
    split
    · rename_i hfalse
      rw [hpc] at ha
      refine ⟨_, rfl, hf.at hwraps 12 (by decide) (ha.goto ?_ ?_ ?_ ?_ ?_ ?_ ?_ ?_) hf.hand
        f.want, .inr ⟨hpc, by simpa using hfalse, rfl⟩⟩
      all_goals simp
    · exact ⟨_, rfl, hf, .inl rfl⟩
  · exact .inl ⟨_, rfl, hf, .inl rfl⟩
  · exact .inl ⟨_, rfl, hput 4 (by decide) (by decide), .inl (by cases vs <;> rfl)⟩
  · exact .inr ⟨hpc, rfl⟩

/-- Values are handed to a function that waits for them. -/
theorem resume_leads (hk : s.heap.Kept W) (hstack : Stack.Kept W s.heap.tables.size s.stack)
    (hf : f.Waits W s.heap.tables.size) {vs : List Value} (hvs : Oks W s.heap.tables.size vs) :
    (s.resume f vs).Leads W s.heap := by
  rcases hf with hf | ⟨hf, hexpects⟩ | ⟨hwant, -⟩
  · unfold resume
    split
    · exact go_leads hk hstack (.inl hf)
    · exact go_leads hk hstack (.inl (hf.putAll _ _ hvs))
    · exact go_leads hk hstack (.inl (hf.withHand hvs))
    · refine go_leads hk hstack (.inl ?_)
      split
      · exact hf.goto _
      · exact hf
    · exact Heap.Leads.state (.refl hk) ⟨hk, hstack, hvs⟩
    · exact go_leads hk hstack (.inl (hf.goto _))
  · rcases resume_guarded s hf hexpects hvs with ⟨f', heq, hf', -⟩ | ⟨-, heq⟩
    · rw [heq]
      exact go_leads hk hstack (.inr hf')
    · rw [heq]
      exact Heap.Leads.state (.refl hk) ⟨hk, hstack, hvs⟩
  · unfold resume
    rw [hwant]
    exact Heap.Leads.state (.refl hk) ⟨hk, hstack, hvs⟩

/-- The next variable that an error has left is closed, or the error goes on. -/
theorem closeNext_leads (hk : s.heap.Kept W) (hstack : Stack.Kept W s.heap.tables.size s.stack)
    {e : Failure} (he : e.Ok W s.heap.tables.size) {closing : List (Nat × Value)}
    (hclosing : ∀ c ∈ closing, c.2.Ok W s.heap.tables.size) :
    (s.closeNext e closing).Leads W s.heap := by
  cases closing with
  | nil => exact Heap.Leads.state (.refl hk) ⟨hk, hstack, he⟩
  | cons c rest =>
    obtain ⟨level, v⟩ := c
    have hv : v.Ok W s.heap.tables.size := hclosing (level, v) List.mem_cons_self
    have hrest : ∀ c ∈ rest, c.2.Ok W s.heap.tables.size := fun c hc =>
      hclosing c (List.mem_cons_of_mem _ hc)
    refine nest_leads (t := .closing e rest) hk ⟨⟨he, hrest⟩, hstack⟩ _
      (hk.metafield_ok hv Event.close (by decide)).callable ?_
    refine Oks.cons_iff.mpr ⟨hv, Oks.cons_iff.mpr ⟨?_, .nil⟩⟩
    cases e with
    | thrown v => exact he
    | memory => trivial

/-- Values arrive at the top of the stack. -/
theorem deliver_leads (hk : s.heap.Kept W) (hstack : Stack.Kept W s.heap.tables.size s.stack)
    {vs : List Value} (hvs : Oks W s.heap.tables.size vs) : (s.deliver vs).Leads W s.heap := by
  unfold deliver
  split
  · exact Heap.Leads.state (.refl hk) ⟨hk, hstack, hvs⟩
  · rename_i t rest hs
    rw [hs] at hstack
    have ht := hstack.task
    have hrest := hstack.tail
    dsimp only
    split
    · exact resume_leads (s := { s with stack := rest, mode := .deliver [] }) hk hrest ht hvs
    · exact perform_leads (s := { s with stack := rest, mode := .deliver [], depth := s.depth - 1 })
        (fun h hn hk => ht h vs hn hk (hvs.mono hn)) hk hrest _
    · exact perform_leads (s := { s with stack := rest, mode := .deliver [], depth := s.depth - 1 })
        (fun h hn hk => ht h vs hn hk (hvs.mono hn)) hk hrest _
    · exact Heap.Leads.state (.refl hk)
        ⟨hk, hrest, Oks.cons_iff.mpr ⟨Value.ok_bool _, hvs⟩⟩
    · exact unwinding_leads
        (s := { s with
          stack := rest, mode := .deliver [], depth := s.depth - 1, handlers := s.handlers - 1 })
        hk hrest hvs.headD
    · exact closeNext_leads
        (s := { s with stack := rest, mode := .deliver [], depth := s.depth - 1 })
        hk hrest ht.1 ht.2
    · exact Heap.Leads.state (.refl hk) ⟨hk, hrest, hvs⟩

/-- An error leaves the top of the stack. -/
theorem unwindTop_leads (hk : s.heap.Kept W) (hstack : Stack.Kept W s.heap.tables.size s.stack)
    {e : Failure} (he : e.Ok W s.heap.tables.size) (hmode : s.mode = .unwind e) :
    (s.unwindTop e).Leads W s.heap := by
  unfold unwindTop
  split
  · exact Heap.Leads.state (.refl hk) ⟨hk, hstack, he⟩
  · rename_i t rest hs
    rw [hs] at hstack
    have ht := hstack.task
    have hrest := hstack.tail
    have hunwind (depth handlers : Nat) : State.Leads W s.heap
        { s with stack := rest, depth := depth, handlers := handlers } := by
      refine Heap.Leads.state (.refl hk) ⟨hk, hrest, ?_⟩
      show s.mode.Kept W _ _
      rw [hmode]
      exact he
    dsimp only
    split
    · rename_i f
      exact closeNext_leads (s := { s with stack := rest, slots := _ }) hk hrest he
        (Frame.Waits.closing ht)
    · refine Heap.Leads.state (.refl hk)
        ⟨hk, hrest, Oks.cons_iff.mpr ⟨Value.ok_bool _, Oks.cons_iff.mpr ⟨?_, .nil⟩⟩⟩
      cases e with
      | thrown v => exact he
      | memory => trivial
    · exact hunwind _ _
    · exact hunwind _ s.handlers
    · exact hunwind _ s.handlers
    · exact closeNext_leads (s := { s with stack := rest, depth := s.depth - 1 }) hk hrest he ht.2
    · exact Heap.Leads.state (.refl hk) ⟨hk, hrest, he⟩

/-- One move. -/
theorem step_leads (hs : s.Kept W) : s.step.Leads W s.heap := by
  obtain ⟨hk, hstack, hmode⟩ := hs
  unfold step
  split
  · rename_i f hexecute
    rw [hexecute] at hmode
    have hadvance (left : Nat) :
        (step.advance { s with left := left, mode := .deliver [] } f).Leads W s.heap := by
      rcases hmode with hf | hf
      · unfold step.advance
        split
        · exact execute_leads (s := { s with left := left, mode := .deliver [] }) hk hstack
            (hf.goto _) _
        · exact Heap.Leads.state (.refl hk) ⟨hk, hstack, .nil⟩
      · exact advance_guarded_leads (s := { s with left := left, mode := .deliver [] }) hk hstack hf
    split
    · rename_i hcount
      have hbudget : s.budget ≠ 0 := by
        rw [Bool.and_eq_true] at hcount
        simpa using hcount.1
      split
      · refine trip_leads (s := { s with mode := .deliver [] }) hk hbudget ⟨?_, hstack⟩
        rcases hmode with hf | hf
        · exact .inl ((hf.goto _).withWant _)
        · exact .inr (.inr ⟨rfl, hf.closing⟩)
      · exact hadvance _
    · exact hadvance s.left
  · rename_i o f args hcall
    rw [hcall] at hmode
    exact call_leads (s := { s with mode := .deliver [] }) hk hstack o hmode.1 hmode.2
  · rename_i vs hdeliver
    rw [hdeliver] at hmode
    exact deliver_leads hk hstack hmode
  · rename_i e hraise
    rw [hraise] at hmode
    exact raised_leads hk hstack hmode
  · rename_i e hunwind
    have he := hmode
    rw [hunwind] at he
    exact unwindTop_leads hk hstack he hunwind
  · exact Heap.Leads.state (.refl hk) ⟨hk, hstack, hmode⟩

/-- The collector. -/
theorem tidy_leads (hs : s.Kept W) : s.tidy.Leads W s.heap := by
  have hstay : s.Leads W s.heap := Heap.Leads.state (.refl hs.heap) hs
  unfold tidy
  split
  · split
    · rename_i hdue
      let g := s.heap.collected s.roots s.showsAll
      have hk : g.Kept W := hs.heap.collected s.roots s.showsAll
      have hsize : g.tables.size = s.heap.tables.size := Heap.size_collected ..
      have hkept : State.Kept W { s with heap := g } := ⟨hk, hsize ▸ hs.stack, hsize ▸ hs.mode⟩
      have hleads : State.Leads W s.heap { s with heap := g } :=
        ⟨.collected hdue .., Nat.le_of_eq hsize.symm, .inl (Heap.tripped_collected ..), hkept⟩
      unfold collect
      dsimp only
      split
      · refine hleads.trans (unwinding_leads (s := { s with heap := g }) hk hkept.stack trivial) ?_
        unfold unwinding
        split <;> rfl
      · exact hleads
    · exact hstay
  · exact hstay

/-- A run of any length. -/
theorem run_leads (hs : s.Kept W) (patience : Nat) : (s.run patience).Leads W s.heap := by
  induction patience generalizing s with
  | zero => exact Heap.Leads.state (.refl hs.heap) hs
  | succ patience ih =>
    unfold run
    split
    · exact Heap.Leads.state (.refl hs.heap) hs
    · have htidy := tidy_leads hs
      have hstep := step_leads htidy.kept
      exact (htidy.trans hstep (budget_step _)).trans (ih hstep.kept) (budget_run _ _)

end State

/-- What a call from outside ends with holds only what scripts may hold. -/
def Conclusion.Ok (W : Ward) (n : Nat) : Conclusion → Prop
  | .values vs => Oks W n vs
  | .failed e => e.Ok W n
  | .unfinished => True

/-- A heap that comes of another one by what the machine does: what is fixed is as it was, tables
are only added, and entries of weak tables only vanish. -/
structure Heap.Follows (W : Ward) (g h : Heap) : Prop extends g.Sheds h where
  size : g.tables.size ≤ h.tables.size
  kept : h.Kept W

namespace Heap.Follows

variable {f g h : Heap}

theorem refl (hk : h.Kept W) : h.Follows W h := ⟨.refl h, Nat.le_refl _, hk⟩

theorem trans (hfg : f.Follows W g) (hgh : g.Follows W h) : f.Follows W h where
  toSheds := hfg.toSheds.trans hgh.toSheds
  size := Nat.le_trans hfg.size hgh.size
  kept := hgh.kept

/-- The collector. -/
theorem collected (hk : h.Kept W) (hdue : h.isDue = true) (roots : List Value) (all : Bool) :
    h.Follows W (h.collected roots all) where
  toSheds := .collected hdue roots all
  size := Nat.le_of_eq (h.size_collected roots all).symm
  kept := hk.collected roots all

end Heap.Follows

/-- A call from outside. -/
theorem Heap.perform_leads {h : Heap} (hk : h.Kept W) (patience : Nat) (closes : Bool)
    (budget : Option Nat) (held : List Value) {f : Value} (hf : f.Callable W h.tables.size)
    {args : List Value} (hargs : Oks W h.tables.size args) :
    h.Follows W (h.perform patience closes budget held f args).1 ∧
      (h.perform patience closes budget held f args).2.Ok W
        (h.perform patience closes budget held f args).1.tables.size := by
  have hstart : (State.start h closes budget held f args).Kept W :=
    ⟨hk, ⟨trivial, trivial⟩, .inl hf, hargs⟩
  have hrun := State.run_leads hstart patience
  refine ⟨⟨hrun.toSheds, hrun.size, hrun.kept.heap⟩, ?_⟩
  have hmode := hrun.kept.mode
  unfold perform
  dsimp only
  unfold State.conclusion
  split
  · rename_i vs hended
    rw [hended] at hmode
    exact hmode
  · rename_i e hended
    rw [hended] at hmode
    exact hmode
  · trivial

end StoryPack.Script
