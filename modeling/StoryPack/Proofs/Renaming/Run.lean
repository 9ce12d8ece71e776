/-
Runs whose references are renamed.

States that correspond move to states that correspond, as long as the machine
keeps what scripts may not change: the functions that catch errors are called by
protected calls only.  So runs of any length correspond, and calls from outside
end in heaps that correspond, with the same values or the same error but for
references.

The collector runs at other times in the one run than in the other.  It changes
nothing that matters, as long as it takes entries only out of tables that have no
counterpart, or that are there from the start: weak tables of earlier loads.

* `Heap.Spares` — entries vanish only from the first tables;
* `State.step_renamed` — one move;
* `State.tidy_renamed` — the collector;
* `State.run_renamed` — a run, by induction on its moves;
* `Heap.Renamed.perform` — a call from outside.
-/
import StoryPack.Proofs.Confinement.View
import StoryPack.Proofs.Renaming.Instruction
import StoryPack.Proofs.Script.Budget

namespace StoryPack.Script

variable {σ : Renaming} {W W' : Ward} {n n' : Nat}

/-! ### Entries that vanish -/

/-- From one heap to another, the collector takes entries only out of the first tables. -/
def Heap.Spares (n : Nat) (h h' : Heap) : Prop :=
  ∃ gone, h'.vanished = gone ++ h.vanished ∧ ∀ r ∈ gone, r < n

/-- The same is true of both parts of the way. -/
theorem Heap.Spares.parts {h h' h'' : Heap} (hv : h.Spares n h'')
    (hfirst : h.vanished <:+ h'.vanished) (hlast : h'.vanished <:+ h''.vanished) :
    h.Spares n h' ∧ h'.Spares n h'' := by
  obtain ⟨gone, hgone, hlt⟩ := hv
  obtain ⟨first, hfirst⟩ := hfirst
  obtain ⟨last, hlast⟩ := hlast
  have happend : last ++ first = gone := by
    rw [← hlast, ← hfirst, ← List.append_assoc] at hgone
    exact List.append_cancel_right hgone
  subst happend
  exact ⟨⟨first, hfirst.symm, fun r hr => hlt r (List.mem_append_right _ hr)⟩,
    last, hlast.symm, fun r hr => hlt r (List.mem_append_left _ hr)⟩

/-- The first tables of either heap are fixed, or have no counterpart in the other one. -/
structure Renaming.Shields (σ : Renaming) (W W' : Ward) (n n' : Nat) : Prop where
  left : ∀ r < n, (W.tables r).isSome
  right : ∀ r, σ.table r < n' → (W'.tables (σ.table r)).isSome

theorem Renaming.Shields.mono {V V' : Ward} (hσ : σ.Shields W W' n n') (hV : V.Contains W)
    (hV' : V'.Contains W') : σ.Shields V V' n n' where
  left r hr := by
    obtain ⟨t, ht⟩ := Option.isSome_iff_exists.mp (hσ.left r hr)
    exact Option.isSome_iff_exists.mpr ⟨t, hV.tables ht⟩
  right r hr := by
    obtain ⟨t, ht⟩ := Option.isSome_iff_exists.mp (hσ.right r hr)
    exact Option.isSome_iff_exists.mpr ⟨t, hV'.tables ht⟩

/-- A table that is fixed, if it is one of the first, loses no entries. -/
theorem Heap.Kept.getElem?_collected {h : Heap} (hk : h.Kept W) {roots : List Value} {all : Bool}
    (hv : h.Spares n (h.collected roots all)) {r : Nat} (hr : r < n → (W.tables r).isSome) :
    (h.collected roots all).tables[r]? = h.tables[r]? := by
  obtain ⟨gone, hgone, hlt⟩ := hv
  by_cases hmem : r ∈ gone
  · obtain ⟨t, ht⟩ := Option.isSome_iff_exists.mp (hr (hlt r hmem))
    exact Heap.getElem?_collected (hk.strong_of_fixed ht)
  · exact Heap.getElem?_collected_of_not_mem hgone hmem

namespace Heap.Renamed

variable {h h' : Heap} {roots : List Value} {all : Bool}

/-- The collector, in the first of two heaps. -/
theorem collected_left (hh : h.Renamed σ h')
    (hsame : ∀ r : Nat, (h.collected roots all).tables[r]? = h.tables[r]?) :
    (h.collected roots all).Renamed σ h' := by
  obtain ⟨tables, used, vanished, heq, -⟩ := h.collected_eq roots all
  have htables : tables = h.tables := Array.ext_getElem? fun r => by rw [← hsame, heq]
  rw [heq, htables]
  exact { hh with }

/-- The collector, in the second one. -/
theorem collected_right (hh : h.Renamed σ h')
    (hsame : ∀ r : Nat, (h'.collected roots all).tables[σ.table r]? = h'.tables[σ.table r]?) :
    h.Renamed σ (h'.collected roots all) := by
  obtain ⟨tables, used, vanished, heq, hsize, -⟩ := h'.collected_eq roots all
  rw [heq] at hsame ⊢
  refine { hh with tables := ⟨fun {r t} hr => ?_, fun k => (hh.tables.add k).trans ?_⟩ }
  · obtain ⟨t', ht', hrel⟩ := hh.tables.rel hr
    exact ⟨t', (hsame r).trans ht', hrel⟩
  · rw [hsize]

end Heap.Renamed

/-! ### Moves -/

namespace State

variable {s u : State}

section

variable (hs : s.Alike σ u) (hh : s.heap.Renamed σ u.heap)

include hs hh

theorem resume_renamed (f : Frame) (vs : List Value) :
    (s.resume f vs).Renamed σ (u.resume (σ.frame f) (σ.values vs)) := by
  unfold resume
  rw [show (σ.frame f).want = f.want from rfl]
  cases f.want with
  | none => exact goOn_renamed hs hh rfl
  | registers first count => exact goOn_renamed hs hh (f.putAll_frame first count vs)
  | all => exact goOn_renamed hs hh rfl
  | test sense target =>
    dsimp only
    rw [σ.headD_values, σ.truthy_value]
    refine goOn_renamed hs hh ?_
    split
    · rfl
    · rfl
  | result =>
    exact { hs with
      heap := hh, mode := rfl, slots := congrArg (· - (f.proto.registers + 2)) hs.slots }
  | again => exact goOn_renamed hs hh rfl

theorem closeNext_renamed (e : Failure) (closing : List (Nat × Value)) :
    (s.closeNext e closing).Renamed σ (u.closeNext (σ.failure e) (σ.marked closing)) := by
  cases closing with
  | nil => exact { hs with heap := hh, mode := rfl }
  | cons c rest =>
    obtain ⟨level, v⟩ := c
    rw [show σ.marked ((level, v) :: rest) = (level, σ.value v) :: σ.marked rest from rfl]
    unfold closeNext
    dsimp only
    rw [hh.metafield]
    cases e with
    | thrown w => exact nest_renamed hs hh (.closing (.thrown w) rest) _ _ [v, w]
    | memory => exact nest_renamed hs hh (.closing .memory rest) _ _ [v, .ofString memoryMessage]

/-- Values arrive at the top of the stack. -/
theorem deliver_renamed (vs : List Value) :
    (s.deliver vs).Renamed σ (u.deliver (σ.values vs)) := by
  have hstack := hs.stack
  unfold deliver
  generalize s.stack = stack at hstack
  generalize u.stack = stack' at hstack
  have hdepth : u.depth - 1 = s.depth - 1 := by rw [hs.depth]
  cases hstack with
  | nil => exact State.Renamed.mk { hs with stack := .nil } hh rfl
  | @cons t t' rest rest' ht hrest =>
    have hpop : State.Alike σ { s with stack := rest, mode := .deliver [], depth := s.depth - 1 }
        { u with stack := rest', mode := .deliver [], depth := u.depth - 1 } :=
      { hs with stack := hrest, depth := hdepth }
    cases ht with
    | script f =>
      exact resume_renamed (s := { s with stack := rest, mode := .deliver [] })
        (u := { u with stack := rest', mode := .deliver [] }) { hs with stack := hrest } hh f vs
    | library b hk => exact perform_renamed hpop hh (.library b) fun h h' hh => hk h h' vs hh
    | operation hk => exact perform_renamed hpop hh .operation fun h h' hh => hk h h' vs hh
    | guard handler counting => exact State.Renamed.mk { hpop with } hh rfl
    | handling =>
      dsimp only
      rw [σ.headD_values]
      exact unwinding_renamed
        (s := { s with
          stack := rest, mode := .deliver [], depth := s.depth - 1, handlers := s.handlers - 1 })
        (u := { u with
          stack := rest', mode := .deliver [], depth := u.depth - 1, handlers := u.handlers - 1 })
        { hpop with handlers := congrArg (· - 1) hs.handlers } hh (.thrown (vs.headD .nil))
    | closing e more => exact closeNext_renamed hpop hh e more
    | root closes => exact State.Renamed.mk { hs with stack := hrest } hh rfl

/-- An error leaves the top of the stack. -/
theorem unwindTop_renamed (hmode : u.mode = σ.mode s.mode) (e : Failure) :
    (s.unwindTop e).Renamed σ (u.unwindTop (σ.failure e)) := by
  have hstack := hs.stack
  unfold unwindTop
  generalize s.stack = stack at hstack
  generalize u.stack = stack' at hstack
  have hdepth : u.depth - 1 = s.depth - 1 := by rw [hs.depth]
  cases hstack with
  | nil => exact State.Renamed.mk { hs with stack := .nil } hh rfl
  | @cons t t' rest rest' ht hrest =>
    have hpop : State.Alike σ { s with stack := rest, depth := s.depth - 1 }
        { u with stack := rest', depth := u.depth - 1 } :=
      { hs with stack := hrest, depth := hdepth }
    cases ht with
    | script f =>
      exact closeNext_renamed
        (s := { s with stack := rest, slots := s.slots - (f.proto.registers + 2) })
        (u := { u with stack := rest', slots := u.slots - (f.proto.registers + 2) })
        { hs with stack := hrest, slots := congrArg (· - (f.proto.registers + 2)) hs.slots } hh e
        f.closing
    | library b hk => exact State.Renamed.mk { hpop with } hh hmode
    | operation hk => exact State.Renamed.mk { hpop with } hh hmode
    | guard handler counting =>
      cases e with
      | thrown v => exact State.Renamed.mk { hpop with } hh rfl
      | memory => exact State.Renamed.mk { hpop with } hh rfl
    | handling =>
      exact State.Renamed.mk { hpop with handlers := congrArg (· - 1) hs.handlers } hh hmode
    | closing e' more => exact closeNext_renamed hpop hh e more
    | root closes => exact State.Renamed.mk { hs with stack := hrest } hh rfl

/-- One instruction, or the end of the code. -/
theorem advance_renamed (f : Frame) :
    (step.advance s f).Renamed σ (step.advance u (σ.frame f)) := by
  unfold step.advance
  rw [show (σ.frame f).proto = f.proto from rfl, show (σ.frame f).pc = f.pc from rfl]
  cases f.proto.code[f.pc]? with
  | none => exact State.Renamed.mk { hs with } hh rfl
  | some i => exact execute_renamed hs hh { f with pc := f.pc + 1 } i

end

/-- One move. -/
theorem step_renamed (hs : s.Renamed σ u) (hk : s.Kept W) : s.step.Renamed σ u.step := by
  have hmode := hk.mode
  unfold step
  rw [hs.mode]
  cases hm : s.mode with
  | execute f =>
    have hcounted (left : Nat) : State.Alike σ { s with left := left, mode := .deliver [] }
        { u with
          budget := s.budget, counting := s.counting, left := left, mode := .deliver [] } :=
      { hs.toAlike with budget := rfl, counting := rfl, left := rfl }
    dsimp only [Renaming.mode]
    rw [hs.budget, hs.counting, hs.left]
    split
    · split
      · exact trip_renamed (hcounted s.left) hs.heap { f with pc := f.pc + 1 }
      · exact advance_renamed (hcounted (s.left - 1)) hs.heap f
    · exact advance_renamed (hcounted s.left) hs.heap f
  | call o f args =>
    rw [hm] at hmode
    refine call_renamed (s := { s with mode := _ }) (u := { u with mode := _ })
      { hs.toAlike with } hs.heap o f args ?_
    rintro b rfl hpcall hxpcall
    exact Summoned.open hmode.1 hpcall hxpcall
  | deliver vs => exact deliver_renamed hs.toAlike hs.heap vs
  | raise e => exact raised_renamed hs.toAlike hs.heap e
  | unwind e => exact unwindTop_renamed hs.toAlike hs.heap hs.mode e
  | ended e => cases e <;> exact hs

/-- The collector runs in either state or in both, or in none. -/
theorem tidy_renamed (hs : s.Renamed σ u) (hσ : σ.Shields W W' n n') (hk : s.heap.Kept W)
    (hk' : u.heap.Kept W') (hv : s.heap.Spares n s.tidy.heap) (hv' : u.heap.Spares n' u.tidy.heap) :
    s.tidy.Renamed σ u.tidy := by
  have hleft : s.tidy.Renamed σ u := by
    obtain heq | heq := tidy_of_limit hs.heap.limit
    · rwa [heq]
    · rw [heq] at hv ⊢
      have hheap := hs.heap.collected_left fun r => hk.getElem?_collected hv (hσ.left r)
      exact { hs with heap := hheap }
  obtain heq | heq := tidy_of_limit hs.heap.limit'
  · rwa [heq]
  · rw [heq] at hv' ⊢
    have hheap := hleft.heap.collected_right fun r => hk'.getElem?_collected hv' (hσ.right r)
    exact { hleft with heap := hheap }

/-- What vanishes in a run vanishes in its first move or in the rest of it. -/
theorem Kept.spares_run (hk : s.Kept W) {patience : Nat}
    (hv : s.heap.Spares n (s.tidy.step.run patience).heap) :
    s.tidy.Kept W ∧ s.tidy.step.Kept W ∧ s.heap.Spares n s.tidy.heap ∧
      s.tidy.step.heap.Spares n (s.tidy.step.run patience).heap := by
  have htidy := tidy_leads hk
  have hstep := step_leads htidy.kept
  have hrun := run_leads hstep.kept patience
  obtain ⟨hnow, hlater⟩ := hv.parts htidy.vanished (hstep.vanished.trans hrun.vanished)
  exact ⟨htidy.kept, hstep.kept, hnow, (hlater.parts hstep.vanished hrun.vanished).2⟩

/-- A run of any length. -/
theorem run_renamed (hs : s.Renamed σ u) (hσ : σ.Shields W W' n n') (hk : s.Kept W)
    (hk' : u.Kept W') (patience : Nat) (hv : s.heap.Spares n (s.run patience).heap)
    (hv' : u.heap.Spares n' (u.run patience).heap) :
    (s.run patience).Renamed σ (u.run patience) := by
  induction patience generalizing s u with
  | zero => exact hs
  | succ patience ih =>
    rw [run_eq_step] at hv hv' ⊢
    rw [run_eq_step]
    obtain ⟨htidy, hstep, hnow, hlater⟩ := hk.spares_run hv
    obtain ⟨-, hstep', hnow', hlater'⟩ := hk'.spares_run hv'
    have hsame := step_renamed (tidy_renamed hs hσ hk.heap hk'.heap hnow hnow') htidy
    exact ih hsame hstep hstep' hlater hlater'

theorem conclusion_renamed (hs : s.Renamed σ u) : u.conclusion = σ.conclusion s.conclusion := by
  unfold conclusion
  rw [hs.mode]
  cases s.mode with
  | ended e => cases e <;> rfl
  | _ => rfl

theorem start_renamed {h h' : Heap} (hh : h.Renamed σ h') (closes : Bool) (budget : Option Nat)
    (held held' : List Value) (f : Value) (args : List Value) :
    (start h closes budget held f args).Renamed σ
      (start h' closes budget held' (σ.value f) (σ.values args)) where
  stack := .cons (.root closes) .nil
  budget := rfl
  left := rfl
  counting := rfl
  depth := rfl
  slots := rfl
  handlers := rfl
  heap := hh
  mode := rfl

end State

/-- A call from outside. -/
theorem Heap.Renamed.perform {h h' : Heap} (hh : h.Renamed σ h') (hσ : σ.Shields W W' n n')
    (hk : h.Kept W) (hk' : h'.Kept W') (patience : Nat) (closes : Bool) (budget : Option Nat)
    (held held' : List Value) {f : Value} (hf : f.Callable W h.tables.size)
    (hf' : (σ.value f).Callable W' h'.tables.size) {args : List Value}
    (hargs : Oks W h.tables.size args) (hargs' : Oks W' h'.tables.size (σ.values args))
    (hv : h.Spares n (h.perform patience closes budget held f args).1)
    (hv' : h'.Spares n'
      (h'.perform patience closes budget held' (σ.value f) (σ.values args)).1) :
    (h.perform patience closes budget held f args).1.Renamed σ
        (h'.perform patience closes budget held' (σ.value f) (σ.values args)).1 ∧
      (h'.perform patience closes budget held' (σ.value f) (σ.values args)).2 =
        σ.conclusion (h.perform patience closes budget held f args).2 := by
  have hstart := State.start_renamed hh closes budget held held' f args
  have hkept : (State.start h closes budget held f args).Kept W :=
    ⟨hk, ⟨trivial, trivial⟩, .inl hf, hargs⟩
  have hkept' : (State.start h' closes budget held' (σ.value f) (σ.values args)).Kept W' :=
    ⟨hk', ⟨trivial, trivial⟩, .inl hf', hargs'⟩
  have hrun := State.run_renamed hstart hσ hkept hkept' patience hv hv'
  exact ⟨hrun.heap, State.conclusion_renamed hrun⟩

end StoryPack.Script
