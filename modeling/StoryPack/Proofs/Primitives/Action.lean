/-
Actions that take the same course in heaps that are alike.

Two courses are alike when both end with the same result, both fail with the same
error, or both ask for the same call and are alike again whatever comes of it.
An action is steady when its courses from heaps that are alike are alike.  Steady
actions can be put together.

* `Run.Alike` — courses that are alike;
* `Action.Steady` — steady actions;
* `Action.Steady.bind`, `Action.Steady.call`, … — how such actions are built;
* `State.mode_follow` — the machine goes on in the same way after both courses.
-/
import StoryPack.Proofs.Primitives.Usual
import StoryPack.Script.Machine

namespace StoryPack.Script

variable {T : Known} {α β : Type}

/-- Courses that are alike. What a call gives is the same in both, and so are the metamethods of
the values in it. -/
inductive Run.Alike (T : Known) : Run α → Run α → Prop
  | done {g h : Heap} (hgh : g.Alike T h) (a : α) : Run.Alike T (.done g a) (.done h a)
  | failed {g h : Heap} (hgh : g.Alike T h) (e : Raised) : Run.Alike T (.failed g e) (.failed h e)
  | call {g h : Heap} (hgh : g.Alike T h) (f : Value) (args : List Value)
    {next next' : Heap → List Value → Run α}
    (hnext : ∀ g h vs, g.Alike T h → (∀ v ∈ vs, v.Suits T) →
      Run.Alike T (next g vs) (next' h vs)) :
    Run.Alike T (.call g f args next) (.call h f args next')

/-- An action whose courses from heaps that are alike are alike. -/
def Action.Steady (T : Known) (a : Action α) : Prop :=
  ∀ g h, g.Alike T h → (a g).Alike T (a h)

theorem Run.Alike.andThen {r r' : Run α} {k k' : α → Heap → Run β} (hr : r.Alike T r')
    (hk : ∀ x g h, g.Alike T h → (k x g).Alike T (k' x h)) :
    (r.andThen k).Alike T (r'.andThen k') := by
  induction hr with
  | done hgh a => exact hk a _ _ hgh
  | failed hgh e => exact .failed hgh e
  | call hgh f args _ ih => exact .call hgh f args ih

namespace Action.Steady

/-- One action after another. -/
theorem bind {a : Action α} {k : α → Action β} (ha : a.Steady T) (hk : ∀ x, (k x).Steady T) :
    (a >>= k).Steady T := by
  intro g h hgh
  rw [bind_apply, bind_apply]
  exact (ha g h hgh).andThen hk

theorem pure (x : α) : (Pure.pure x : Action α).Steady T := fun _ _ hgh => .done hgh x

theorem fail (e : Raised) : (Action.fail e : Action α).Steady T := fun _ _ hgh => .failed hgh e

theorem raise (message : String) : (Action.raise message : Action α).Steady T := fail _

theorem badArgument (n : Nat) (message : String) :
    (Action.badArgument n message : Action α).Steady T := fail _

theorem read {F : Heap → α} (hF : ∀ g h, g.Alike T h → F h = F g) : (Action.read F).Steady T := by
  intro g h hgh
  show (Run.done g (F g)).Alike T (.done h (F h))
  rw [hF g h hgh]
  exact .done hgh _

theorem modify {F : Heap → Heap} (hF : ∀ g h, g.Alike T h → (F g).Alike T (F h)) :
    (Action.modify F).Steady T := fun g h hgh => .done (hF g h hgh) _

theorem update {F : Heap → Heap × α}
    (hF : ∀ g h, g.Alike T h → (F g).1.Alike T (F h).1 ∧ (F h).2 = (F g).2) :
    (Action.update F).Steady T := by
  intro g h hgh
  obtain ⟨hheap, hresult⟩ := hF g h hgh
  show (Run.done (F g).1 (F g).2).Alike T (.done (F h).1 (F h).2)
  rw [hresult]
  exact .done hheap _

theorem ite {c : Prop} [Decidable c] {a b : Action α} (ha : c → a.Steady T)
    (hb : ¬c → b.Steady T) : (if c then a else b).Steady T := by
  split
  · exact ha ‹_›
  · exact hb ‹_›

theorem call (f : Value) (args : List Value) : (Action.call f args).Steady T :=
  fun _ _ hgh => .call hgh f args fun _ _ vs hgh _ => .done hgh vs

theorem call1 (f : Value) (args : List Value) : (Action.call1 f args).Steady T :=
  fun _ _ hgh => .call hgh f args fun _ _ _ hgh _ => .done hgh _

theorem reserve (size : Nat) : (Action.reserve size).Steady T := by
  intro g h hgh
  unfold Action.reserve
  rw [hgh.limit]
  split
  · split
    · exact .failed hgh _
    · exact .done hgh _
  · exact .done hgh _

theorem string (b : ByteArray) : (Action.string b).Steady T :=
  fun _ _ hgh => .done (hgh.countString _) _

/-- A new string by itself as the list of results. -/
theorem stringResult (b : ByteArray) : Action.Steady T (do return [← Action.string b]) :=
  (string b).bind fun v => pure [v]

theorem mapM {F : α → Action β} (as : List α) (hF : ∀ a ∈ as, (F a).Steady T) :
    (as.mapM F).Steady T := by
  induction as with
  | nil => exact pure []
  | cons a as ih =>
    rw [List.mapM_cons]
    refine (hF a List.mem_cons_self).bind fun b => ?_
    exact (ih fun c hc => hF c (List.mem_cons_of_mem _ hc)).bind fun bs => pure (b :: bs)

/-- Something is done for each item of a list. -/
theorem forIn {F : α → Action β} (as : List α) (hF : ∀ a ∈ as, (F a).Steady T) :
    (ForIn.forIn as PUnit.unit fun a _ => do
      let _ ← F a
      Pure.pure (ForInStep.yield PUnit.unit) : Action PUnit).Steady T := by
  induction as with
  | nil => exact pure _
  | cons a as ih =>
    rw [List.forIn_cons, bind_assoc]
    refine (hF a List.mem_cons_self).bind fun _ => ?_
    rw [pure_bind]
    exact ih fun b hb => hF b (List.mem_cons_of_mem _ hb)

end Action.Steady

/-! ### The machine -/

/-- The failure that an error makes says the same in both heaps. -/
theorem resolve_alike {g h : Heap} (hgh : g.Alike T h) (stack : List Task) (o : Origin)
    (e : Raised) :
    (resolve g stack o e).1.Alike T (resolve h stack o e).1 ∧
      (resolve h stack o e).2 = (resolve g stack o e).2 := by
  cases e with
  | value v => exact ⟨hgh, rfl⟩
  | memory => exact ⟨hgh, rfl⟩
  | host f =>
    obtain ⟨hheap, href⟩ := hgh.newFault f
    exact ⟨hheap, congrArg (fun r => Failure.thrown (.fault r)) href⟩
  | _ => exact ⟨hgh.countString _, rfl⟩

namespace State

/-- An error of an action is raised as the same failure. -/
theorem mode_fail (s : State) {g h : Heap} (hgh : g.Alike T h) (o : Origin) (e : Raised) :
    ({ s with heap := h }.fail o e).mode = ({ s with heap := g }.fail o e).mode :=
  congrArg Mode.raise (resolve_alike hgh s.stack o e).2

theorem mode_unwinding (s : State) (e : Failure) : (s.unwinding e).mode =
    if closesOnError s.stack then .unwind e else .ended (.failed e) := by
  unfold unwinding
  split <;> rfl

/-- A call is made in the same way, as long as the tasks that wait for it are both protected calls,
or both are none. -/
theorem mode_nest (s : State) {g h : Heap} (hgh : g.Alike T h) (t t' : Task)
    (ht : closesOnError (t' :: s.stack) = closesOnError (t :: s.stack)) (o : Origin) (f : Value)
    (args : List Value) :
    ({ s with heap := h }.nest t' o f args).mode = ({ s with heap := g }.nest t o f args).mode := by
  unfold nest
  dsimp only
  split
  · exact congrArg Mode.raise (resolve_alike hgh s.stack o _).2
  · split
    · rw [mode_unwinding, mode_unwinding, ht]
    · rfl

/-- The machine goes on in the same way after courses that are alike. -/
theorem mode_follow (s : State) (o : Origin) {r r' : Run (List Value)} (hr : r.Alike T r') :
    (s.follow o r').mode = (s.follow o r).mode := by
  cases hr with
  | done hgh vs => rfl
  | failed hgh e => exact mode_fail s hgh o e
  | @call g h hgh f args next next' _ =>
    cases o with
    | library b => exact mode_nest s hgh (.library b next) (.library b next') rfl _ f args
    | operation => exact mode_nest s hgh (.operation next) (.operation next') rfl _ f args

end State

end StoryPack.Script
