/-
Actions whose references are renamed.

Two actions correspond when they take corresponding courses from corresponding
heaps: both end with the same result but for its references, both fail with the
same error, or both ask for the same call and go on in the same way after it.
Actions that correspond can be put together.

* `Run.Renamed`, `Action.Renamed` — courses and actions that correspond;
* `Action.Renamed.bind`, `Action.Renamed.call`, … — how such actions are built.
-/
import StoryPack.Proofs.Renaming.Heap
import StoryPack.Proofs.Confinement.Action

namespace StoryPack.Script

variable {σ : Renaming} {α β : Type}

/-- A course is another one with its references renamed, `f` renaming those of the result. What it
goes on with after a call is renamed like what the call gives it. -/
inductive Run.Renamed (σ : Renaming) (f : α → α) : Run α → Run α → Prop
  | done {h h' : Heap} (hh : h.Renamed σ h') (a : α) : Run.Renamed σ f (.done h a) (.done h' (f a))
  | failed {h h' : Heap} (hh : h.Renamed σ h') (e : Raised) :
    Run.Renamed σ f (.failed h e) (.failed h' (σ.raised e))
  | call {h h' : Heap} (hh : h.Renamed σ h') (g : Value) (args : List Value)
    {next next' : Heap → List Value → Run α}
    (hnext : ∀ h h' vs, h.Renamed σ h' → Run.Renamed σ f (next h vs) (next' h' (σ.values vs))) :
    Run.Renamed σ f (.call h g args next) (.call h' (σ.value g) (σ.values args) next')

/-- An action is another one with its references renamed, `f` renaming those of the result. -/
def Action.Renamed (σ : Renaming) (f : α → α) (a a' : Action α) : Prop :=
  ∀ h h', h.Renamed σ h' → (a h).Renamed σ f (a' h')

variable {f : α → α} {g : β → β}

theorem Run.Renamed.andThen {r r' : Run α} {k k' : α → Heap → Run β} (hr : r.Renamed σ f r')
    (hk : ∀ x h h', h.Renamed σ h' → (k x h).Renamed σ g (k' (f x) h')) :
    (r.andThen k).Renamed σ g (r'.andThen k') := by
  induction hr with
  | done hh a => exact hk a _ _ hh
  | failed hh e => exact .failed hh e
  | call hh v args _ ih => exact .call hh v args ih

namespace Action.Renamed

/-- One action after another. -/
theorem bind {a a' : Action α} {k k' : α → Action β} (ha : a.Renamed σ f a')
    (hk : ∀ x, (k x).Renamed σ g (k' (f x))) : (a >>= k).Renamed σ g (a' >>= k') := by
  intro h h' hh
  rw [bind_apply, bind_apply]
  exact (ha h h' hh).andThen hk

/-- One action after another that gives something without references. -/
theorem andThen {a a' : Action α} {k k' : α → Action β} (ha : a.Renamed σ id a')
    (hk : ∀ x, (k x).Renamed σ g (k' x)) : (a >>= k).Renamed σ g (a' >>= k') := ha.bind hk

theorem pure (x : α) : (Pure.pure x : Action α).Renamed σ f (Pure.pure (f x)) :=
  fun _ _ hh => .done hh x

theorem pure_of_eq {x y : α} (hxy : f x = y) :
    (Pure.pure x : Action α).Renamed σ f (Pure.pure y) := hxy ▸ .pure x

theorem fail (e : Raised) :
    (Action.fail e : Action α).Renamed σ f (Action.fail (σ.raised e)) :=
  fun _ _ hh => .failed hh e

theorem raise (message : String) :
    (Action.raise message : Action α).Renamed σ f (Action.raise message) := .fail _

theorem badArgument (n : Nat) (message : String) :
    (Action.badArgument n message : Action α).Renamed σ f (Action.badArgument n message) := .fail _

theorem read {F F' : Heap → α} (hF : ∀ h h', h.Renamed σ h' → F' h' = f (F h)) :
    (Action.read F).Renamed σ f (Action.read F') := by
  intro h h' hh
  show (Run.done h (F h)).Renamed σ f (.done h' (F' h'))
  rw [hF h h' hh]
  exact .done hh _

theorem modify {F F' : Heap → Heap} (hF : ∀ h h', h.Renamed σ h' → (F h).Renamed σ (F' h')) :
    (Action.modify F).Renamed σ id (Action.modify F') :=
  fun h h' hh => .done (hF h h' hh) _

theorem update {F F' : Heap → Heap × α}
    (hF : ∀ h h', h.Renamed σ h' → (F h).1.Renamed σ (F' h').1 ∧ (F' h').2 = f (F h).2) :
    (Action.update F).Renamed σ f (Action.update F') := by
  intro h h' hh
  obtain ⟨hheap, hresult⟩ := hF h h' hh
  show (Run.done (F h).1 (F h).2).Renamed σ f (.done (F' h').1 (F' h').2)
  rw [hresult]
  exact .done hheap _

theorem ite {c : Prop} [Decidable c] {a a' b b' : Action α} (ha : c → a.Renamed σ f a')
    (hb : ¬c → b.Renamed σ f b') :
    (if c then a else b).Renamed σ f (if c then a' else b') := by
  split
  · exact ha ‹_›
  · exact hb ‹_›

theorem call (v : Value) (args : List Value) :
    (Action.call v args).Renamed σ σ.values (Action.call (σ.value v) (σ.values args)) :=
  fun _ _ hh => .call hh v args fun _ _ vs hh => .done hh vs

theorem call1 (v : Value) (args : List Value) :
    (Action.call1 v args).Renamed σ σ.value (Action.call1 (σ.value v) (σ.values args)) :=
  fun _ _ hh => .call hh v args fun _ _ vs hh => by
    rw [σ.headD_values]
    exact .done hh _

/-- There is always room, since the heaps have no limit. -/
theorem reserve (size size' : Nat) :
    (Action.reserve size).Renamed σ id (Action.reserve size') := by
  intro h h' hh
  unfold Action.reserve
  rw [hh.limit, hh.limit']
  exact .done hh _

theorem string (b : ByteArray) : (Action.string b).Renamed σ σ.value (Action.string b) :=
  fun _ _ hh => .done (hh.countString _) _

/-- A new string by itself as the list of results. -/
theorem stringResult (b : ByteArray) :
    Action.Renamed σ σ.values (do return [← Action.string b]) (do return [← Action.string b]) :=
  .bind (.string b) fun v => .pure [v]

theorem newTable {t t' : Table} (ht : t.Renamed σ t') :
    (Action.newTable t).Renamed σ σ.table (Action.newTable t') :=
  .update fun _ _ hh => hh.newTable ht

/-- The results of an action for each item of a list. -/
theorem mapM {F F' : α → Action β} (as : List α) (hF : ∀ a ∈ as, (F a).Renamed σ g (F' a)) :
    (as.mapM F).Renamed σ (List.map g) (as.mapM F') := by
  induction as with
  | nil => exact .pure []
  | cons a as ih =>
    rw [List.mapM_cons, List.mapM_cons]
    refine .bind (hF a List.mem_cons_self) fun b => ?_
    exact .bind (ih fun c hc => hF c (List.mem_cons_of_mem _ hc)) fun bs => .pure (b :: bs)

theorem foldlM {F F' : β → α → Action β} (as : List α)
    (hF : ∀ b a, (F b a).Renamed σ g (F' (g b) (f a))) (b : β) :
    (as.foldlM F b).Renamed σ g ((as.map f).foldlM F' (g b)) := by
  induction as generalizing b with
  | nil => exact .pure b
  | cons a as ih =>
    rw [List.map_cons, List.foldlM_cons, List.foldlM_cons]
    exact .bind (hF b a) ih

end Action.Renamed

end StoryPack.Script
