/-
Actions that keep what is fixed.

An action obeys a ward when it keeps it at every point of its course, whatever
the calls that it asks for give it, as long as they keep the ward as well.  It
calls, throws and returns only what scripts may hold.  Actions that obey can be
put together.

* `Run.Obeys` — a course keeps the ward and ends with a result of some kind;
* `Action.Obeys` — an action takes such a course from every heap that is kept;
* `Action.Obeys.bind`, `Action.Obeys.call`, … — how such actions are built.
-/
import StoryPack.Proofs.Confinement.Metatable
import StoryPack.Script.Action

namespace StoryPack.Script

variable {W : Ward} {n m : Nat} {α β : Type}

theorem Run.andThen_done (r : Run α) : (r.andThen fun a h => .done h a) = r := by
  induction r with
  | call h f args next ih => simp only [Run.andThen, ih]
  | _ => rfl

theorem Run.andThen_assoc {γ : Type} (r : Run α) (k : α → Heap → Run β) (l : β → Heap → Run γ) :
    (r.andThen k).andThen l = r.andThen fun a h => (k a h).andThen l := by
  induction r with
  | call h f args next ih => simp only [Run.andThen, ih]
  | _ => rfl

theorem Action.bind_apply (a : Action α) (k : α → Action β) (h : Heap) :
    (a >>= k) h = (a h).andThen fun x h => k x h := by
  show Action.bind a k h = _
  unfold Action.bind
  cases a h <;> rfl

instance : LawfulMonad Action := .mk' Action
  (fun a => funext fun h => (Action.bind_apply a _ h).trans (a h).andThen_done)
  (fun x f => funext fun h => Action.bind_apply (pure x) f h)
  (fun a f g => funext fun h => by simp only [Action.bind_apply, Run.andThen_assoc])

/-- A heap that comes of another one: tables are only added, and the ward is kept. -/
structure Heap.Leads (W : Ward) (g h : Heap) : Prop where
  size : g.tables.size ≤ h.tables.size
  tripped : h.tripped = g.tripped
  limit : h.limit = g.limit
  pace : h.pace = g.pace
  vanished : h.vanished = g.vanished
  kept : h.Kept W

namespace Heap.Leads

variable {f g h : Heap}

theorem refl (hk : h.Kept W) : h.Leads W h := ⟨Nat.le_refl _, rfl, rfl, rfl, rfl, hk⟩

theorem trans (hfg : f.Leads W g) (hgh : g.Leads W h) : f.Leads W h where
  size := Nat.le_trans hfg.size hgh.size
  tripped := hgh.tripped.trans hfg.tripped
  limit := hgh.limit.trans hfg.limit
  pace := hgh.pace.trans hfg.pace
  vanished := hgh.vanished.trans hfg.vanished
  kept := hgh.kept

end Heap.Leads

/-- The errors that scripts may be told. -/
def Raised.Ok (W : Ward) (n : Nat) : Raised → Prop
  | .value v => v.Ok W n
  | _ => True

theorem Raised.Ok.mono {e : Raised} (h : e.Ok W n) (hle : n ≤ m) : e.Ok W m := by
  cases e with
  | value v => exact Value.Ok.mono h hle
  | _ => trivial

/-- A course that keeps a ward and ends, if it does not fail, with a result of some kind. Calls may
give it anything that scripts may hold. -/
def Run.Obeys (W : Ward) (Q : Nat → α → Prop) : Heap → Run α → Prop
  | g, .done h a => g.Leads W h ∧ Q h.tables.size a
  | g, .failed h e => g.Leads W h ∧ e.Ok W h.tables.size
  | g, .call h f args next =>
    g.Leads W h ∧ f.Callable W h.tables.size ∧ Oks W h.tables.size args ∧
      ∀ h' vs, h.tables.size ≤ h'.tables.size → h'.Kept W → Oks W h'.tables.size vs →
        Run.Obeys W Q h' (next h' vs)

/-- An action that takes such a course from every heap that is kept and has at least `n` tables. -/
def Action.Obeys (W : Ward) (n : Nat) (a : Action α) (Q : Nat → α → Prop) : Prop :=
  ∀ h : Heap, n ≤ h.tables.size → h.Kept W → (a h).Obeys W Q h

namespace Run

variable {Q : Nat → α → Prop} {R : Nat → β → Prop} {g h : Heap}

theorem Obeys.of_leads {r : Run α} (hgh : g.Leads W h) (hr : r.Obeys W Q h) : r.Obeys W Q g := by
  cases r with
  | done h' a => exact ⟨hgh.trans hr.1, hr.2⟩
  | failed h' e => exact ⟨hgh.trans hr.1, hr.2⟩
  | call h' f args next => exact ⟨hgh.trans hr.1, hr.2⟩

theorem Obeys.andThen {r : Run α} {k : α → Heap → Run β} (hr : r.Obeys W Q g)
    (hn : n ≤ g.tables.size)
    (hk : ∀ h a, n ≤ h.tables.size → h.Kept W → Q h.tables.size a → (k a h).Obeys W R h) :
    (r.andThen k).Obeys W R g := by
  induction r generalizing g with
  | done h a =>
    obtain ⟨hgh, ha⟩ := hr
    exact .of_leads hgh (hk h a (Nat.le_trans hn hgh.size) hgh.kept ha)
  | failed h e => exact hr
  | call h f args next ih =>
    obtain ⟨hgh, hf, hargs, hnext⟩ := hr
    refine ⟨hgh, hf, hargs, fun h' vs hsize hkept hvs => ?_⟩
    exact ih h' vs (hnext h' vs hsize hkept hvs) (Nat.le_trans hn (Nat.le_trans hgh.size hsize))

end Run

namespace Action

variable {Q : Nat → α → Prop} {R : Nat → β → Prop}

namespace Obeys

theorem mono {a : Action α} (ha : a.Obeys W n Q) (hle : n ≤ m) : a.Obeys W m Q :=
  fun h hm hk => ha h (Nat.le_trans hle hm) hk

/-- One action after another. -/
theorem bind {a : Action α} {k : α → Action β} (ha : a.Obeys W n Q)
    (hk : ∀ m x, n ≤ m → Q m x → (k x).Obeys W m R) : (a >>= k).Obeys W n R := by
  intro h hn hkept
  rw [bind_apply]
  exact (ha h hn hkept).andThen hn fun h x hn hkept hx => hk _ x hn hx h (Nat.le_refl _) hkept

theorem pure {x : α} (hx : ∀ k, n ≤ k → Q k x) : (Pure.pure x : Action α).Obeys W n Q :=
  fun _ hn hk => ⟨.refl hk, hx _ hn⟩

theorem fail {e : Raised} (he : e.Ok W n) : (Action.fail e : Action α).Obeys W n Q :=
  fun _ hn hk => ⟨.refl hk, he.mono hn⟩

theorem raise (message : String) : (Action.raise message : Action α).Obeys W n Q := .fail trivial

theorem badArgument (i : Nat) (message : String) :
    (Action.badArgument i message : Action α).Obeys W n Q := .fail trivial

theorem read {f : Heap → α}
    (hf : ∀ h : Heap, n ≤ h.tables.size → h.Kept W → Q h.tables.size (f h)) :
    (Action.read f).Obeys W n Q :=
  fun h hn hk => ⟨.refl hk, hf h hn hk⟩

/-- A change that does not concern tables, cells and closures. -/
theorem modify {f : Heap → Heap} {Q : Nat → PUnit → Prop}
    (hf : ∀ h : Heap, n ≤ h.tables.size → h.Kept W → h.Leads W (f h) ∧ Q (f h).tables.size ⟨⟩) :
    (Action.modify f).Obeys W n Q :=
  fun h hn hk => hf h hn hk

theorem update {f : Heap → Heap × α}
    (hf : ∀ h : Heap, n ≤ h.tables.size → h.Kept W →
      h.Leads W (f h).1 ∧ Q (f h).1.tables.size (f h).2) :
    (Action.update f).Obeys W n Q :=
  fun h hn hk => hf h hn hk

theorem ite {c : Prop} [Decidable c] {a b : Action α} (ha : c → a.Obeys W n Q)
    (hb : ¬c → b.Obeys W n Q) : (if c then a else b).Obeys W n Q := by
  split
  · exact ha ‹_›
  · exact hb ‹_›

/-- A call of what may be called. -/
theorem call {f : Value} {args : List Value} (hf : f.Callable W n) (hargs : Oks W n args) :
    (Action.call f args).Obeys W n fun k vs => Oks W k vs :=
  fun _ hn hk => ⟨.refl hk, hf.mono hn, hargs.mono hn, fun _ _ _ hk' hvs => ⟨.refl hk', hvs⟩⟩

theorem call1 {f : Value} {args : List Value} (hf : f.Callable W n) (hargs : Oks W n args) :
    (Action.call1 f args).Obeys W n fun k v => v.Ok W k :=
  fun _ hn hk =>
    ⟨.refl hk, hf.mono hn, hargs.mono hn, fun _ _ _ hk' hvs => ⟨.refl hk', hvs.headD⟩⟩

theorem reserve (size : Nat) {Q : Nat → PUnit → Prop} (hQ : ∀ k, n ≤ k → Q k ⟨⟩) :
    (Action.reserve size).Obeys W n Q := by
  intro h hn hk
  unfold Action.reserve
  split
  · split
    · exact ⟨.refl hk, trivial⟩
    · exact ⟨.refl hk, hQ _ hn⟩
  · exact ⟨.refl hk, hQ _ hn⟩

theorem string (b : ByteArray) : (Action.string b).Obeys W n fun k v => v.Ok W k :=
  fun _ _ hk => ⟨⟨Nat.le_refl _, rfl, rfl, rfl, rfl, hk.congr rfl rfl rfl rfl⟩, trivial⟩

theorem newTable {t : Table} (ht : t.Free W n) :
    (Action.newTable t).Obeys W n fun k r => (Value.table r).Ok W k := by
  intro h hn hk
  have hsize : h.tables.size ≤ (h.newTable t).1.tables.size := by simp [Heap.newTable]
  exact ⟨⟨hsize, rfl, rfl, rfl, rfl, hk.newTable (ht.mono hn)⟩, hk.newTable_ok t⟩

/-- The results of an action for each item of a list. -/
theorem mapM {f : α → Action β} {as : List α}
    (hf : ∀ a ∈ as, (f a).Obeys W n R) (hR : ∀ j k b, j ≤ k → R j b → R k b) :
    (as.mapM f).Obeys W n fun k bs => ∀ b ∈ bs, R k b := by
  induction as generalizing n with
  | nil => exact .pure fun k _ b hb => by cases hb
  | cons a as ih =>
    rw [List.mapM_cons]
    refine .bind (hf a List.mem_cons_self) fun m b hm hb => ?_
    refine .bind (ih fun c hc => (hf c (List.mem_cons_of_mem _ hc)).mono hm) fun k bs hk hbs => ?_
    refine .pure fun j hj c hc => ?_
    rcases List.mem_cons.mp hc with rfl | hc
    · exact hR m j c (Nat.le_trans hk hj) hb
    · exact hR k j c hj (hbs c hc)

theorem foldlM {f : β → α → Action β} {as : List α} {b : β} (hb : ∀ k, n ≤ k → R k b)
    (hf : ∀ k b, n ≤ k → R k b → ∀ a ∈ as, (f b a).Obeys W k R)
    (hR : ∀ j k b, j ≤ k → R j b → R k b) : (as.foldlM f b).Obeys W n R := by
  induction as generalizing n b with
  | nil => exact .pure hb
  | cons a as ih =>
    rw [List.foldlM_cons]
    refine .bind (hf n b (Nat.le_refl _) (hb n (Nat.le_refl _)) a List.mem_cons_self)
      fun m c hm hc => ?_
    exact ih (fun k hk => hR m k c hk hc) fun k b hk hb a ha =>
      hf k b (Nat.le_trans hm hk) hb a (List.mem_cons_of_mem _ ha)

end Obeys

end Action

end StoryPack.Script
