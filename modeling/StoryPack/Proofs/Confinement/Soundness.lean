/-
Sound tables.

All tables of a session are sound: those that are there from the start, those that are
added for views, and those that scripts fill.  Of the last that is known, since scripts
hold nothing else; so only freezing has to be looked at once more.  Where all tables are
sound, no snapshot comes to a key twice, whatever table it is taken of, and wherever it
splits the table in two.

* `Heap.Sound` — a heap all of whose tables are sound, `Heap.Sound.freeze` — with a view;
* `Heap.Sound.snapshot_keyed` — the keys of a snapshot are different, at every level;
* `Session.Confined.sound_step`, `Session.Reaches.sound` — the heaps of a session.
-/
import StoryPack.Proofs.Confinement.Capability
import StoryPack.Proofs.Confinement.Showing

namespace StoryPack

open Script

namespace Script.Heap

/-- All tables are sound. -/
def Sound (h : Heap) : Prop := ∀ r, (h.table r).Sound

variable {h h' : Heap} {W : Ward}

theorem Closed.isSound (hh : h.Closed) : h.Sound := fun r => (hh.table r).sound

/-- The keys of a snapshot are different, at every level. -/
theorem Sound.snapshot_keyed (hh : h.Sound) {r : Nat} {t : Scope.Table}
    (ht : h.snapshot r = .ok t) : t.Keyed := by
  have hall : h.SoundBelow fun _ => True := ⟨fun r _ => hh _, fun _ _ _ => trivial⟩
  exact (hall.spells_of_snapshot trivial ht).1.keyed

/-- Only the tables matter. -/
theorem Sound.congr (hh : h.Sound) (htables : h'.tables = h.tables) : h'.Sound := by
  intro r
  rw [Heap.table, htables]
  exact hh r

/-- What is not fixed is sound anyway. -/
theorem Sound.of_kept (hh : h.Sound) (hk : h.Kept W) (hk' : h'.Kept W) : h'.Sound := by
  intro r
  cases hr : W.tables r with
  | none => exact (hk'.free_table hr).sound
  | some t =>
    rw [hk'.table_of_fixed hr, ← hk.table_of_fixed hr]
    exact hh r

/-! ### Freezing -/

namespace Sound

theorem newTable (hh : h.Sound) {t : Table} (ht : t.Sound) : (h.newTable t).1.Sound := by
  intro r
  rw [table_push (h := h) (t := t) _ rfl]
  split
  · exact ht
  · exact hh r

theorem setKey (hh : h.Sound) (r : Nat) (k : Key) (v : Value) : (h.setKey r k v).Sound := by
  intro r'
  have hr' := hh r'
  unfold Heap.table at hr' ⊢
  rw [tables_setKey, Array.getElem?_modify]
  split
  · cases ht : h.tables[r']? with
    | none => exact Table.sound_empty 0 none
    | some t =>
      rw [ht] at hr'
      exact (hr'.set k v).1
  · exact hr'

theorem collected (hh : h.Sound) (roots : List Value) (all : Bool) :
    (h.collected roots all).Sound :=
  collected_induction hh (fun _ _ _ _ hg => hg.congr rfl) fun _ r k _ _ hg => hg.setKey r k _

theorem newView (hh : h.Sound) (b : Nat) : (h.newView b).1.Sound := by
  have hmetatable : (viewMetatable b (.bool false)).Sound :=
    List.foldlRecOn _ _ (Table.sound_empty 0 none) fun t ht e _ => (ht.set _ _).1
  intro r
  rw [table_newView]
  split
  · exact Table.sound_empty 0 _
  · split
    · exact hmetatable
    · exact hh r

end Sound

mutual

theorem freezeValue_sound (v : Scope.Value) {h : Heap} (hh : h.Sound) :
    (freezeValue v h).1.Sound := by
  cases v with
  | table entries =>
    exact (freezeEntries_sound entries (hh.newTable (Table.sound_empty 0 none)) _).newView _
  | _ => exact hh

theorem freezeEntries_sound (entries : List (Scope.Key × Scope.Value)) {h : Heap} (hh : h.Sound)
    (b : Nat) : (freezeEntries entries b h).Sound := by
  cases entries with
  | nil => exact hh
  | cons e rest =>
    obtain ⟨k, v⟩ := e
    exact freezeEntries_sound rest ((freezeValue_sound v hh).setKey b _ _) b

end

theorem Sound.freeze (hh : h.Sound) (t : Scope.Table) : (h.freeze t).1.Sound :=
  freezeValue_sound (.table t.entries) hh

end Script.Heap

/-! ### Sessions -/

namespace Session

variable {W : Ward} {s s' : Session}

/-- What the owner of a host does keeps all tables sound. -/
theorem Confined.sound_step (hs : s.Confined W) (hsound : s.host.heap.Sound) (h : s.Step s') :
    s'.host.heap.Sound := by
  obtain hs' | ⟨t, roots, -, rfl⟩ := hs.step_cases h
  · exact hsound.of_kept hs.host.kept hs'.host.kept
  · -- the collector may run once the view has been added
    have hadded : (s.host.withHeap (s.host.heap.freeze t).1).heap.Sound := hsound.freeze t
    have hfreeze : s.host.freeze t roots = (s.host.withHeap (s.host.heap.freeze t).1).afford
      (.table (s.host.heap.freeze t).2 :: roots) (s.host.heap.freeze t).2 := rfl
    dsimp only
    rw [hfreeze]
    generalize s.host.withHeap (s.host.heap.freeze t).1 = host at hadded ⊢
    obtain heq | ⟨-, r, -, heq⟩ := host.afford_cases
      (.table (s.host.heap.freeze t).2 :: roots) (s.host.heap.freeze t).2
    · rw [heq]
      exact hadded
    · rw [heq]
      exact hadded.collected _ _

/-- All tables of a session are sound, also while a script is at work. -/
theorem Reaches.sound {limit : Option Nat} {host : Host} (hhost : Host.new limit = .ok host)
    (hs : (start host).Reaches s) :
    s.host.heap.Sound ∧ ∀ σ : State, s.Runs σ → σ.heap.Sound := by
  have hfresh := Host.fresh_of_new hhost
  have hstart : (start host).host.heap.Sound := hfresh.closed.isSound
  have hbetween : s.host.heap.Sound := by
    induction hs with
    | refl => exact hstart
    | step h hstep ih =>
      obtain ⟨W, -, hconfined⟩ := (start_confined hfresh).reaches h
      exact hconfined.sound_step ih hstep
  obtain ⟨W, -, hconfined⟩ := (start_confined hfresh).reaches hs
  exact ⟨hbetween, fun σ hσ => hbetween.of_kept hconfined.host.kept (hconfined.runs hσ).heap⟩

end Session

end StoryPack
