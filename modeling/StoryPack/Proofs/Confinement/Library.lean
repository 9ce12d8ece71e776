/-
The library keeps what is fixed.

The readers of views look at backing tables, and give no more than what these
hold.  Together with the other libraries this covers every library function that
scripts can get hold of, and the function that refuses writes.

* `Library.runView_obeys` — the readers of views;
* `Builtin.run_obeys` — all library functions that are called for scripts.
-/
import StoryPack.Proofs.Confinement.Library.Maths
import StoryPack.Proofs.Confinement.Library.Strings
import StoryPack.Script.Library

namespace StoryPack.Script

variable {W : Ward} {n : Nat} {args : List Value}

/-- What a table holds that is read. -/
theorem Heap.Kept.holds_of_readable {h : Heap} (hk : h.Kept W) {r : Nat}
    (hr : (Value.table r).Readable W n) :
    (h.table r).Holds (Value.Ok W h.tables.size) := by
  rcases hr with hr | ⟨v, m, b, hb, hview⟩
  · rcases hk.table_cases hr.2 with ⟨-, hfree⟩ | ⟨m, b, -, htable⟩
    · exact hfree.holds
    · rw [htable]
      exact Table.holds_empty 0 (some m)
  · cases hb
    obtain ⟨-, -, t, ht, -, hholds⟩ := hk.table_view hview
    rw [ht]
    exact hholds

theorem Heap.Kept.sound_of_readable {h : Heap} (hk : h.Kept W) {r : Nat}
    (hr : (Value.table r).Readable W n) : (h.table r).Sound := by
  rcases hr with hr | ⟨v, m, b, hb, hview⟩
  · rcases hk.table_cases hr.2 with ⟨-, hfree⟩ | ⟨m, b, -, htable⟩
    · exact hfree.sound
    · rw [htable]
      exact Table.sound_empty 0 (some m)
  · cases hb
    obtain ⟨-, -, -, t, ht, -, -, hsound, -⟩ := hk.sound.view hview
    rw [hk.table_of_fixed ht]
    exact hsound

/-- Readers look at tables that scripts may hold, and at backing tables. -/
theorem Heap.Kept.readThrough_readable {h : Heap} (hk : h.Kept W) {r : Nat}
    (hr : (Value.table r).Ok W h.tables.size) :
    (Value.table (h.readThrough r)).Readable W h.tables.size := by
  unfold Heap.readThrough
  cases hb : h.backing? r with
  | none => exact .inl hr
  | some b =>
    unfold Heap.backing? at hb
    split at hb
    · cases hb
    · rename_i m hm
      split at hb
      · cases hb
      · cases hb
      · split at hb
        · rename_i b' hindex
          cases hb
          rw [← h.metafield_table hm] at hindex
          rcases hk.metafield_cases hr Event.index with hok | ⟨v, m', b', -, hview, ⟨-, he⟩ | he⟩
          · exact .inl (hindex ▸ hok)
          · exact .inr ⟨v, m', b', hindex.symm.trans he, hview⟩
          · exact absurd he.1 (by decide)
        · cases hb

namespace Library

theorem hostTable_obeys (hargs : Oks W n args) (i : Nat) :
    (hostTable args i).Obeys W n fun k r => (Value.table r).Ok W k := by
  have hget := Argument.get_ok hargs i
  unfold hostTable
  split
  · rename_i r hr
    exact .pure fun _ hle => (hr ▸ hget).mono hle
  · exact .fail trivial

/-- The readers of views, and the function that refuses writes. -/
theorem runView_obeys (f : ViewFunction) (hargs : Oks W n args) :
    (runView f args).Obeys W n (Oks W) := by
  cases f with
  | next =>
    refine .bind (hostTable_obeys hargs 1) fun m r _ hr => ?_
    refine .bind (.read (Q := fun k r => (Value.table r).Readable W k) fun h hn hk =>
      hk.readThrough_readable (hr.mono hn)) fun m' r' _ hr' => ?_
    intro h hn hk
    have hnext := nextEntry_obeys (fun _ _ hk => hk.holds_of_readable hr')
      (Argument.get args 2) h hn hk
    dsimp only
    split
    · rename_i heq
      rw [heq] at hnext
      exact ⟨hnext.1, trivial⟩
    · exact hnext
  | rawget =>
    refine .bind (hostTable_obeys hargs 1) fun m r _ hr => .read fun h hn hk => ?_
    have hholds := hk.holds_of_readable (hk.readThrough_readable (hr.mono hn))
    simpa using hholds.getValue (admits_ok W _) _
  | rawlen =>
    unfold runView
    dsimp only
    split
    · exact .read fun _ _ _ => by simp
    · exact .pure fun _ _ => by simp
    · exact .fail trivial
  | pairs =>
    refine .bind (hostTable_obeys hargs 1) fun m r _ hr => .pure fun k hk => ?_
    simpa [Value.builtin, Builtin.isOpen] using hr.mono hk
  | length =>
    exact .bind (hostTable_obeys hargs 1) fun m r _ _ => .read fun _ _ _ => by simp
  | deny => exact .fail trivial

end Library

/-- The library functions that are called for scripts, but for protected calls. -/
theorem Builtin.run_obeys {f : Builtin} (hf : f.isOpen = true ∨ f = .view .deny)
    (hargs : Oks W n args) : (f.run args).Obeys W n (Oks W) := by
  cases f with
  | base f =>
    have hopen : (Builtin.base f).isOpen = true := by
      rcases hf with hf | hf
      · exact hf
      · cases hf
    cases f
    case load | loadfile | dofile => cases hopen
    all_goals exact Library.runBase_obeys hopen hargs
  | string f => exact Library.runString_obeys f hargs
  | table f => exact Library.runTable_obeys f hargs
  | math f => exact Library.runMath_obeys f hargs
  | debug f =>
    rcases hf with hf | hf
    · cases hf
    · cases hf
  | view f => exact Library.runView_obeys f hargs
  | stringArith op => exact Library.stringArith_obeys op hargs
  | tripped => exact .read fun _ _ _ => by simp

end StoryPack.Script
