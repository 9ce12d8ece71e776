/-
Lists of keys with values.

Looking up a key finds the value of its first entry.  Where all keys are different
there is no other one, and what is found under the keys tells the whole list, up to
its order.

* `Association.lookup_map` — what is found among changed values;
* `Association.lookup_eq_some_iff` — what is found among different keys;
* `Association.perm_of_lookup` — lists in which the same is found.
-/
import Mathlib.Data.List.Nodup

namespace StoryPack.Association

variable {α β γ : Type} [BEq α] {es es' : List (α × β)} {k : α} {v : β}

theorem lookup_map (f : β → γ) (es : List (α × β)) (k : α) :
    (es.map fun e => (e.1, f e.2)).lookup k = (es.lookup k).map f := by
  induction es with
  | nil => rfl
  | cons e rest ih =>
    obtain ⟨first, a⟩ := e
    simp only [List.map_cons, List.lookup_cons, ih]
    split <;> rfl

variable [LawfulBEq α]

theorem mem_of_lookup (h : es.lookup k = some v) : (k, v) ∈ es := by
  obtain ⟨before, after, rfl, -⟩ := List.lookup_eq_some_iff.mp h
  exact List.mem_append_right before List.mem_cons_self

theorem lookup_eq_none_of_not_mem (h : ∀ v, (k, v) ∉ es) : es.lookup k = none :=
  Option.eq_none_iff_forall_ne_some.mpr fun v hv => h v (mem_of_lookup hv)

theorem lookup_eq_some_of_mem (hes : (es.map (·.1)).Nodup) (h : (k, v) ∈ es) :
    es.lookup k = some v := by
  induction es with
  | nil => cases h
  | cons e rest ih =>
    obtain ⟨k₀, v₀⟩ := e
    rw [List.map_cons, List.nodup_cons] at hes
    rcases List.mem_cons.mp h with heq | hrest
    · cases heq
      simp
    · have hne : k ≠ k₀ := by
        rintro rfl
        exact hes.1 (List.mem_map.mpr ⟨(k, v), hrest, rfl⟩)
      rw [List.lookup_cons, beq_eq_false_iff_ne.mpr hne]
      exact ih hes.2 hrest

/-- Among different keys, what is found is what is there. -/
theorem lookup_eq_some_iff (hes : (es.map (·.1)).Nodup) : es.lookup k = some v ↔ (k, v) ∈ es :=
  ⟨mem_of_lookup, lookup_eq_some_of_mem hes⟩

/-- Among different keys, the order does not matter. -/
theorem lookup_of_perm (h : es.Perm es') (hes : (es.map (·.1)).Nodup) (k : α) :
    es.lookup k = es'.lookup k := by
  have hes' : (es'.map (·.1)).Nodup := ((h.map _).nodup_iff).mp hes
  refine Option.ext fun v => ?_
  rw [lookup_eq_some_iff hes, lookup_eq_some_iff hes', h.mem_iff]

/-- Lists of different keys, in which the same is found, differ in their order only. -/
theorem perm_of_lookup (hes : (es.map (·.1)).Nodup) (hes' : (es'.map (·.1)).Nodup)
    (h : ∀ k, es.lookup k = es'.lookup k) : es.Perm es' := by
  rw [List.perm_ext_iff_of_nodup (.of_map _ hes) (.of_map _ hes')]
  rintro ⟨k, v⟩
  rw [← lookup_eq_some_iff hes, ← lookup_eq_some_iff hes', h]

end StoryPack.Association
