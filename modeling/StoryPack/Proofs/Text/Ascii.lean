/-
Text in bytes.

Every string is read back from its bytes.  An ASCII string has one byte for each
character, so that its bytes can be looked at one by one, and it reads the same
with and without Unicode.

* `Utf8.text?_toUTF8`, `Utf8.text_toUTF8`, `Utf8.lossy_toUTF8` — strings are read back;
* `Utf8.toUTF8_ascii` — the bytes of an ASCII string.
-/
import StoryPack.Text.Utf8
import StoryPack.Proofs.Bytes

namespace StoryPack.Utf8

theorem text?_toUTF8 (s : String) : text? s.toUTF8 = some s := by
  unfold text? String.fromUTF8?
  rw [dif_pos (show s.toUTF8.IsValidUTF8 from s.isValidUTF8)]
  rfl

theorem text_toUTF8 (s : String) : text s.toUTF8 = .ok s := by
  have htext : String.fromUTF8? s.toUTF8 = some s := text?_toUTF8 s
  rw [text, htext]

theorem lossy_toUTF8 (s : String) : lossy s.toUTF8 = s := by
  have htext : String.fromUTF8? s.toUTF8 = some s := text?_toUTF8 s
  rw [lossy, htext]

/-- The string has ASCII characters only. -/
def Ascii (cs : List Char) : Prop := ∀ c ∈ cs, c.val ≤ 127

/-- An ASCII string has one byte for each character. -/
theorem toUTF8_ascii {cs : List Char} (h : Ascii cs) :
    (String.ofList cs).toUTF8 = (cs.map fun c => c.val.toUInt8).toByteArray := by
  rw [String.toUTF8_eq_toByteArray, String.toByteArray_ofList]
  induction cs with
  | nil => rfl
  | cons c rest ih =>
    obtain ⟨hc, hrest⟩ := List.forall_mem_cons.mp h
    have hfirst := String.utf8EncodeChar_eq_singleton (Char.utf8Size_eq_one_iff.mpr hc)
    rw [List.utf8Encode_cons, List.utf8Encode_singleton, hfirst, ih hrest, List.map_cons,
      ← List.toByteArray_append]
    rfl

theorem size_toUTF8_ascii {cs : List Char} (h : Ascii cs) :
    (String.ofList cs).toUTF8.size = cs.length := by
  rw [toUTF8_ascii h, List.size_toByteArray, List.length_map]

theorem byte_toUTF8_ascii {cs : List Char} (h : Ascii cs) {i : Nat} (hi : i < cs.length) :
    Bytes.byte (String.ofList cs).toUTF8 i = cs[i].val.toUInt8 := by
  have hsize : i < (cs.map fun c => c.val.toUInt8).toByteArray.size := by
    rwa [List.size_toByteArray, List.length_map]
  rw [toUTF8_ascii h, Bytes.byte_of_lt hsize, List.getElem_toByteArray, List.getElem_map]

end StoryPack.Utf8
