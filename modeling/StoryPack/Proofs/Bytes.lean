/-
Byte strings inside of others.

A reader of a format looks at some bytes of a longer string.  What it finds there
does not depend on what stands before them and after them: all readers of bytes,
words and marks agree on a string and on any string that holds it.

* `Bytes.At` — a string stands in another one at a position;
* `Bytes.Begins` — a string is the beginning of another one;
* `Bytes.little` — a number in little-endian bytes, and `At.word`, which reads it back;
* `Bytes.fields` — numbers one after another, and `At.field`, which reads one of them;
* `Bytes.foldl_eq` — folds go through the list of the bytes.
-/
import Mathlib.Algebra.Group.Nat.Defs
import StoryPack.Bytes

namespace StoryPack.Bytes

/-- A string begins with another one. -/
def Begins (a b : ByteArray) : Prop := ∃ r, b = a ++ r

/-- The string `f` stands in `b` at position `i`. -/
structure At (b : ByteArray) (i : Nat) (f : ByteArray) : Prop where
  fits : i + f.size ≤ b.size
  byte_eq : ∀ k < f.size, byte b (i + k) = byte f k

/-- A number in `n` bytes, the least significant one first. -/
def little : (n value : Nat) → ByteArray
  | 0, _ => ByteArray.empty
  | n + 1, value => single (UInt8.ofNat value) ++ little n (value / 256)

/-! ### Single bytes -/

theorem byte_of_lt {b : ByteArray} {i : Nat} (h : i < b.size) : byte b i = b[i] := dif_pos h

theorem byte_of_le {b : ByteArray} {i : Nat} (h : b.size ≤ i) : byte b i = 0 :=
  dif_neg (Nat.not_lt.mpr h)

theorem ext_byte {a b : ByteArray} (hsize : a.size = b.size)
    (h : ∀ i < a.size, byte a i = byte b i) : a = b := by
  refine ByteArray.ext_getElem hsize fun i hi hi' => ?_
  have := h i hi
  rwa [byte_of_lt hi, byte_of_lt hi'] at this

theorem byte_append_left {a b : ByteArray} {i : Nat} (h : i < a.size) :
    byte (a ++ b) i = byte a i := by
  have hab : i < (a ++ b).size := by rw [ByteArray.size_append]; omega
  rw [byte_of_lt hab, byte_of_lt h, ByteArray.getElem_append_left h]

theorem byte_append_right (a b : ByteArray) (i : Nat) : byte (a ++ b) (a.size + i) = byte b i := by
  by_cases hi : i < b.size
  · have hab : a.size + i < (a ++ b).size := by rw [ByteArray.size_append]; omega
    rw [byte_of_lt hab, byte_of_lt hi, ByteArray.getElem_append_right (Nat.le_add_right _ _)]
    simp only [Nat.add_sub_cancel_left]
  · have hab : (a ++ b).size ≤ a.size + i := by rw [ByteArray.size_append]; omega
    rw [byte_of_le hab, byte_of_le (Nat.not_lt.mp hi)]

theorem byte_extract {b : ByteArray} {i j k : Nat} (h : i + k < j) :
    byte (b.extract i j) k = byte b (i + k) := by
  by_cases hk : i + k < b.size
  · have hsize : k < (b.extract i j).size := by rw [ByteArray.size_extract]; omega
    rw [byte_of_lt hsize, byte_of_lt hk, ByteArray.getElem_extract]
  · have hsize : (b.extract i j).size ≤ k := by rw [ByteArray.size_extract]; omega
    rw [byte_of_le hsize, byte_of_le (Nat.not_lt.mp hk)]

@[simp] theorem size_single (x : UInt8) : (single x).size = 1 := rfl

@[simp] theorem byte_single (x : UInt8) : byte (single x) 0 = x := rfl

@[simp] theorem size_replicate (n : Nat) (x : UInt8) : (replicate n x).size = n :=
  Array.size_replicate

theorem byte_replicate {n i : Nat} (x : UInt8) (h : i < n) : byte (replicate n x) i = x := by
  have hi : i < (replicate n x).size := by rwa [size_replicate]
  rw [byte_of_lt hi]
  exact Array.getElem_replicate ..

/-! ### Beginnings -/

namespace Begins

theorem refl (a : ByteArray) : Begins a a := ⟨ByteArray.empty, ByteArray.append_empty.symm⟩

theorem append (a r : ByteArray) : Begins a (a ++ r) := ⟨r, rfl⟩

theorem trans {a b c : ByteArray} (hab : Begins a b) (hbc : Begins b c) : Begins a c := by
  obtain ⟨r, rfl⟩ := hab
  obtain ⟨s, rfl⟩ := hbc
  exact ⟨r ++ s, ByteArray.append_assoc⟩

theorem push (a : ByteArray) (x : UInt8) : Begins a (a.push x) :=
  ⟨[x].toByteArray, ByteArray.append_toByteArray_singleton.symm⟩

theorem of_append {a b c : ByteArray} (h : Begins b c) : Begins (a ++ b) (a ++ c) := by
  obtain ⟨r, rfl⟩ := h
  exact ⟨r, ByteArray.append_assoc.symm⟩

theorem extract (b : ByteArray) (n : Nat) : Begins (b.extract 0 n) b := by
  refine ⟨b.extract n b.size, ?_⟩
  rw [ByteArray.extract_append_extract, Nat.zero_min, ByteArray.extract_zero_max_size]

theorem empty (b : ByteArray) : Begins ByteArray.empty b := ⟨b, ByteArray.empty_append.symm⟩

/-- Of two beginnings of a string the longer one begins with the shorter one. -/
theorem of_size_le {a b c : ByteArray} (ha : Begins a c) (hb : Begins b c) (h : a.size ≤ b.size) :
    Begins a b := by
  obtain ⟨r, rfl⟩ := ha
  obtain ⟨s, hs⟩ := hb
  refine ⟨b.extract a.size b.size, ?_⟩
  have hbegin : b.extract 0 a.size = a := by
    have hext : (a ++ r).extract 0 a.size = (b ++ s).extract 0 a.size := by rw [hs]
    rw [ByteArray.extract_append_eq_left rfl, ByteArray.extract_append,
      Nat.sub_eq_zero_of_le h, Nat.zero_sub, ByteArray.extract_same, ByteArray.append_empty] at hext
    exact hext.symm
  have hsplit := ByteArray.extract_append_extract (a := b) (i := 0) (j := a.size) (k := b.size)
  rw [hbegin, Nat.zero_min, Nat.max_eq_right h, ByteArray.extract_zero_size] at hsplit
  exact hsplit.symm

theorem size_le {a b : ByteArray} (h : Begins a b) : a.size ≤ b.size := by
  obtain ⟨r, rfl⟩ := h
  rw [ByteArray.size_append]
  exact Nat.le_add_right _ _

theorem antisymm {a b : ByteArray} (hab : Begins a b) (hba : Begins b a) : a = b := by
  have hsize := hba.size_le
  obtain ⟨r, rfl⟩ := hab
  rw [ByteArray.size_append] at hsize
  rw [ByteArray.size_eq_zero_iff.mp (by omega : r.size = 0), ByteArray.append_empty]

end Begins

/-! ### Strings that stand in others -/

namespace At

variable {b f g : ByteArray} {i k n : Nat}

theorem of_append (p q r : ByteArray) : At (p ++ q ++ r) p.size q where
  fits := by simp only [ByteArray.size_append]; omega
  byte_eq j hj := by
    rw [byte_append_left (by rw [ByteArray.size_append]; omega), byte_append_right]

theorem of_begins (h : Begins f b) : At b 0 f := by
  obtain ⟨r, rfl⟩ := h
  have := of_append ByteArray.empty f r
  rwa [ByteArray.empty_append] at this

theorem self (b : ByteArray) : At b 0 b := of_begins (.refl b)

/-- A part of what stands somewhere stands there too. -/
theorem trans (hf : At b i f) (hg : At f k g) : At b (i + k) g where
  fits := by
    have := hf.fits
    have := hg.fits
    omega
  byte_eq j hj := by
    have hfits := hg.fits
    rw [Nat.add_assoc, hf.byte_eq _ (by omega), hg.byte_eq _ hj]

theorem left (h : At b i (f ++ g)) : At b i f := by
  have := h.trans (k := 0) (of_begins (Begins.append f g))
  rwa [Nat.add_zero] at this

theorem right (h : At b i (f ++ g)) : At b (i + f.size) g := by
  have := of_append f g ByteArray.empty
  rw [ByteArray.append_empty] at this
  exact h.trans this

theorem byte (h : At b i f) (hk : k < f.size) : Bytes.byte b (i + k) = Bytes.byte f k :=
  h.byte_eq k hk

theorem extract (h : At b i f) (hn : n ≤ f.size) :
    b.extract (i + k) (i + n) = f.extract k n := by
  have hfits := h.fits
  have hsize : (b.extract (i + k) (i + n)).size = (f.extract k n).size := by
    rw [ByteArray.size_extract, ByteArray.size_extract]
    omega
  refine ext_byte hsize fun j hj => ?_
  rw [ByteArray.size_extract] at hj
  rw [byte_extract (by omega), byte_extract (by omega), Nat.add_assoc, h.byte_eq _ (by omega)]

theorem extract_self (h : At b i f) : b.extract i (i + f.size) = f := by
  have := h.extract (k := 0) (Nat.le_refl _)
  rwa [Nat.add_zero, ByteArray.extract_zero_size] at this

/-- What stands at the end of a part is the beginning of what stands there in the whole. -/
theorem begins_extract (h : At b i f) (k n : Nat) :
    Begins (f.extract k (k + n)) (b.extract (i + k) (i + (k + n))) := by
  have hfits := h.fits
  by_cases hn : k + n ≤ f.size
  · rw [h.extract hn]
    exact .refl _
  · have hcut : f.extract k (k + n) = b.extract (i + k) (i + f.size) := by
      rw [h.extract (Nat.le_refl _)]
      refine ext_byte (by rw [ByteArray.size_extract, ByteArray.size_extract]; omega) ?_
      intro j hj
      rw [ByteArray.size_extract] at hj
      rw [byte_extract (by omega), byte_extract (by omega)]
    have hbegins := Begins.extract (b.extract (i + k) (i + (k + n))) (f.size - k)
    rw [ByteArray.extract_extract] at hbegins
    rw [hcut]
    by_cases hk : k ≤ f.size
    · have hmin : min (i + k + (f.size - k)) (i + (k + n)) = i + f.size := by omega
      rwa [Nat.add_zero, hmin] at hbegins
    · have hempty : b.extract (i + k) (i + f.size) = ByteArray.empty :=
        ByteArray.extract_eq_empty_iff.mpr (by omega)
      rw [hempty]
      exact .empty _

theorem word (h : At b i f) (hn : k + n ≤ f.size) : Bytes.word b (i + k) n = Bytes.word f k n := by
  induction n generalizing k with
  | zero => rfl
  | succ n ih =>
    rw [Bytes.word, Bytes.word, h.byte (by omega), Nat.add_assoc, ih (by omega)]

theorem indexOf? (h : At b i f) {p : UInt8 → Bool} {j : Nat} (hj : Bytes.indexOf? f p k = some j) :
    Bytes.indexOf? b p (i + k) = some (i + j) := by
  have hfits := h.fits
  fun_induction Bytes.indexOf? f p k with
  | case1 k hk hp =>
    obtain rfl : k = j := Option.some.inj hj
    have hbyte := h.byte hk
    rw [byte_of_lt hk, byte_of_lt (by omega)] at hbyte
    rw [Bytes.indexOf?, dif_pos (by omega), hbyte, if_pos hp]
  | case2 k hk hp ih =>
    have hbyte := h.byte hk
    rw [byte_of_lt hk, byte_of_lt (by omega)] at hbyte
    rw [Bytes.indexOf?, dif_pos (by omega), hbyte, if_neg hp]
    exact ih hj
  | case3 => cases hj

end At

/-! ### Marks -/

theorem hasAt_go_iff (b needle : ByteArray) (i k : Nat) :
    hasAt.go b needle i k = true ↔
      ∀ j, k ≤ j → j < needle.size → byte b (i + j) = byte needle j := by
  fun_induction hasAt.go b needle i k with
  | case1 k hk ih =>
    rw [Bool.and_eq_true, ih, beq_iff_eq]
    constructor
    · rintro ⟨hfirst, hrest⟩ j hkj hj
      rcases Nat.eq_or_lt_of_le hkj with rfl | hlt
      · exact hfirst
      · exact hrest j hlt hj
    · intro h
      exact ⟨h k (Nat.le_refl k) hk, fun j hkj hj => h j (by omega) hj⟩
  | case2 k hk => exact ⟨fun _ j hkj hj => absurd hj (by omega), fun _ => rfl⟩

theorem hasAt_iff {b needle : ByteArray} {i : Nat} : hasAt b needle i = true ↔ At b i needle := by
  rw [hasAt, Bool.and_eq_true, decide_eq_true_iff, hasAt_go_iff]
  exact ⟨fun h => ⟨h.1, fun k hk => h.2 k (Nat.zero_le k) hk⟩,
    fun h => ⟨h.fits, fun k _ hk => h.byte_eq k hk⟩⟩

/-- A mark stands in a part of a string when it stands there in the string. -/
theorem At.hasAt {b f needle : ByteArray} {i k : Nat} (h : At b i f)
    (hk : k + needle.size ≤ f.size) :
    Bytes.hasAt b needle (i + k) = Bytes.hasAt f needle k := by
  rw [Bool.eq_iff_iff, hasAt_iff, hasAt_iff]
  refine ⟨fun hb => ⟨hk, fun j hj => ?_⟩, h.trans⟩
  rw [← h.byte (by omega), ← Nat.add_assoc]
  exact hb.byte_eq j hj

/-- What is found last before a position is a mark, and none is missed. -/
theorem hasAt_of_findLast? {b needle : ByteArray} {stop i : Nat}
    (h : findLast? b needle stop = some i) : hasAt b needle i = true := by
  induction stop with
  | zero => cases h
  | succ stop ih =>
    rw [findLast?] at h
    split at h
    · rename_i hat
      cases h
      exact hat
    · exact ih h

theorem exists_findLast? {b needle : ByteArray} {i stop : Nat}
    (h : hasAt b needle i = true) (hi : i < stop) :
    ∃ j, i ≤ j ∧ j < stop ∧ findLast? b needle stop = some j := by
  induction stop with
  | zero => exact absurd hi (Nat.not_lt_zero i)
  | succ stop ih =>
    rw [findLast?]
    split
    · exact ⟨stop, by omega, Nat.lt_succ_self stop, rfl⟩
    · rename_i hno
      have hne : i ≠ stop := fun heq => hno (heq ▸ h)
      obtain ⟨j, hij, hj, hfind⟩ := ih (by omega)
      exact ⟨j, hij, by omega, hfind⟩

/-! ### What a beginning tells -/

namespace Begins

variable {q b needle : ByteArray} {i k n : Nat}

theorem byte_eq (h : Begins q b) (hi : i < q.size) : byte b i = byte q i := by
  have := (At.of_begins h).byte hi
  rwa [Nat.zero_add] at this

theorem word_eq (h : Begins q b) (hn : i + n ≤ q.size) : word b i n = word q i n := by
  have := (At.of_begins h).word hn
  rwa [Nat.zero_add] at this

theorem extract_eq (h : Begins q b) (hn : n ≤ q.size) : b.extract k n = q.extract k n := by
  have := (At.of_begins h).extract (k := k) hn
  rwa [Nat.zero_add, Nat.zero_add] at this

theorem hasAt_eq (h : Begins q b) (hi : i + needle.size ≤ q.size) :
    hasAt b needle i = hasAt q needle i := by
  have := (At.of_begins h).hasAt hi
  rwa [Nat.zero_add] at this

end Begins

/-! ### Numbers -/

@[simp] theorem size_little (n value : Nat) : (little n value).size = n := by
  induction n generalizing value with
  | zero => rfl
  | succ n ih => rw [little, ByteArray.size_append, ih, size_single, Nat.add_comm]

theorem word_little {n value : Nat} (h : value < 256 ^ n) : word (little n value) 0 n = value := by
  induction n generalizing value with
  | zero => rw [word]; rw [Nat.pow_zero] at h; omega
  | succ n ih =>
    have hquot : value / 256 < 256 ^ n :=
      Nat.div_lt_of_lt_mul (by rwa [Nat.mul_comm, ← Nat.pow_succ])
    have hfirst : byte (little (n + 1) value) 0 = UInt8.ofNat value := by
      rw [little, byte_append_left (by simp), byte_single]
    have hrest : At (little (n + 1) value) 1 (little n (value / 256)) := by
      have := At.of_append (single (UInt8.ofNat value)) (little n (value / 256)) ByteArray.empty
      rwa [ByteArray.append_empty] at this
    have hword := hrest.word (k := 0) (n := n) (by simp)
    rw [word, hfirst, hword, ih hquot, UInt8.toNat_ofNat']
    omega

theorem At.little {b : ByteArray} {i n value : Nat} (h : At b i (Bytes.little n value))
    (hvalue : value < 256 ^ n) : Bytes.word b i n = value := by
  have := h.word (k := 0) (n := n) (by simp)
  rwa [Nat.add_zero, word_little hvalue] at this

/-- Numbers one after another, each in so many bytes. -/
def fields : List (Nat × Nat) → ByteArray
  | [] => ByteArray.empty
  | (n, value) :: rest => little n value ++ fields rest

/-- How many bytes numbers take. -/
def width : List (Nat × Nat) → Nat
  | [] => 0
  | f :: rest => f.1 + width rest

@[simp] theorem width_nil : width [] = 0 := rfl

@[simp] theorem width_cons (f : Nat × Nat) (rest : List (Nat × Nat)) :
    width (f :: rest) = f.1 + width rest := rfl

theorem size_fields (fs : List (Nat × Nat)) : (fields fs).size = width fs := by
  induction fs with
  | nil => rfl
  | cons f rest ih => rw [fields, ByteArray.size_append, size_little, ih, width_cons]

/-- A number among others is read behind those before it. -/
theorem At.field {b : ByteArray} {i k n value offset : Nat} {fs : List (Nat × Nat)}
    (h : At b i (fields fs)) (hk : fs[k]? = some (n, value)) (hoffset : width (fs.take k) = offset)
    (hvalue : value < 256 ^ n) : Bytes.word b (i + offset) n = value := by
  induction fs generalizing i k offset with
  | nil => cases hk
  | cons f rest ih =>
    subst hoffset
    cases k with
    | zero =>
      obtain rfl : f = (n, value) := Option.some.inj hk
      exact h.left.little hvalue
    | succ k =>
      have hrest := h.right
      rw [size_little] at hrest
      rw [List.take_succ_cons, width_cons, ← Nat.add_assoc]
      exact ih hrest hk rfl

/-! ### Folds and searches -/

theorem foldl_loop {β : Type} (f : β → UInt8 → β) (b : ByteArray) (h : b.size ≤ b.size) {n i : Nat}
    (hn : b.size - i ≤ n) (x : β) :
    Id.run (ByteArray.foldlM.loop (fun y z => pure (f y z)) b b.size h n i x) =
      (b.data.toList.drop i).foldl f x := by
  induction n generalizing i x with
  | zero =>
    have hend : b.data.toList.length ≤ i := Nat.le_of_sub_eq_zero (Nat.le_zero.mp hn)
    rw [ByteArray.foldlM.loop, List.drop_eq_nil_of_le hend]
    split <;> rfl
  | succ n ih =>
    rw [ByteArray.foldlM.loop]
    split
    · rename_i hi
      have hlist : i < b.data.toList.length := hi
      rw [List.drop_eq_getElem_cons hlist, List.foldl_cons]
      exact ih (by omega) _
    · rename_i hi
      have hend : b.data.toList.length ≤ i := Nat.le_of_not_lt hi
      rw [List.drop_eq_nil_of_le hend]
      rfl

/-- A fold goes through the list of the bytes. -/
theorem foldl_eq {β : Type} (f : β → UInt8 → β) (x : β) (b : ByteArray) :
    b.foldl f x 0 b.size = b.data.toList.foldl f x := by
  rw [ByteArray.foldl, ByteArray.foldlM]
  simp only [Nat.le_refl, dite_true]
  exact foldl_loop f b _ (Nat.le_refl _) x

/-- A test of all bytes. -/
theorem foldl_and_iff {p : UInt8 → Bool} {b : ByteArray} :
    b.foldl (fun all x => all && p x) true 0 b.size = true ↔ ∀ k < b.size, p (byte b k) = true := by
  have key (xs : List UInt8) (c : Bool) :
      xs.foldl (fun all x => all && p x) c = (c && xs.all p) := by
    induction xs generalizing c with
    | nil => rw [List.all_nil, Bool.and_true, List.foldl_nil]
    | cons x rest ih => rw [List.foldl_cons, ih, List.all_cons, Bool.and_assoc]
  rw [foldl_eq, key, Bool.true_and, List.all_eq_true]
  constructor
  · intro h k hk
    rw [byte_of_lt hk]
    exact h _ (List.getElem_mem (l := b.data.toList) hk)
  · intro h x hx
    obtain ⟨k, hk, rfl⟩ := List.mem_iff_getElem.mp hx
    have := h k hk
    rwa [byte_of_lt hk] at this

theorem indexOf?_eq_none {b : ByteArray} {p : UInt8 → Bool} {i : Nat}
    (h : ∀ k, i ≤ k → k < b.size → p (byte b k) = false) : indexOf? b p i = none := by
  fun_induction indexOf? b p i with
  | case1 i hi hp =>
    have hno := h i (Nat.le_refl i) hi
    rw [byte_of_lt hi, hp] at hno
    cases hno
  | case2 i hi hp ih => exact ih fun k hk hlt => h k (by omega) hlt
  | case3 => rfl

theorem indexOf?_eq_some {b : ByteArray} {p : UInt8 → Bool} {i j : Nat} (hij : i ≤ j)
    (hj : j < b.size) (hp : p (byte b j) = true) (h : ∀ k, i ≤ k → k < j → p (byte b k) = false) :
    indexOf? b p i = some j := by
  fun_induction indexOf? b p i with
  | case1 i hi hpi =>
    rcases Nat.eq_or_lt_of_le hij with rfl | hlt
    · rfl
    · have hno := h i (Nat.le_refl i) hlt
      rw [byte_of_lt hi, hpi] at hno
      cases hno
  | case2 i hi hpi ih =>
    rcases Nat.eq_or_lt_of_le hij with rfl | hlt
    · rw [byte_of_lt hi] at hp
      exact absurd hp hpi
    · exact ih hlt fun k hk hlt => h k (by omega) hlt
  | case3 i hi => exact absurd hj (by omega)

/-- What stands before zeros is all there is before the first zero. -/
theorem beforeNul_append_replicate {b : ByteArray} (h : ∀ k < b.size, byte b k ≠ 0) (n : Nat) :
    beforeNul (b ++ replicate n 0) = b := by
  have hno (k : Nat) (hk : k < b.size) : (byte (b ++ replicate n 0) k == 0) = false := by
    rw [byte_append_left hk]
    exact beq_false_of_ne (h k hk)
  cases n with
  | zero =>
    have hempty : b ++ replicate 0 0 = b := ByteArray.append_empty
    rw [hempty] at hno ⊢
    rw [beforeNul, indexOf?_eq_none fun k _ hk => hno k hk]
  | succ n =>
    have hzero : (byte (b ++ replicate (n + 1) 0) (b.size + 0) == 0) = true := by
      rw [byte_append_right, byte_replicate 0 (Nat.succ_pos n)]
      rfl
    have hsize : b.size < (b ++ replicate (n + 1) 0).size := by
      rw [ByteArray.size_append, size_replicate]
      omega
    have hindex := indexOf?_eq_some (p := (· == 0)) (Nat.zero_le b.size) hsize hzero
      fun k _ hk => hno k hk
    rw [beforeNul, hindex]
    exact ByteArray.extract_append_eq_left rfl

end StoryPack.Bytes
