/-
Deflated data inside of longer data.

Decompression reads bits in their order and never looks past the end of the last
block.  So deflated data that stand in a longer string are decompressed there as
they are alone; and what can be decompressed of a beginning of the data is the
beginning of what the data hold.

* `PrefixCode.decode_window` — the next symbol;
* `Inflate.BlockResult.Window` — what a block leaves in both places;
* `Inflate.inflate_window` — all blocks.
-/
import StoryPack.Archive.Inflate
import StoryPack.Proofs.Bytes

namespace StoryPack

open Bytes (At Begins)

/-! ### Bits -/

namespace Bits

variable {b q : ByteArray} {k i n : Nat}

theorem bit?_of_lt (h : i / 8 < b.size) :
    bit? b i = some (((Bytes.byte b (i / 8)).toNat >>> (i % 8)) % 2) := by
  rw [bit?, dif_pos h, Bytes.byte_of_lt h]

theorem bit?_of_le (h : 8 * b.size ≤ i) : bit? b i = none := dif_neg (by omega)

/-- The bits of a part are bits of the whole. -/
theorem bit?_window (h : At b k q) {x : Nat} (hx : bit? q i = some x) :
    bit? b (8 * k + i) = some x := by
  have hi : i / 8 < q.size := Nat.lt_of_not_le fun hle => by
    rw [bit?_of_le (by omega)] at hx
    cases hx
  have hfits := h.fits
  have hplace : (8 * k + i) / 8 = k + i / 8 := by omega
  have hbit : (8 * k + i) % 8 = i % 8 := by omega
  rw [bit?_of_lt (by omega), hplace, hbit, h.byte hi, ← bit?_of_lt hi, hx]

theorem read?_window (h : At b k q) {v : Nat} (hv : read? q i n = some v) :
    read? b (8 * k + i) n = some v := by
  induction n generalizing i v with
  | zero => exact hv
  | succ n ih =>
    cases hx : bit? q i with
    | none =>
      rw [read?, hx] at hv
      cases hv
    | some x =>
      cases hrest : read? q (i + 1) n with
      | none =>
        rw [read?, hx, hrest] at hv
        cases hv
      | some rest =>
        rw [read?, hx, hrest] at hv
        have := ih hrest
        rw [← Nat.add_assoc] at this
        rw [read?, bit?_window h hx, this]
        exact hv

/-- Nothing can be read past the end. -/
theorem read?_of_le (h : 8 * b.size ≤ i) : read? b i (n + 1) = none := by
  rw [read?, bit?_of_le h]

end Bits

/-! ### Symbols -/

namespace PrefixCode

variable {b q : ByteArray} {k i : Nat}

/-- A symbol that is found in a part is found in the whole. -/
theorem decodeFrom_symbol (h : At b k q) {c : PrefixCode} {fuel length code first index s j : Nat}
    (hs : c.decodeFrom q fuel length i code first index = .symbol s j) :
    c.decodeFrom b fuel length (8 * k + i) code first index = .symbol s (8 * k + j) ∧ i < j := by
  induction fuel generalizing length i code first index with
  | zero => cases hs
  | succ fuel ih =>
    rw [decodeFrom] at hs ⊢
    cases hx : Bits.bit? q i with
    | none =>
      rw [hx] at hs
      cases hs
    | some x =>
      simp only [hx] at hs
      simp only [Bits.bit?_window h hx]
      split at hs
      · next hfound =>
        rw [if_pos hfound]
        cases hs
        exact ⟨rfl, Nat.lt_succ_self i⟩
      · next hfound =>
        rw [if_neg hfound]
        obtain ⟨hrest, hlt⟩ := ih hs
        exact ⟨by rwa [← Nat.add_assoc] at hrest, by omega⟩

/-- What is no symbol in a part is none in the whole. -/
theorem decodeFrom_invalid (h : At b k q) {c : PrefixCode} {fuel length code first index : Nat}
    (hs : c.decodeFrom q fuel length i code first index = .invalid) :
    c.decodeFrom b fuel length (8 * k + i) code first index = .invalid := by
  induction fuel generalizing length i code first index with
  | zero => rfl
  | succ fuel ih =>
    rw [decodeFrom] at hs ⊢
    cases hx : Bits.bit? q i with
    | none =>
      rw [hx] at hs
      cases hs
    | some x =>
      simp only [hx] at hs
      simp only [Bits.bit?_window h hx]
      split at hs
      · cases hs
      · next hfound =>
        rw [if_neg hfound]
        have hrest := ih hs
        rwa [← Nat.add_assoc] at hrest

/-- What looking for a symbol comes to in a part of some data, and in the data. -/
inductive Decoded.Window (k i : Nat) : Decoded → Decoded → Prop
  | symbol {s j : Nat} (hlt : i < j) : Window k i (.symbol s j) (.symbol s (8 * k + j))
  | invalid : Window k i .invalid .invalid
  | truncated {d : Decoded} : Window k i .truncated d

theorem decode_window (h : At b k q) (c : PrefixCode) (i : Nat) :
    Decoded.Window k i (c.decode q i) (c.decode b (8 * k + i)) := by
  cases hd : c.decode q i with
  | truncated => exact .truncated
  | invalid =>
    rw [show c.decode b (8 * k + i) = .invalid from decodeFrom_invalid h hd]
    exact .invalid
  | symbol s j =>
    obtain ⟨hs, hlt⟩ := decodeFrom_symbol h hd
    rw [show c.decode b (8 * k + i) = .symbol s (8 * k + j) from hs]
    exact .symbol hlt

theorem decode_of_le {c : PrefixCode} (h : 8 * b.size ≤ i) : c.decode b i = .truncated := by
  rw [decode, maxLength, decodeFrom, Bits.bit?_of_le h]

end PrefixCode

/-! ### Blocks -/

namespace Inflate

variable {b q : ByteArray} {k i : Nat}

/-- The bytes that a block leaves. -/
def BlockResult.out : BlockResult → ByteArray
  | .next _ out => out
  | .fault _ out => out

theorem copyBack_begins (out : ByteArray) (distance count : Nat) :
    Begins out (copyBack out distance count) := by
  induction count generalizing out with
  | zero => exact .refl out
  | succ n ih => exact (Begins.push out _).trans (ih _)

/-! What is decompressed is never taken back. -/

theorem copy_begins (distances : PrefixCode) (b : ByteArray) (symbol i : Nat) (out : ByteArray) :
    Begins out (copy distances b symbol i out).out := by
  simp only [copy]
  repeat' split
  all_goals first
    | exact .refl out
    | exact copyBack_begins out _ _

theorem symbols_begins (literals distances : PrefixCode) (b : ByteArray) (fuel i : Nat)
    (out : ByteArray) : Begins out (symbols literals distances b fuel i out).out := by
  induction fuel generalizing i out with
  | zero => exact .refl out
  | succ fuel ih =>
    rw [symbols]
    split
    · exact .refl out
    · exact .refl out
    · next s j _ =>
      split
      · exact (Begins.push out _).trans (ih _ _)
      split
      · exact .refl out
      have hcopy := copy_begins distances b s j out
      split <;> rename_i hr <;> rw [hr] at hcopy
      · exact hcopy.trans (ih _ _)
      · exact hcopy

theorem stored_begins (b : ByteArray) (i : Nat) (out : ByteArray) :
    Begins out (stored b i out).out := by
  simp only [stored]
  repeat' split
  all_goals first
    | exact .refl out
    | exact .append out _

theorem described_begins (b : ByteArray) (i : Nat) (out : ByteArray) :
    Begins out (described b i out).out := by
  simp only [described]
  repeat' split
  all_goals first
    | exact .refl out
    | exact symbols_begins ..

/-- What a block leaves that is read from a part of some data, and what it leaves when it is read
from the data: the part may be too short, but what it gives is right. -/
inductive BlockResult.Window (k i : Nat) : BlockResult → BlockResult → Prop
  | next {j : Nat} {out : ByteArray} (hle : i ≤ j) :
    Window k i (.next j out) (.next (8 * k + j) out)
  | corrupt {out : ByteArray} : Window k i (.fault .corrupt out) (.fault .corrupt out)
  | truncated {out : ByteArray} {r : BlockResult} (h : Begins out r.out) :
    Window k i (.fault .truncated out) r

theorem BlockResult.Window.mono {r r' : BlockResult} {j : Nat} (hij : i ≤ j)
    (h : Window k j r r') : Window k i r r' := by
  cases h with
  | next hle => exact .next (Nat.le_trans hij hle)
  | corrupt => exact .corrupt
  | truncated h => exact .truncated h

theorem copy_window (h : At b k q) (distances : PrefixCode) (symbol i : Nat) (out : ByteArray) :
    BlockResult.Window k i (copy distances q symbol i out)
      (copy distances b symbol (8 * k + i) out) := by
  have hbegins := copy_begins distances b symbol (8 * k + i) out
  simp only [copy] at hbegins ⊢
  cases hbase : lengthBase? symbol with
  | none => exact .corrupt
  | some p =>
    obtain ⟨base, extra⟩ := p
    simp only [hbase] at hbegins ⊢
    cases hmore : Bits.read? q i extra with
    | none => exact .truncated hbegins
    | some more =>
      simp only [Bits.read?_window h hmore] at hbegins ⊢
      have hdecode := PrefixCode.decode_window h distances (i + extra)
      rw [← Nat.add_assoc] at hdecode
      generalize distances.decode q (i + extra) = d at hdecode
      generalize distances.decode b (8 * k + i + extra) = d' at hdecode hbegins
      cases hdecode with
      | truncated => exact .truncated hbegins
      | invalid => exact .corrupt
      | symbol hlt =>
        rename_i s j
        simp only at hbegins ⊢
        cases hnear : distanceBases[s]? with
        | none => exact .corrupt
        | some p =>
          obtain ⟨near, extra'⟩ := p
          simp only [hnear] at hbegins ⊢
          cases hfar : Bits.read? q j extra' with
          | none => exact .truncated hbegins
          | some far =>
            simp only [Bits.read?_window h hfar]
            split
            · exact .corrupt
            · rw [Nat.add_assoc]
              exact .next (by omega)

/-- The symbols of a block, when there is fuel for all bits. -/
theorem symbols_window (h : At b k q) (literals distances : PrefixCode) {fuel fuel' i : Nat}
    (hfuel : 8 * q.size < fuel + i) (hfuel' : 8 * b.size < fuel' + (8 * k + i)) (out : ByteArray) :
    BlockResult.Window k i (symbols literals distances q fuel i out)
      (symbols literals distances b fuel' (8 * k + i) out) := by
  have hfits := h.fits
  -- on the fuel of the part: the whole has fuel of its own, since its runs may be longer
  induction fuel generalizing fuel' i out with
  | zero => exact .truncated (symbols_begins ..)
  | succ fuel ih =>
    cases fuel' with
    | zero =>
      rw [symbols, symbols, PrefixCode.decode_of_le (by omega)]
      exact .truncated (.refl out)
    | succ fuel' =>
      have hbegins := symbols_begins literals distances b (fuel' + 1) (8 * k + i) out
      rw [symbols] at hbegins ⊢
      rw [symbols]
      have hdecode := PrefixCode.decode_window h literals i
      generalize literals.decode q i = d at hdecode
      generalize literals.decode b (8 * k + i) = d' at hdecode hbegins
      cases hdecode with
      | truncated => exact .truncated hbegins
      | invalid => exact .corrupt
      | symbol hlt =>
        rename_i s j
        simp only at hbegins ⊢
        split
        · exact (ih (by omega) (by omega) _).mono (by omega)
        · rename_i hliteral
          split
          · exact .next (by omega)
          · rename_i hend
            rw [if_neg hliteral, if_neg hend] at hbegins
            have hcopy := copy_window h distances s j out
            generalize copy distances q s j out = r at hcopy
            generalize copy distances b s (8 * k + j) out = r' at hcopy hbegins
            cases hcopy with
            | next hle => exact (ih (by omega) (by omega) _).mono (by omega)
            | corrupt => exact .corrupt
            | truncated hout =>
              -- the part ends in the middle of a copy, and the whole writes on from there
              refine .truncated (hout.trans ?_)
              cases r' with
              | fault e out' => exact .refl out'
              | next j' out' => exact symbols_begins ..

theorem stored_window (h : At b k q) (i : Nat) (out : ByteArray) :
    BlockResult.Window k i (stored q i out) (stored b (8 * k + i) out) := by
  have hfits := h.fits
  have hbegins := stored_begins b (8 * k + i) out
  have hstart : (8 * k + i + 7) / 8 = k + (i + 7) / 8 := by omega
  have hle : i ≤ 8 * ((i + 7) / 8) := by omega
  simp only [stored, hstart] at hbegins ⊢
  generalize (i + 7) / 8 = start at hbegins hle ⊢
  simp only [Nat.add_assoc] at hbegins ⊢
  by_cases hshort : q.size < start + 4
  · rw [if_pos hshort]
    exact .truncated hbegins
  · rw [if_neg hshort]
    rw [if_neg (by omega : ¬ b.size < k + (start + 4)), h.word (by omega : start + 2 ≤ q.size),
      h.word (by omega : start + 2 + 2 ≤ q.size)] at hbegins ⊢
    generalize Bytes.word q start 2 = n at hbegins ⊢
    split
    · exact .corrupt
    · rename_i hcheck
      rw [if_neg hcheck] at hbegins
      have hbytes := h.begins_extract (start + 4) n
      rw [Nat.add_assoc] at hbytes
      split
      · refine .truncated (hbytes.of_append.trans ?_)
        split <;> exact .refl _
      · rename_i hwhole
        rw [ByteArray.size_extract] at hwhole
        rw [h.extract (by omega), if_neg (by rw [ByteArray.size_extract]; omega), Nat.mul_add 8 k]
        exact .next (by omega)

/-! ### Blocks that describe their codes -/

theorem codeLengths_window (h : At b k q) {i j : Nat} {order : List Nat} {count : Nat}
    {acc lengths : Array Nat} (hs : codeLengths q i order count acc = some (lengths, j)) :
    codeLengths b (8 * k + i) order count acc = some (lengths, 8 * k + j) ∧ i ≤ j := by
  fun_induction codeLengths q i order count acc with
  | case1 i acc s order n x hx ih =>
    obtain ⟨hrest, hle⟩ := ih hs
    rw [codeLengths, Bits.read?_window h hx]
    exact ⟨hrest, by omega⟩
  | case2 => cases hs
  | case3 i order n acc hdone =>
    cases hs
    rw [codeLengths.eq_2 _ _ _ _ _ hdone]
    exact ⟨rfl, Nat.le_refl _⟩

/-- What reading the lengths of words comes to in a part of some data, and in the data. -/
inductive Lengths.Window (k i : Nat) : Lengths → Lengths → Prop
  | done {lengths : Array Nat} {j : Nat} (hle : i ≤ j) :
    Window k i (.done lengths j) (.done lengths (8 * k + j))
  | corrupt : Window k i (.fault .corrupt) (.fault .corrupt)
  | truncated {l : Lengths} : Window k i (.fault .truncated) l

theorem Lengths.Window.mono {l l' : Lengths} {j : Nat} (hij : i ≤ j) (h : Window k j l l') :
    Window k i l l' := by
  cases h with
  | done hle => exact .done (Nat.le_trans hij hle)
  | corrupt => exact .corrupt
  | truncated => exact .truncated

/-- A length that is repeated. -/
theorem repeated_window (h : At b k q) {next next' : Nat → Array Nat → Lengths} {i : Nat}
    (total bits base : Nat) (value : Option Nat) (acc : Array Nat)
    (hnext : ∀ j acc, i ≤ j → Lengths.Window k i (next j acc) (next' (8 * k + j) acc)) :
    Lengths.Window k i (repeated q total i bits base value acc next)
      (repeated b total (8 * k + i) bits base value acc next') := by
  unfold repeated
  cases value with
  | none => exact .corrupt
  | some v =>
    cases hn : Bits.read? q i bits with
    | none => exact .truncated
    | some n =>
      simp only [Bits.read?_window h hn]
      split
      · exact .corrupt
      · rw [Nat.add_assoc]
        exact hnext _ _ (Nat.le_add_right _ _)

theorem wordLengths_window (h : At b k q) (c : PrefixCode) (total fuel i : Nat) (acc : Array Nat) :
    Lengths.Window k i (wordLengths c q total fuel i acc)
      (wordLengths c b total fuel (8 * k + i) acc) := by
  induction fuel generalizing i acc with
  | zero => exact .truncated
  | succ fuel ih =>
    simp only [wordLengths]
    split
    · exact .done (Nat.le_refl _)
    · have hdecode := PrefixCode.decode_window h c i
      generalize c.decode q i = d at hdecode
      generalize c.decode b (8 * k + i) = d' at hdecode
      cases hdecode with
      | truncated => exact .truncated
      | invalid => exact .corrupt
      | @symbol _ j hlt =>
        have hij := Nat.le_of_lt hlt
        -- a word for a repetition is followed by a number of bits, and then the loop goes on
        have hnext (j' : Nat) (acc : Array Nat) (hj : j ≤ j') := (ih j' acc).mono hj
        have hagain (bits base : Nat) (value : Option Nat) :=
          (repeated_window h total bits base value acc hnext).mono hij
        simp only
        split
        · exact (ih _ _).mono hij
        split
        · exact hagain _ _ _
        split
        · exact hagain _ _ _
        · exact hagain _ _ _

theorem described_window (h : At b k q) (i : Nat) (out : ByteArray) :
    BlockResult.Window k i (described q i out) (described b (8 * k + i) out) := by
  have hfits := h.fits
  have hbegins := described_begins b (8 * k + i) out
  simp only [described] at hbegins ⊢
  cases hliterals : Bits.read? q i 5 with
  | none => exact .truncated hbegins
  | some literalCount =>
    cases hdistances : Bits.read? q (i + 5) 5 with
    | none => exact .truncated hbegins
    | some distanceCount =>
      cases hlengths : Bits.read? q (i + 10) 4 with
      | none => exact .truncated hbegins
      | some lengthCount =>
        have hlengths' := Bits.read?_window h hlengths
        have hdistances' := Bits.read?_window h hdistances
        rw [← Nat.add_assoc] at hlengths' hdistances'
        simp only [Bits.read?_window h hliterals, hdistances', hlengths'] at hbegins ⊢
        split
        · exact .corrupt
        rename_i hcounts
        rw [if_neg hcounts] at hbegins
        generalize hacc : Array.replicate 19 0 = acc at hbegins ⊢
        cases hcodes : codeLengths q (i + 14) lengthOrder (lengthCount + 4) acc with
        | none => exact .truncated hbegins
        | some p =>
          obtain ⟨lengths, j⟩ := p
          obtain ⟨hcodes', hle⟩ := codeLengths_window h hcodes
          rw [← Nat.add_assoc] at hcodes'
          simp only [hcodes'] at hbegins ⊢
          split
          · exact .corrupt
          rename_i hslack
          rw [if_neg hslack] at hbegins
          generalize PrefixCode.ofLengths lengths = c at hbegins ⊢
          generalize literalCount + 257 + (distanceCount + 1) = total at hbegins ⊢
          have hwords := wordLengths_window h c total (total + 1) j #[]
          generalize wordLengths c q total (total + 1) j #[] = l at hwords
          generalize wordLengths c b total (total + 1) (8 * k + j) #[] = l' at hwords hbegins
          cases hwords with
          | corrupt => exact .corrupt
          | truncated => exact .truncated hbegins
          | done hle' =>
            simp only
            split
            · exact .corrupt
            · exact (symbols_window h _ _ (by omega) (by omega) out).mono (by omega)

/-! ### All blocks -/

/-- The ending of data that stand some bytes further on. -/
def Ending.shift (k : Nat) : Ending → Ending
  | .finished i => .finished (k + i)
  | .truncated => .truncated
  | .corrupt => .corrupt

/-- One block. -/
def block (b : ByteArray) (type i : Nat) (out : ByteArray) : BlockResult :=
  match type with
  | 0 => stored b i out
  | 1 => symbols fixedLiterals fixedDistances b (8 * b.size + 1) i out
  | 2 => described b i out
  | _ => .fault .corrupt out

theorem block_begins (b : ByteArray) (type i : Nat) (out : ByteArray) :
    Begins out (block b type i out).out := by
  unfold block
  split
  · exact stored_begins ..
  · exact symbols_begins ..
  · exact described_begins ..
  · exact .refl out

theorem block_window (h : At b k q) (type i : Nat) (out : ByteArray) :
    BlockResult.Window k i (block q type i out) (block b type (8 * k + i) out) := by
  have hfits := h.fits
  unfold block
  split
  · exact stored_window h i out
  · exact symbols_window h _ _ (by omega) (by omega) out
  · exact described_window h i out
  · exact .corrupt

theorem blocks_succ (b : ByteArray) (fuel i : Nat) (out : ByteArray) :
    blocks b (fuel + 1) i out =
      match Bits.read? b i 1, Bits.read? b (i + 1) 2 with
      | some last, some type =>
        match block b type (i + 3) out with
        | .fault e out => (out, e)
        | .next i out =>
          if last == 1 then (out, .finished ((i + 7) / 8)) else blocks b fuel i out
      | _, _ => (out, .truncated) := by
  rw [blocks]
  rfl

theorem blocks_begins (b : ByteArray) (fuel i : Nat) (out : ByteArray) :
    Begins out (blocks b fuel i out).1 := by
  induction fuel generalizing i out with
  | zero => exact .refl out
  | succ fuel ih =>
    rw [blocks_succ]
    split
    · rename_i last type _ _
      have hblock := block_begins b type (i + 3) out
      split <;> rename_i hr <;> rw [hr] at hblock
      · exact hblock
      · split
        · exact hblock
        · exact hblock.trans (ih _ _)
    · exact .refl out

/-- What is decompressed in a part of some data is decompressed in the data, unless the part is too
short; then it is a beginning of what the data hold. -/
theorem blocks_window (h : At b k q) {fuel fuel' i : Nat} (hfuel : 8 * q.size < fuel + i)
    (hfuel' : 8 * b.size < fuel' + (8 * k + i)) (out : ByteArray) :
    blocks b fuel' (8 * k + i) out =
        ((blocks q fuel i out).1, (blocks q fuel i out).2.shift k) ∨
      (blocks q fuel i out).2 = .truncated ∧
        Begins (blocks q fuel i out).1 (blocks b fuel' (8 * k + i) out).1 := by
  have hfits := h.fits
  induction fuel generalizing fuel' i out with
  | zero => exact .inr ⟨rfl, blocks_begins ..⟩
  | succ fuel ih =>
    have hbegins := blocks_begins b fuel' (8 * k + i) out
    cases fuel' with
    | zero =>
      rw [blocks_succ, Bits.read?_of_le (by omega)]
      exact .inr ⟨rfl, hbegins⟩
    | succ fuel' =>
      rw [blocks_succ] at hbegins ⊢
      rw [blocks_succ]
      cases hlast : Bits.read? q i 1 with
      | none => exact .inr ⟨rfl, hbegins⟩
      | some last =>
        cases htype : Bits.read? q (i + 1) 2 with
        | none => exact .inr ⟨rfl, hbegins⟩
        | some type =>
          have htype' := Bits.read?_window h htype
          have hblock := block_window h type (i + 3) out
          rw [← Nat.add_assoc] at htype' hblock
          simp only [Bits.read?_window h hlast, htype'] at hbegins ⊢
          generalize block q type (i + 3) out = r at hblock
          generalize block b type (8 * k + i + 3) out = r' at hblock hbegins
          cases hblock with
          | corrupt => exact .inl rfl
          | @next j _ hle =>
            have hend : (8 * k + j + 7) / 8 = k + (j + 7) / 8 := by omega
            simp only
            split
            · rw [hend]
              exact .inl rfl
            · exact ih (by omega) (by omega) _
          | truncated hout =>
            -- what the whole adds to the output of this block comes behind that of the part
            refine .inr ⟨rfl, hout.trans ?_⟩
            cases r' with
            | fault e out' => exact .refl out'
            | next j out' =>
              simp only
              split
              · exact .refl out'
              · exact blocks_begins ..

end Inflate

open Inflate in
/-- Deflated data that stand in a longer string are decompressed there as they are alone, unless
they are cut; then what they give is a beginning of what the string gives. -/
theorem inflate_window {b q : ByteArray} {k : Nat} (h : At b k q) (start : Nat) :
    inflate b (k + start) = ((inflate q start).1, (inflate q start).2.shift k) ∨
      (inflate q start).2 = .truncated ∧ Begins (inflate q start).1 (inflate b (k + start)).1 := by
  have hfits := h.fits
  rw [inflate, inflate, Nat.mul_add]
  exact blocks_window h (by omega) (by omega) _

end StoryPack
