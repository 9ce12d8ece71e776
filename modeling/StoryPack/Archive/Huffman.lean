/-
Bits and prefix codes.

Bits are numbered from the least significant bit of the first byte on.  A prefix
code is given by the lengths of its code words: shorter words come first, and
words of one length are in the order of their symbols.

* `Bits.read?` — a number of some bits;
* `PrefixCode.ofLengths` — the code of a list of lengths;
* `PrefixCode.decode` — the symbol whose word comes next.
-/

namespace StoryPack

namespace Bits

/-- The bit at a position, if there is one. -/
@[inline] def bit? (b : ByteArray) (i : Nat) : Option Nat :=
  if h : i / 8 < b.size then some ((b[i / 8].toNat >>> (i % 8)) % 2) else none

/-- The number that `n` bits make up, the least significant one first. -/
def read? (b : ByteArray) (i : Nat) : (n : Nat) → Option Nat
  | 0 => some 0
  | n + 1 =>
    match bit? b i, read? b (i + 1) n with
    | some low, some rest => some (low + 2 * rest)
    | _, _ => none

end Bits

/-- A prefix code. -/
structure PrefixCode where
  /-- How many words there are of each length. -/
  counts : Array Nat
  /-- The symbols in the order of their words. -/
  symbols : Array Nat
deriving Inhabited

namespace PrefixCode

/-- The greatest length of a word. -/
def maxLength : Nat := 15

/-- The code of the lengths of the words of all symbols; a symbol of length `0` has no word. -/
def ofLengths (lengths : Array Nat) : PrefixCode where
  counts := lengths.foldl (fun cs n => cs.modify n (· + 1)) (Array.replicate (maxLength + 1) 0)
  symbols :=
    (List.range maxLength).foldl (fun acc n =>
      (List.range lengths.size).foldl (fun acc s =>
        if lengths.getD s 0 == n + 1 then acc.push s else acc) acc) #[]

/-- How many words of the greatest length the code leaves unused; negative when the lengths ask for
too many words. -/
def slack (c : PrefixCode) : Int :=
  (List.range maxLength).foldl (fun left n => 2 * left - (c.counts.getD (n + 1) 0 : Int)) 1

/-- Whether no symbol has a word, or a single one has the word of one bit. -/
def isTrivial (c : PrefixCode) : Bool :=
  c.symbols.isEmpty || (c.symbols.size == 1 && c.counts.getD 1 0 == 1)

/-- Whether the lengths make a code that may be used for literals or distances: it is full, or it is
trivial. -/
def isUsable (c : PrefixCode) : Bool := c.slack == 0 || (0 < c.slack && c.isTrivial)

/-- What comes of looking for a word. -/
inductive Decoded where
  | symbol (s next : Nat)
  | truncated
  | invalid
deriving Inhabited

/-- Looks for a word, bit by bit: `code` is what has been read, `first` the first word of the length
at hand, and `index` the place of its symbol. -/
def decodeFrom (c : PrefixCode) (b : ByteArray) : (fuel length : Nat) → (i code first index : Nat) →
    Decoded
  | 0, _, _, _, _, _ => .invalid
  | fuel + 1, length, i, code, first, index =>
    match Bits.bit? b i with
    | none => .truncated
    | some x =>
      let code := code + x
      let count := c.counts.getD length 0
      if code < first + count then .symbol (c.symbols.getD (index + (code - first)) 0) (i + 1)
      else
        decodeFrom c b fuel (length + 1) (i + 1) (2 * code) (2 * (first + count)) (index + count)

/-- The symbol whose word begins at a position, and the position after it. -/
def decode (c : PrefixCode) (b : ByteArray) (i : Nat) : Decoded :=
  decodeFrom c b maxLength 1 i 0 0 0

end PrefixCode

end StoryPack
