/-
Patterns.

A pattern describes byte strings by classes of bytes, repetitions, captures,
back references, balanced pairs and frontiers.  Matching backtracks; every step
moves on in the pattern, which bounds the recursion.

* `Pattern.matchAt` — a match at a position: its end and its captures;
* `Pattern.Capture` — a captured piece or position;
* `Pattern.Fault` — what can be wrong with a pattern.
-/
import StoryPack.Bytes

namespace StoryPack.Script.Pattern

open Bytes (byte)

/-- What is wrong with a pattern. -/
inductive Fault where
  | endsWithEscape
  | missingBracket
  | missingFrontierSet
  | missingBalance
  | invalidCapture
  | invalidIndex (n : Int)
  | unfinishedCapture
  | tooManyCaptures
  | tooComplex
deriving DecidableEq, Repr

/-- The wording of a fault. -/
def Fault.message : Fault → String
  | .endsWithEscape => "malformed pattern (ends with '%')"
  | .missingBracket => "malformed pattern (missing ']')"
  | .missingFrontierSet => "missing '[' after '%f' in pattern"
  | .missingBalance => "malformed pattern (missing arguments to '%b')"
  | .invalidCapture => "invalid pattern capture"
  | .invalidIndex n => "invalid capture index %" ++ toString n
  | .unfinishedCapture => "unfinished capture"
  | .tooManyCaptures => "too many captures"
  | .tooComplex => "pattern too complex"

/-- How far a capture reaches. -/
inductive Extent where
  | unfinished
  | position
  | length (n : Nat)
deriving DecidableEq, Repr

/-- A capture: where it begins, and how far it reaches. -/
structure Capture where
  start : Nat
  extent : Extent
deriving DecidableEq, Repr

/-- The most captures a pattern may have. -/
def captureLimit : Nat := 32

/-- How deeply matching may nest. -/
def depthLimit : Nat := 200

/-- A letter. -/
def isAlpha (c : UInt8) : Bool := (65 ≤ c && c ≤ 90) || (97 ≤ c && c ≤ 122)

/-- A decimal digit. -/
def isDigit (c : UInt8) : Bool := 48 ≤ c && c ≤ 57

/-- A letter or a digit. -/
def isAlnum (c : UInt8) : Bool := isAlpha c || isDigit c

/-- A control byte. -/
def isControl (c : UInt8) : Bool := c < 32 || c == 127

/-- A visible byte. -/
def isGraph (c : UInt8) : Bool := 33 ≤ c && c ≤ 126

/-- A lower-case letter. -/
def isLower (c : UInt8) : Bool := 97 ≤ c && c ≤ 122

/-- An upper-case letter. -/
def isUpper (c : UInt8) : Bool := 65 ≤ c && c ≤ 90

/-- A visible byte that is neither letter nor digit. -/
def isPunct (c : UInt8) : Bool := isGraph c && !isAlnum c

/-- A blank. -/
def isSpace (c : UInt8) : Bool := c == 32 || (9 ≤ c && c ≤ 13)

/-- A hexadecimal digit. -/
def isHexDigit (c : UInt8) : Bool := (Bytes.hexValue? c).isSome

/-- The lower-case form of a byte. -/
def toLower (c : UInt8) : UInt8 := if isUpper c then c + 32 else c

/-- The upper-case form of a byte. -/
def toUpper (c : UInt8) : UInt8 := if isLower c then c - 32 else c

/-- Whether a byte belongs to the class of a letter; an upper-case letter stands for the complement,
and any other byte for itself. -/
def inClass (c cl : UInt8) : Bool :=
  let member : Option Bool :=
    match (toLower cl).toNat with
    | 97 => some (isAlpha c)
    | 99 => some (isControl c)
    | 100 => some (isDigit c)
    | 103 => some (isGraph c)
    | 108 => some (isLower c)
    | 112 => some (isPunct c)
    | 115 => some (isSpace c)
    | 117 => some (isUpper c)
    | 119 => some (isAlnum c)
    | 120 => some (isHexDigit c)
    | 122 => some (c == 0)
    | _ => none
  match member with
  | some m => if isUpper cl then !m else m
  | none => cl == c

/-- The position after a set, from after its opening bracket (and circumflex) on. -/
def setEnd (p : ByteArray) : (fuel : Nat) → (i : Nat) → Except Fault Nat
  | 0, _ => .error .missingBracket
  | fuel + 1, i =>
    if i ≥ p.size then .error .missingBracket
    else
      let j := if byte p i == 37 && i + 1 < p.size then i + 2 else i + 1
      if byte p j == 93 && j < p.size then .ok (j + 1) else setEnd p fuel j

/-- The position after the single class at `i`. -/
def classEnd (p : ByteArray) (i : Nat) : Except Fault Nat :=
  if byte p i == 37 then
    if i + 1 ≥ p.size then .error .endsWithEscape else .ok (i + 2)
  else if byte p i == 91 then
    setEnd p (p.size + 1) (if byte p (i + 1) == 94 then i + 2 else i + 1)
  else .ok (i + 1)

/-- Whether a byte belongs to the members of a set from `i` up to its closing bracket at `stop`. -/
def inSet (p : ByteArray) (c : UInt8) (stop : Nat) : (fuel : Nat) → (i : Nat) → Bool
  | 0, _ => false
  | fuel + 1, i =>
    if i ≥ stop then false
    else if byte p i == 37 then
      if inClass c (byte p (i + 1)) then true else inSet p c stop fuel (i + 2)
    else if byte p (i + 1) == 45 && i + 2 < stop then
      if byte p i ≤ c && c ≤ byte p (i + 2) then true else inSet p c stop fuel (i + 3)
    else if byte p i == c then true
    else inSet p c stop fuel (i + 1)

/-- Whether a byte belongs to the set between the brackets at `i` and `stop`. -/
def inBrackets (p : ByteArray) (c : UInt8) (i stop : Nat) : Bool :=
  if byte p (i + 1) == 94 then !inSet p c stop (stop + 1) (i + 2)
  else inSet p c stop (stop + 1) (i + 1)

/-- Whether the byte at `s` belongs to the single class between `i` and `ep`. -/
def single (src p : ByteArray) (s i ep : Nat) : Bool :=
  if h : s < src.size then
    let c := src[s]
    let q := byte p i
    if q == 46 then true
    else if q == 37 then inClass c (byte p (i + 1))
    else if q == 91 then inBrackets p c i (ep - 1)
    else q == c
  else false

/-- The end of a balanced piece, from after its opening byte on, with `opened` pieces still open. -/
def balanceEnd (src : ByteArray) (b e : UInt8) (s : Nat) (opened : Nat) : Option Nat :=
  if h : s < src.size then
    if src[s] == e then
      if opened ≤ 1 then some (s + 1) else balanceEnd src b e (s + 1) (opened - 1)
    else if src[s] == b then balanceEnd src b e (s + 1) (opened + 1)
    else balanceEnd src b e (s + 1) opened
  else none
termination_by src.size - s

/-- How many bytes from `s` on belong to a single class. -/
def runLength (src p : ByteArray) (s i ep n : Nat) : Nat :=
  if h : s + n < src.size then
    if single src p (s + n) i ep then runLength src p s i ep (n + 1) else n
  else n
termination_by src.size - (s + n)
decreasing_by omega

/-- The result of an attempt: the end of a match and its captures, if there is a match. -/
abbrev Attempt := Except Fault (Option (Nat × Array Capture))

/-- Tries the longest repetition first. -/
def longest (s : Nat) (next : Nat → Attempt) : (n : Nat) → Attempt
  | 0 => next s
  | n + 1 =>
    match next (s + (n + 1)) with
    | .error f => .error f
    | .ok (some r) => .ok (some r)
    | .ok none => longest s next n

/-- Tries the shortest repetition first. -/
def shortest (src p : ByteArray) (i ep : Nat) (next : Nat → Attempt) (s : Nat) : Attempt :=
  match next s with
  | .error f => .error f
  | .ok (some r) => .ok (some r)
  | .ok none =>
    if s < src.size then
      if single src p s i ep then shortest src p i ep next (s + 1) else .ok none
    else .ok none
termination_by src.size - s

/-- The innermost capture that is unfinished. -/
def lastUnfinished (caps : Array Capture) : (n : Nat) → Option Nat
  | 0 => none
  | n + 1 =>
    match caps[n]? with
    | some c => if c.extent == .unfinished then some n else lastUnfinished caps n
    | none => lastUnfinished caps n

/-- The end of the piece at `s` that repeats a capture. -/
def backReference (src : ByteArray) (caps : Array Capture) (s : Nat) (c : UInt8) :
    Except Fault (Option Nat) :=
  let l : Int := (c.toNat : Int) - 49
  match (if l < 0 then none else caps[l.toNat]?) with
  | some ⟨start, .length n⟩ =>
    .ok (if s + n ≤ src.size && Bytes.hasAt src (Bytes.slice src start n) s then some (s + n)
      else none)
  | some ⟨_, .position⟩ => .ok none
  | _ => .error (.invalidIndex (l + 1))

/-- A match of the pattern from `i` on at position `s`. The fuel bounds the steps in the pattern. -/
def attempt (src p : ByteArray) : (fuel : Nat) → (depth : Nat) → (s i : Nat) → Array Capture →
    Attempt
  | 0, _, _, _, _ => .error .tooComplex
  | fuel + 1, depth, s, i, caps =>
    if i ≥ p.size then .ok (some (s, caps))
    else
      let deeper (s i : Nat) (caps : Array Capture) : Attempt :=
        if depth == 0 then .error .tooComplex else attempt src p fuel (depth - 1) s i caps
      let c := byte p i
      let d := byte p (i + 1)
      if c == 40 then
        if caps.size ≥ captureLimit then .error .tooManyCaptures
        else if d == 41 then deeper s (i + 2) (caps.push ⟨s, .position⟩)
        else deeper s (i + 1) (caps.push ⟨s, .unfinished⟩)
      else if c == 41 then
        match lastUnfinished caps caps.size with
        | none => .error .invalidCapture
        | some n =>
          deeper s (i + 1) (caps.modify n fun c => { c with extent := .length (s - c.start) })
      else if c == 36 && i + 1 == p.size then
        .ok (if s == src.size then some (s, caps) else none)
      else if c == 37 && d == 98 then
        if i + 3 ≥ p.size then .error .missingBalance
        else if s < src.size && byte src s == byte p (i + 2) then
          match balanceEnd src (byte p (i + 2)) (byte p (i + 3)) (s + 1) 1 with
          | some e => attempt src p fuel depth e (i + 4) caps
          | none => .ok none
        else .ok none
      else if c == 37 && d == 102 then
        if byte p (i + 2) != 91 then .error .missingFrontierSet
        else do
          let ep ← classEnd p (i + 2)
          let previous := if s == 0 then 0 else byte src (s - 1)
          if !inBrackets p previous (i + 2) (ep - 1) && inBrackets p (byte src s) (i + 2) (ep - 1)
          then attempt src p fuel depth s ep caps
          else .ok none
      else if c == 37 && isDigit d then do
        match ← backReference src caps s d with
        | some e => attempt src p fuel depth e (i + 2) caps
        | none => .ok none
      else do
        let ep ← classEnd p i
        let e := byte p ep
        if !single src p s i ep then
          if e == 42 || e == 63 || e == 45 then attempt src p fuel depth s (ep + 1) caps
          else .ok none
        else if e == 63 then
          match ← deeper (s + 1) (ep + 1) caps with
          | some r => .ok (some r)
          | none => attempt src p fuel depth s (ep + 1) caps
        else if e == 43 then
          longest (s + 1) (fun s => deeper s (ep + 1) caps) (runLength src p (s + 1) i ep 0)
        else if e == 42 then
          longest s (fun s => deeper s (ep + 1) caps) (runLength src p s i ep 0)
        else if e == 45 then
          shortest src p i ep (fun s => deeper s (ep + 1) caps) s
        else attempt src p fuel depth (s + 1) ep caps

/-- A match of the pattern from `i` on at position `s`. -/
def matchAt (src p : ByteArray) (s i : Nat) : Attempt :=
  attempt src p (p.size + 2) (depthLimit - 1) s i #[]

/-- A match at or after position `s`, or at `s` alone for an anchored pattern: its start, its end
and its captures. -/
def search (src p : ByteArray) (anchored : Bool) (s : Nat) :
    Except Fault (Option (Nat × Nat × Array Capture)) :=
  match matchAt src p s (if anchored then 1 else 0) with
  | .error f => .error f
  | .ok (some (e, caps)) => .ok (some (s, e, caps))
  | .ok none => if s < src.size && !anchored then search src p anchored (s + 1) else .ok none
termination_by src.size - s
decreasing_by simp_all; omega

/-- Whether a pattern has no special bytes. -/
def isPlain (p : ByteArray) : Bool :=
  (Bytes.indexOf? p (fun c => [94, 36, 42, 43, 63, 46, 40, 91, 37, 45].contains c) 0).isNone

/-- What a capture holds: a piece of the subject or a position. -/
inductive Held where
  | piece (b : ByteArray)
  | position (n : Nat)

/-- The content of capture `n` of a match from `s` to `e`; the whole match stands for the first one
when there are none. -/
def held (src : ByteArray) (s e : Nat) (caps : Array Capture) (n : Nat) : Except Fault Held :=
  match caps[n]? with
  | some ⟨_, .unfinished⟩ => .error .unfinishedCapture
  | some ⟨start, .position⟩ => .ok (.position (start + 1))
  | some ⟨start, .length l⟩ => .ok (.piece (Bytes.slice src start l))
  | none => if n == 0 then .ok (.piece (src.extract s e)) else .error (.invalidIndex (n + 1))

/-- All captures of a match, or the whole match when there are none. -/
def allHeld (src : ByteArray) (s e : Nat) (caps : Array Capture) (whole : Bool) :
    Except Fault (List Held) :=
  let count := if caps.isEmpty && whole then 1 else caps.size
  (List.range count).mapM (held src s e caps)

end StoryPack.Script.Pattern
