/-
The tokens of scripts.

The source is read token by token, so that the first fault in it is the one that
is reported.  A token carries the bytes that messages show for it.

* `Token` — the tokens;
* `Token.next` — reads a token;
* `SourceFault` — a fault in a source, with its line, and its message.
-/
import StoryPack.Script.Numeral
import StoryPack.Text.Utf8

namespace StoryPack.Script

/-- What kind of token it is, with its value. -/
inductive Lexeme where
  | name (s : ByteArray)
  | str (s : ByteArray)
  | int (i : Int64)
  | float (x : Float)
  /-- A reserved word. -/
  | word (s : String)
  /-- An operator or a mark. -/
  | mark (s : String)
  /-- A byte that begins no token. -/
  | byte (c : UInt8)
  | eof
deriving Inhabited

/-- A token: the bytes that spell it, and the line on which it ends. -/
structure Token where
  lexeme : Lexeme
  text : ByteArray
  line : Nat
deriving Inhabited

/-- A fault in a source. -/
inductive SourceFault where
  /-- A message, the line, and what it stands near. -/
  | at_ (line : Nat) (message : String) (near : Option ByteArray)
  /-- The source nests too deeply. -/
  | tooDeep
deriving Inhabited

/-- The name of a chunk as messages show it, in at most 59 bytes. Behind `=` it stands as it is and
behind `@` it is the name of a file; any other name is the source itself, of which the first line is
shown. -/
def chunkName (source : ByteArray) : ByteArray :=
  let cut : ByteArray := "...".toUTF8
  if Bytes.byte source 0 == 61 then source.extract 1 60
  else if Bytes.byte source 0 == 64 then
    if source.size ≤ 60 then source.extract 1 source.size
    else cut ++ source.extract (source.size - 56) source.size
  else
    let line := source.extract 0 ((Bytes.indexOf? source (· == 10) 0).getD source.size)
    let shown :=
      if line.size == source.size && line.size < 45 then line else line.extract 0 45 ++ cut
    "[string \"".toUTF8 ++ shown ++ "\"]".toUTF8

/-- The message of a fault in a chunk of some name. -/
def SourceFault.message (chunk : ByteArray) : SourceFault → ByteArray
  | .at_ line m near =>
    let place := chunk ++ (":" ++ toString line ++ ": " ++ m).toUTF8
    match near with
    | some t => place ++ " near ".toUTF8 ++ t
    | none => place
  | .tooDeep => "C stack overflow".toUTF8

namespace Token

open Bytes (byte)

/-- The reserved words. -/
def reserved : List String :=
  ["and", "break", "do", "else", "elseif", "end", "false", "for", "function", "goto", "if", "in",
   "local", "nil", "not", "or", "repeat", "return", "then", "true", "until", "while"]

/-- The reserved words as byte strings. -/
def reservedBytes : List (ByteArray × String) := reserved.map fun s => (s.toUTF8, s)

/-- A letter or an underscore. -/
@[inline] def isLetter (c : UInt8) : Bool := (65 ≤ c && c ≤ 90) || (97 ≤ c && c ≤ 122) || c == 95

/-- A decimal digit. -/
@[inline] def isDigit (c : UInt8) : Bool := 48 ≤ c && c ≤ 57

/-- A line feed or a carriage return. -/
@[inline] def isNewline (c : UInt8) : Bool := c == 10 || c == 13

/-- The position after a line break; the two bytes of a pair count as one. -/
def afterNewline (b : ByteArray) (i : Nat) : Nat :=
  if isNewline (byte b (i + 1)) && i + 1 < b.size && byte b (i + 1) != byte b i then i + 2
  else i + 1

/-- The first position from `i` that holds neither letter nor digit. -/
def wordEnd (b : ByteArray) (i : Nat) : Nat :=
  if h : i < b.size then if isLetter b[i] || isDigit b[i] then wordEnd b (i + 1) else i else i
termination_by b.size - i

/-- The first position from `i` that holds a line break. -/
def lineEnd (b : ByteArray) (i : Nat) : Nat :=
  if h : i < b.size then if isNewline b[i] then i else lineEnd b (i + 1) else i
termination_by b.size - i

/-- How many equal signs stand from position `i` on. -/
def equalSigns (b : ByteArray) (i n : Nat) : Nat :=
  if h : i + n < b.size then if b[i + n] == 61 then equalSigns b i (n + 1) else n else n
termination_by b.size - (i + n)
decreasing_by omega

/-- What stands for a token in messages. -/
def quotedText (s : ByteArray) : ByteArray := "'".toUTF8 ++ Bytes.beforeNul s ++ "'".toUTF8

/-- What stands for a token in messages. -/
def shown (t : Token) : ByteArray :=
  match t.lexeme with
  | .eof => "<eof>".toUTF8
  | .byte c =>
    if 32 ≤ c && c < 127 then quotedText (Bytes.single c)
    else ("'<\\" ++ toString c.toNat ++ ">'").toUTF8
  | _ => quotedText t.text

/-- A result, or a fault of the source. -/
abbrev Reading (α : Type) := Except SourceFault α

/-- A fault near some text. -/
def faultNear {α : Type} (line : Nat) (message : String) (near : ByteArray) : Reading α :=
  .error (.at_ line message (some near))

/-- The content of a long bracket of some level from after its opening on: the bytes, the position
after it, and the line. -/
def longBracket (b : ByteArray) (level : Nat) (what : String) (startLine : Nat) :
    (fuel : Nat) → (i line : Nat) → ByteArray → Reading (ByteArray × Nat × Nat)
  | 0, _, line, _ =>
    faultNear line
      ("unfinished long " ++ what ++ " (starting at line " ++ toString startLine ++ ")")
      "<eof>".toUTF8
  | fuel + 1, i, line, acc =>
    if i ≥ b.size then
      faultNear line
        ("unfinished long " ++ what ++ " (starting at line " ++ toString startLine ++ ")")
        "<eof>".toUTF8
    else
      let c := byte b i
      if c == 93 && equalSigns b (i + 1) 0 == level && byte b (i + 1 + level) == 93 then
        .ok (acc, i + level + 2, line)
      else if isNewline c then
        longBracket b level what startLine fuel (afterNewline b i) (line + 1) (acc.push 10)
      else longBracket b level what startLine fuel (i + 1) line (acc.push c)

/-- A long bracket that opens at `i`, of which a first line break is dropped. -/
def longFrom (b : ByteArray) (i level line : Nat) (what : String) :
    Reading (ByteArray × Nat × Nat) :=
  let start := i + level + 2
  if isNewline (byte b start) && start < b.size then
    longBracket b level what line (b.size + 1) (afterNewline b start) (line + 1) ByteArray.empty
  else longBracket b level what line (b.size + 1) start line ByteArray.empty

/-- Passes over blanks and comments: the position and the line after them. -/
def skipBlanks (b : ByteArray) : (fuel : Nat) → (i line : Nat) → Reading (Nat × Nat)
  | 0, i, line => .ok (i, line)
  | fuel + 1, i, line =>
    if i ≥ b.size then .ok (i, line)
    else
      let c := byte b i
      if isNewline c then skipBlanks b fuel (afterNewline b i) (line + 1)
      else if c == 32 || c == 9 || c == 11 || c == 12 then skipBlanks b fuel (i + 1) line
      else if c == 45 && byte b (i + 1) == 45 then
        let j := i + 2
        let level := equalSigns b (j + 1) 0
        if byte b j == 91 && byte b (j + 1 + level) == 91 then
          match longFrom b j level line "comment" with
          | .error e => .error e
          | .ok (_, k, line) => skipBlanks b fuel k line
        else skipBlanks b fuel (lineEnd b j) line
      else .ok (i, line)

/-- Passes over blanks inside a string. -/
def skipSpace (b : ByteArray) : (fuel : Nat) → (i line : Nat) → Nat × Nat
  | 0, i, line => (i, line)
  | fuel + 1, i, line =>
    let c := byte b i
    if i < b.size && isNewline c then skipSpace b fuel (afterNewline b i) (line + 1)
    else if i < b.size && Numeral.isBlank c then skipSpace b fuel (i + 1) line
    else (i, line)

/-- A fault in an escape: the message shows what has been read and the byte at `i`. -/
def escapeFault {α : Type} (b : ByteArray) (line i : Nat) (shown : ByteArray) (message : String) :
    Reading α :=
  faultNear line message (quotedText (if i < b.size then shown.push (byte b i) else shown))

/-- The digits of a code point in braces, from after the first one on. -/
def codePointDigits (b : ByteArray) (line : Nat) : (fuel : Nat) → (i n : Nat) → ByteArray →
    Reading (Nat × Nat)
  | 0, i, n, _ => .ok (n, i)
  | fuel + 1, i, n, shown =>
    match (if i < b.size then Bytes.hexValue? (byte b i) else none) with
    | some d =>
      if n > 0x7ffffff then escapeFault b line i shown "UTF-8 value too large"
      else codePointDigits b line fuel (i + 1) (n * 16 + d) (shown.push (byte b i))
    | none =>
      if byte b i == 125 && i < b.size then .ok (n, i + 1)
      else escapeFault b line i shown "missing '\x7d'"

/-- The code point of an escape whose letter stands at `i`, and the position after it. -/
def codePoint (b : ByteArray) (line i : Nat) (shown : ByteArray) : Reading (Nat × Nat) :=
  let shown := shown.push 117
  if !(byte b (i + 1) == 123 && i + 1 < b.size) then
    escapeFault b line (i + 1) shown "missing '\x7b'"
  else
    let shown := shown.push 123
    match (if i + 2 < b.size then Bytes.hexValue? (byte b (i + 2)) else none) with
    | none => escapeFault b line (i + 2) shown "hexadecimal digit expected"
    | some d => codePointDigits b line (b.size + 1) (i + 3) d (shown.push (byte b (i + 2)))

/-- The byte of a hexadecimal escape whose letter stands at `i`. -/
def hexByte (b : ByteArray) (line i : Nat) (shown : ByteArray) : Reading UInt8 :=
  let shown := shown.push 120
  match (if i + 1 < b.size then Bytes.hexValue? (byte b (i + 1)) else none) with
  | none => escapeFault b line (i + 1) shown "hexadecimal digit expected"
  | some h =>
    let shown := shown.push (byte b (i + 1))
    match (if i + 2 < b.size then Bytes.hexValue? (byte b (i + 2)) else none) with
    | none => escapeFault b line (i + 2) shown "hexadecimal digit expected"
    | some l => .ok (UInt8.ofNat (h * 16 + l))

/-- Up to three decimal digits: their value, how many there are. -/
def decimalByte (b : ByteArray) (i : Nat) : Nat × Nat :=
  let d (k : Nat) : Option Nat :=
    if isDigit (byte b k) && k < b.size then some ((byte b k).toNat - 48) else none
  match d i, d (i + 1), d (i + 2) with
  | some x, some y, some z => (x * 100 + y * 10 + z, 3)
  | some x, some y, none => (x * 10 + y, 2)
  | some x, none, _ => (x, 1)
  | none, _, _ => (0, 0)

/-- The byte that a simple escape stands for. -/
def simpleEscape? (c : UInt8) : Option UInt8 :=
  match c.toNat with
  | 97 => some 7
  | 98 => some 8
  | 102 => some 12
  | 110 => some 10
  | 114 => some 13
  | 116 => some 9
  | 118 => some 11
  | 92 => some 92
  | 34 => some 34
  | 39 => some 39
  | _ => none

/-- The content of a string up to its delimiter; `acc` begins with the delimiter. -/
def stringFrom (b : ByteArray) (quote : UInt8) : (fuel : Nat) → (i line : Nat) → ByteArray →
    Reading (ByteArray × Nat × Nat)
  | 0, _, line, _ => faultNear line "unfinished string" "<eof>".toUTF8
  | fuel + 1, i, line, acc =>
    if i ≥ b.size then faultNear line "unfinished string" "<eof>".toUTF8
    else
      let c := byte b i
      if c == quote then .ok (acc, i + 1, line)
      else if isNewline c then faultNear line "unfinished string" (quotedText acc)
      else if c != 92 then stringFrom b quote fuel (i + 1) line (acc.push c)
      else if i + 1 ≥ b.size then faultNear line "unfinished string" "<eof>".toUTF8
      else
        let e := byte b (i + 1)
        let shown := acc.push 92
        if e == 120 then
          match hexByte b line (i + 1) shown with
          | .error f => .error f
          | .ok x => stringFrom b quote fuel (i + 4) line (acc.push x)
        else if e == 117 then
          match codePoint b line (i + 1) shown with
          | .error f => .error f
          | .ok (n, j) =>
            stringFrom b quote fuel j line ((Utf8.encodeLong n).foldl ByteArray.push acc)
        else if e == 122 then
          let (j, line) := skipSpace b (b.size + 1) (i + 2) line
          stringFrom b quote fuel j line acc
        else if isNewline e then
          stringFrom b quote fuel (afterNewline b (i + 1)) (line + 1) (acc.push 10)
        else
          match simpleEscape? e with
          | some x => stringFrom b quote fuel (i + 2) line (acc.push x)
          | none =>
            let (n, count) := decimalByte b (i + 1)
            if count == 0 then escapeFault b line (i + 1) shown "invalid escape sequence"
            else if n > 255 then
              escapeFault b line (i + 1 + count) (shown ++ Bytes.slice b (i + 1) count)
                "decimal escape too large"
            else stringFrom b quote fuel (i + 1 + count) line (acc.push (UInt8.ofNat n))

/-- The end of what may belong to a number: digits, points, and exponents with their signs. -/
def numberEnd (b : ByteArray) (lower upper : UInt8) : (fuel : Nat) → (i : Nat) → Nat
  | 0, i => i
  | fuel + 1, i =>
    let c := byte b i
    if i ≥ b.size then i
    else if c == lower || c == upper then
      let d := byte b (i + 1)
      if d == 45 || d == 43 then numberEnd b lower upper fuel (i + 2)
      else numberEnd b lower upper fuel (i + 1)
    else if (Bytes.hexValue? c).isSome || c == 46 then numberEnd b lower upper fuel (i + 1)
    else i

/-- A number at `i`. -/
def number (b : ByteArray) (i line : Nat) : Reading (Token × Nat) :=
  let hex := Numeral.isHex b i
  let stop := if hex then numberEnd b 112 80 (b.size + 1) (i + 2)
    else numberEnd b 101 69 (b.size + 1) (i + 1)
  let stop := if stop < b.size && isLetter (byte b stop) then stop + 1 else stop
  let text := b.extract i stop
  match Numeral.number? text with
  | some (.int n) => .ok (⟨.int n, text, line⟩, stop)
  | some (.float x) => .ok (⟨.float x, text, line⟩, stop)
  | _ => faultNear line "malformed number" (quotedText text)

/-- The marks, longer ones before their beginnings. -/
def marks : List (ByteArray × String) :=
  ["...", "..", "==", "~=", "<=", ">=", "<<", ">>", "//", "::", "=", "<", ">", "/", "~", ":", ".",
   "+", "-", "*", "%", "^", "#", "&", "|", "(", ")", "\x7b", "\x7d", "[", "]", ";", ","].map
    fun s => (s.toUTF8, s)

/-- The token at `i`, where no blank stands. -/
def tokenAt (b : ByteArray) (i line : Nat) : Reading (Token × Nat) :=
  if i ≥ b.size then .ok (⟨.eof, "<eof>".toUTF8, line⟩, i)
  else
    let c := byte b i
    if isLetter c then
      let j := wordEnd b i
      let s := b.extract i j
      match reservedBytes.lookup s with
      | some w => .ok (⟨.word w, s, line⟩, j)
      | none => .ok (⟨.name s, s, line⟩, j)
    else if isDigit c || (c == 46 && isDigit (byte b (i + 1))) then number b i line
    else if c == 34 || c == 39 then
      match stringFrom b c (b.size + 1) (i + 1) line (Bytes.single c) with
      | .error f => .error f
      | .ok (acc, j, line) => .ok (⟨.str (acc.extract 1 acc.size), acc.push c, line⟩, j)
    else if c == 91 && (byte b (i + 1) == 91 || byte b (i + 1) == 61) then
      let level := equalSigns b (i + 1) 0
      if byte b (i + 1 + level) == 91 then
        match longFrom b i level line "string" with
        | .error f => .error f
        | .ok (s, j, line) =>
          let eqs := Bytes.replicate level 61
          let text := ("[".toUTF8 ++ eqs ++ "[".toUTF8) ++ s ++ ("]".toUTF8 ++ eqs ++ "]".toUTF8)
          .ok (⟨.str s, text, line⟩, j)
      else faultNear line "invalid long string delimiter" (quotedText (b.extract i (i + 1 + level)))
    else
      match marks.find? fun m => Bytes.hasAt b m.1 i with
      | some (s, m) => .ok (⟨.mark m, s, line⟩, i + s.size)
      | none => .ok (⟨.byte c, Bytes.single c, line⟩, i + 1)

/-- The next token from position `i`, which is on line `line`, and the position after it. -/
def next (b : ByteArray) (i line : Nat) : Reading (Token × Nat) :=
  match skipBlanks b (b.size + 1) i line with
  | .error f => .error f
  | .ok (i, line) => tokenAt b i line

end Token

end StoryPack.Script
