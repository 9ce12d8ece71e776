/-
Reading scripts into trees.

The reader goes through the tokens once, from left to right, and resolves names,
labels and jumps on its way, so that of several faults in a source the first is
reported.

* `Parser.chunk` — the body of a whole source.

The recursion is bounded by fuel, a multiple of the size of the source that no
source uses up; the depth to which a source may nest is a limit of its own.
-/
import StoryPack.Script.Token
import StoryPack.Script.Tree

namespace StoryPack.Script

namespace Parser

/-- How a variable may be used. -/
inductive VarKind where
  | regular
  | constant
  | closed
  /-- A constant that is known when the source is read; it has no slot. -/
  | literal (e : Expr)
deriving Inhabited

/-- A variable in scope. -/
structure Var where
  name : ByteArray
  kind : VarKind
  slot : Nat
  id : Nat
deriving Inhabited

/-- A variable that a function captures. -/
structure Captured where
  name : ByteArray
  source : CaptureSource
  kind : VarKind
deriving Inhabited

/-- A label in scope: its number, and how many variables are in scope at it. -/
structure Label where
  name : ByteArray
  n : Nat
  active : Nat
  line : Nat
deriving Inhabited

/-- A jump whose label has not come yet. -/
structure Pending where
  name : ByteArray
  n : Nat
  line : Nat
  active : Nat
deriving Inhabited

/-- A block that is being read: what was in scope when it began. -/
structure Block where
  active : Nat
  slots : Nat
  labels : Nat
  pending : Nat
  isLoop : Bool
deriving Inhabited

/-- A function that is being read. -/
structure FunctionScope where
  /-- The variables in scope, innermost first. -/
  vars : List Var := []
  /-- How many variables have been named and are not in scope yet. -/
  named : Nat := 0
  slots : Nat := 0
  maxSlots : Nat := 0
  captured : Array Bool := #[]
  captures : Array Captured := #[]
  blocks : List Block := []
  labels : List Label := []
  pending : List Pending := []
  jumps : Array Nat := #[]
  labelSlots : Array Nat := #[]
  isVararg : Bool := false
  line : Nat := 0
deriving Inhabited

/-- The state of the reader. -/
structure State where
  source : ByteArray
  position : Nat := 0
  line : Nat := 1
  /-- The line on which the last token that was taken ends. -/
  lastLine : Nat := 1
  token : Token := default
  ahead : Option Token := none
  functions : List FunctionScope := []
  depth : Nat := 0
deriving Inhabited

end Parser

/-- A reader. -/
abbrev Parser (α : Type) := StateT Parser.State (Except SourceFault) α

namespace Parser

/-- How deeply a source may nest. -/
def depthLimit : Nat := 200

/-- How many variables a function may have in scope. -/
def varLimit : Nat := 200

/-- How many variables a function may capture. -/
def captureLimit : Nat := 255

/-! ### Tokens -/

/-- Fails near the token at hand. -/
def faultHere {α : Type} (message : String) : Parser α := fun s =>
  .error (.at_ s.line message (some s.token.shown))

/-- Fails because of what a name means. -/
def faultPlain {α : Type} (message : ByteArray) : Parser α := fun s =>
  .error (.at_ s.line ((Utf8.lossy message)) none)

/-- Reads a token. -/
def lex : Parser Token := fun s =>
  match Token.next s.source s.position s.line with
  | .error f => .error f
  | .ok (t, i) => .ok (t, { s with position := i, line := t.line })

/-- Takes the token at hand. -/
def advance : Parser PUnit := do
  modify fun s => { s with lastLine := s.line }
  let s ← get
  match s.ahead with
  | some t => set { s with token := t, ahead := none }
  | none =>
    let t ← lex
    modify fun s => { s with token := t }

/-- The kind of the token at hand. -/
@[inline] def lexeme : Parser Lexeme := do return (← get).token.lexeme

/-- Looks at the token after the one at hand. -/
def lookAhead : Parser Lexeme := do
  let t ← lex
  modify fun s => { s with ahead := some t }
  return t.lexeme

/-- Whether a mark is at hand. -/
def isMark (m : String) : Parser Bool := do
  match ← lexeme with
  | .mark n => return n == m
  | _ => return false

/-- Whether a reserved word is at hand. -/
def isWord (w : String) : Parser Bool := do
  match ← lexeme with
  | .word v => return v == w
  | _ => return false

/-- Takes a mark if it is at hand. -/
def takeMark (m : String) : Parser Bool := do
  if ← isMark m then
    advance
    return true
  else return false

/-- Takes a mark that has to be at hand. -/
def expectMark (m : String) : Parser PUnit := do
  if ← isMark m then advance else faultHere ("'" ++ m ++ "' expected")

/-- Takes a reserved word that has to be at hand. -/
def expectWord (w : String) : Parser PUnit := do
  if ← isWord w then advance else faultHere ("'" ++ w ++ "' expected")

/-- Fails because what closes something is missing. -/
def unclosed {α : Type} (what opener : String) (line : Nat) : Parser α := do
  if line == (← get).line then faultHere ("'" ++ what ++ "' expected")
  else
    faultHere
      ("'" ++ what ++ "' expected (to close '" ++ opener ++ "' at line " ++ toString line ++ ")")

/-- Takes the word that closes what a word on some line has opened. -/
def closeWord (w opener : String) (line : Nat) : Parser PUnit := do
  if ← isWord w then advance else unclosed w opener line

/-- Takes the mark that closes what a mark on some line has opened. -/
def closeMark (m opener : String) (line : Nat) : Parser PUnit := do
  if ← isMark m then advance else unclosed m opener line

/-- Takes a name. -/
def name : Parser ByteArray := do
  match ← lexeme with
  | .name s =>
    advance
    return s
  | _ => faultHere "<name> expected"

/-- The line of the token at hand. -/
@[inline] def line : Parser Nat := do return (← get).line

/-- The line of the last token taken. -/
@[inline] def lastLine : Parser Nat := do return (← get).lastLine

/-- Runs a reader one level deeper. -/
@[inline] def nested {α : Type} (p : Parser α) : Parser α := do
  let d := (← get).depth + 1
  if d ≥ depthLimit then throw .tooDeep
  else
    modify fun s => { s with depth := d }
    let a ← p
    modify fun s => { s with depth := s.depth - 1 }
    return a

/-! ### Scopes -/

/-- The function at hand. -/
def scope : Parser FunctionScope := do return (← get).functions.headD {}

/-- Changes the function at hand. -/
def modifyScope (f : FunctionScope → FunctionScope) : Parser PUnit :=
  modify fun s =>
    match s.functions with
    | [] => s
    | g :: rest => { s with functions := f g :: rest }

/-- Fails because there is too much of something in a function. -/
def overLimit {α : Type} (what : String) (limit : Nat) : Parser α := do
  let f ← scope
  let place := if f.line == 0 then "main function" else "function at line " ++ toString f.line
  faultHere ("too many " ++ what ++ " (limit is " ++ toString limit ++ ") in " ++ place)

/-- Counts a variable that is named and will come into scope. -/
def nameVar : Parser PUnit := do
  let f ← scope
  if f.vars.length + f.named + 1 > varLimit then overLimit "local variables" varLimit
  else modifyScope fun f => { f with named := f.named + 1 }

/-- Brings a named variable into scope. -/
def openVar (name : ByteArray) (kind : VarKind) : Parser LocalVar := do
  let f ← scope
  let id := f.captured.size
  let slot := f.slots
  let next :=
    match kind with
    | .literal _ => slot
    | _ => slot + 1
  modifyScope fun f => { f with
    vars := ⟨name, kind, slot, id⟩ :: f.vars, named := f.named - 1, slots := next,
    maxSlots := max f.maxSlots next, captured := f.captured.push false }
  return ⟨name, slot, id⟩

/-- Names a variable and brings it into scope. -/
def declare (name : ByteArray) : Parser LocalVar := do
  nameVar
  openVar name .regular

/-- What a name means in a function. -/
inductive Meaning where
  | localVar (v : Var)
  | upvalue (n : Nat) (kind : VarKind)
  | global

/-- Captures a variable in a function: the number of the captured variable. -/
def addCapture (f : FunctionScope) (c : Captured) : FunctionScope × Nat :=
  match f.captures.findIdx? fun d => d.name == c.name with
  | some n => (f, n)
  | none => ({ f with captures := f.captures.push c }, f.captures.size)

/-- Looks a name up in a function and those around it, and captures what is found outside. -/
def resolve (name : ByteArray) : List FunctionScope → Meaning × List FunctionScope
  | [] => (.global, [])
  | f :: outer =>
    match f.vars.find? fun v => v.name == name with
    | some v => (.localVar v, f :: outer)
    | none =>
      match f.captures.findIdx? fun c => c.name == name with
      | some n => (.upvalue n ((f.captures[n]?).getD default).kind, f :: outer)
      | none =>
        match resolve name outer with
        | (.localVar v, outer) =>
          match v.kind with
          | .literal _ => (.localVar v, f :: outer)
          | _ =>
            let outer :=
              match outer with
              | g :: rest => { g with captured := g.captured.set! v.id true } :: rest
              | [] => []
            let (f, n) := addCapture f ⟨name, .slot v.slot, v.kind⟩
            (.upvalue n v.kind, f :: outer)
        | (.upvalue m kind, outer) =>
          let (f, n) := addCapture f ⟨name, .upvalue m, kind⟩
          (.upvalue n kind, f :: outer)
        | (.global, outer) => (.global, f :: outer)

/-- Resolves a name. -/
def lookUp (name : ByteArray) : Parser Meaning := do
  let s ← get
  let (m, fs) := resolve name s.functions
  if fs.any fun f => f.captures.size > captureLimit then overLimit "upvalues" captureLimit
  else
    set { s with functions := fs }
    return m

/-- The name of the table of global variables. -/
def environmentName : ByteArray := "_ENV".toUTF8

/-- The expression of a name. -/
def variableOf (name : ByteArray) : Parser Expr := do
  match ← lookUp name with
  | .localVar v =>
    match v.kind with
    | .literal e => return e
    | _ => return .localVar ⟨name, v.slot, v.id⟩
  | .upvalue n _ => return .upvalue name n
  | .global =>
    let l ← lastLine
    match ← lookUp environmentName with
    | .localVar v => return .index (.localVar ⟨environmentName, v.slot, v.id⟩) l (.str name) l
    | .upvalue n _ => return .index (.upvalue environmentName n) l (.str name) l
    | .global => return .nil

/-- Fails if a name may not be assigned to. -/
def checkWritable (name : ByteArray) : Parser PUnit := do
  let check (kind : VarKind) : Parser PUnit :=
    match kind with
    | .regular => return
    | _ => faultPlain ("attempt to assign to const variable '".toUTF8 ++ name ++ "'".toUTF8)
  match ← lookUp name with
  | .localVar v => check v.kind
  | .upvalue _ kind => check kind
  | .global => return

/-- Enters a block. -/
def enterBlock (isLoop : Bool) : Parser PUnit :=
  modifyScope fun f => { f with
    blocks := ⟨f.vars.length, f.slots, f.labels.length, f.pending.length, isLoop⟩ :: f.blocks }

/-- A new label number at which some slots are in use. -/
def newLabel (slots : Nat) : Parser Nat := do
  let n := (← scope).labelSlots.size
  modifyScope fun f => { f with labelSlots := f.labelSlots.push slots }
  return n

/-- The bytes that stand for the jump out of a loop. -/
def breakName : ByteArray := "break".toUTF8

/-- Leads the pending jumps of the innermost block to a label. -/
def settle (l : Label) : Parser PUnit := do
  let f ← scope
  let inside := f.pending.length - (f.blocks.headD default).pending
  let (here, others) := (f.pending.take inside).partition fun p => p.name == l.name
  for p in here.reverse do
    if p.active < l.active then
      let var := (f.vars.reverse.getD p.active default).name
      faultPlain ("<goto ".toUTF8 ++ p.name ++ ("> at line " ++ toString p.line).toUTF8 ++
        " jumps into the scope of local '".toUTF8 ++ var ++ "'".toUTF8)
  modifyScope fun f => { f with
    pending := others ++ f.pending.drop inside,
    jumps := here.foldl (fun js p => js.set! p.n l.n) f.jumps }

/-- Leaves a block: gives the label behind a loop, to which its breaks lead. -/
def leaveBlock : Parser Nat := do
  let f ← scope
  let b := f.blocks.headD default
  modifyScope fun f => { f with
    vars := f.vars.drop (f.vars.length - b.active), slots := b.slots }
  let exit ←
    if b.isLoop then
      let n ← newLabel b.slots
      settle ⟨breakName, n, b.active, 0⟩
      pure n
    else pure 0
  modifyScope fun f => { f with
    labels := f.labels.drop (f.labels.length - b.labels)
    blocks := f.blocks.drop 1
    pending := f.pending.map fun p => { p with active := min p.active b.active } }
  let f ← scope
  if f.blocks.isEmpty then
    match f.pending.reverse with
    | [] => return exit
    | p :: _ =>
      if p.name == breakName then
        faultPlain ("break outside a loop at line " ++ toString p.line).toUTF8
      else
        faultPlain ("no visible label '".toUTF8 ++ p.name ++
          ("' for <goto> at line " ++ toString p.line).toUTF8)
  else return exit

/-- A jump to a name that may come later. -/
def jumpTo (name : ByteArray) (line : Nat) : Parser Stat := do
  let f ← scope
  let n := f.jumps.size
  match (if name == breakName then none else f.labels.find? fun l => l.name == name) with
  | some l => modifyScope fun f => { f with jumps := f.jumps.push l.n }
  | none =>
    modifyScope fun f => { f with
      jumps := f.jumps.push 0, pending := ⟨name, n, line, f.vars.length⟩ :: f.pending }
  return .goto n line

/-- Enters a function. -/
def enterFunction (line : Nat) : Parser PUnit :=
  modify fun s => { s with functions := { line := line } :: s.functions }

/-- Leaves a function. -/
def leaveFunction (parameters : List LocalVar) (body : List Stat) (endLine : Nat) :
    Parser Body := do
  let f ← scope
  modify fun s => { s with functions := s.functions.drop 1 }
  return .mk parameters f.isVararg f.captured (f.captures.map (·.source)) f.jumps f.labelSlots
    f.maxSlots f.line endLine body

/-! ### Expressions -/

/-- The binding powers of an operator to its left and right. -/
def binaryPower? : Lexeme → Option (Nat × Nat)
  | .mark m =>
    match m with
    | "+" | "-" => some (10, 10)
    | "*" | "%" | "/" | "//" => some (11, 11)
    | "^" => some (14, 13)
    | ".." => some (9, 8)
    | "<<" | ">>" => some (7, 7)
    | "&" => some (6, 6)
    | "~" => some (5, 5)
    | "|" => some (4, 4)
    | "==" | "~=" | "<" | "<=" | ">" | ">=" => some (3, 3)
    | _ => none
  | .word "and" => some (2, 2)
  | .word "or" => some (1, 1)
  | _ => none

/-- The binding power of the unary operators. -/
def unaryPower : Nat := 12

/-- The operator of a mark. -/
def binaryOf : Lexeme → BinaryOp
  | .mark m =>
    match m with
    | "+" => .arith .add
    | "-" => .arith .sub
    | "*" => .arith .mul
    | "%" => .arith .mod
    | "/" => .arith .div
    | "//" => .arith .idiv
    | "^" => .arith .pow
    | ".." => .concat
    | "<<" => .arith .shl
    | ">>" => .arith .shr
    | "&" => .arith .band
    | "~" => .arith .bxor
    | "|" => .arith .bor
    | "==" => .eq
    | "~=" => .ne
    | "<" => .lt
    | "<=" => .le
    | ">" => .gt
    | _ => .ge
  | _ => .eq

/-- The unary operator at hand. -/
def unaryOf? : Lexeme → Option UnaryOp
  | .mark "-" => some .negate
  | .mark "#" => some .length
  | .mark "~" => some .complement
  | .word "not" => some .not
  | _ => none

/-- Whether a block ends at the token at hand; `until` ends only the blocks of loops. -/
def blockEnds (withUntil : Bool) : Parser Bool := do
  match ← lexeme with
  | .eof => return true
  | .word w => return w == "else" || w == "elseif" || w == "end" || (withUntil && w == "until")
  | _ => return false

/-- The value of an expression that is known when it is read. -/
def literal? : Expr → Option Expr
  | .nil => some .nil
  | .bool b => some (.bool b)
  | .int i => some (.int i)
  | .float x => some (.float x)
  | .str s => some (.str s)
  | _ => none

/-- Splits off a last constant whose value is known when it is declared. -/
def withKnown (names : List (ByteArray × VarKind)) (values : List Arg) :
    List (ByteArray × VarKind) × Option (ByteArray × Expr) :=
  if names.length == values.length then
    match names.getLast?, values.getLast? with
    | some (n, .constant), some (.mk e _) =>
      match literal? e with
      | some e => (names.take (names.length - 1), some (n, e))
      | none => (names, none)
    | _, _ => (names, none)
  else (names, none)

/-- The variable that is to be closed, if one of those declared is. -/
def closedVar : List (ByteArray × VarKind) → List LocalVar → Option LocalVar
  | (_, .closed) :: _, v :: _ => some v
  | _ :: names, _ :: vars => closedVar names vars
  | _, _ => none

mutual

/-- An expression whose operators bind more strongly than `limit`. -/
def subExpr : (fuel : Nat) → (limit : Nat) → Parser Expr
  | 0, _ => throw .tooDeep
  | fuel + 1, limit => nested do
    let first ←
      match unaryOf? (← lexeme) with
      | some op => do
        let opLine ← line
        advance
        let a ← subExpr fuel unaryPower
        let aLine ← lastLine
        pure (match op, a with
          | .negate, .int i => if i == 0 then .unary op a opLine aLine else .int (0 - i)
          | .negate, .float x => if x == 0.0 then .unary op a opLine aLine else .float (-x)
          | _, _ => .unary op a opLine aLine)
      | none => simpleExpr fuel
    binaryRest fuel limit first

/-- Goes on after an operand, as long as operators bind strongly enough. -/
def binaryRest : (fuel : Nat) → (limit : Nat) → Expr → Parser Expr
  | 0, _, _ => throw .tooDeep
  | fuel + 1, limit, a => do
    let op ← lexeme
    match binaryPower? op with
    | none => return a
    | some (left, right) =>
      if left ≤ limit then return a
      else
        let opLine ← line
        advance
        let b ← subExpr fuel right
        let bLine ← lastLine
        let e : Expr :=
          match op with
          | .word "and" => .both a b opLine
          | .word "or" => .either a b opLine
          | op => .binary (binaryOf op) a b opLine bLine
        binaryRest fuel limit e

/-- An expression without binary operators. -/
def simpleExpr : (fuel : Nat) → Parser Expr
  | 0 => throw .tooDeep
  | fuel + 1 => do
    let plain (e : Expr) : Parser Expr := do
      advance
      return e
    match ← lexeme with
    | .float x => plain (.float x)
    | .int i => plain (.int i)
    | .str s => plain (.str s)
    | .word "nil" => plain .nil
    | .word "true" => plain (.bool true)
    | .word "false" => plain (.bool false)
    | .mark "..." => do
      if (← scope).isVararg then plain .varargs
      else faultHere "cannot use '...' outside a vararg function"
    | .mark "\x7b" => constructor fuel
    | .word "function" => do
      advance
      let l ← line
      return .function (← functionBody fuel false l)
    | _ => suffixedExpr fuel

/-- A name or an expression in brackets. -/
def primaryExpr : (fuel : Nat) → Parser Expr
  | 0 => throw .tooDeep
  | fuel + 1 => do
    match ← lexeme with
    | .name _ => do
      let n ← name
      variableOf n
    | .mark "(" => do
      let l ← line
      advance
      let e ← subExpr fuel 0
      closeMark ")" "(" l
      return .paren e (← lastLine)
    | _ => faultHere "unexpected symbol"

/-- An expression with fields, indices and calls behind it. -/
def suffixedExpr : (fuel : Nat) → Parser Expr
  | 0 => throw .tooDeep
  | fuel + 1 => do
    let e ← primaryExpr fuel
    suffixes fuel e

/-- Fields, indices and calls behind an expression. -/
def suffixes : (fuel : Nat) → Expr → Parser Expr
  | 0, _ => throw .tooDeep
  | fuel + 1, e => do
    let here ← lastLine
    match ← lexeme with
    | .mark "." => do
      advance
      let n ← name
      suffixes fuel (.index e here (.str n) (← lastLine))
    | .mark "[" => do
      advance
      let k ← subExpr fuel 0
      let keyLine ← lastLine
      expectMark "]"
      suffixes fuel (.index e here k keyLine)
    | .mark ":" => do
      advance
      let n ← name
      let nameLine ← lastLine
      let (args, l) ← arguments fuel
      suffixes fuel (.method e n nameLine args l)
    | .mark "(" | .mark "\x7b" | .str _ => do
      let (args, l) ← arguments fuel
      suffixes fuel (.call e here args l)
    | _ => return e

/-- The arguments of a call, and its line. -/
def arguments : (fuel : Nat) → Parser (List Arg × Nat)
  | 0 => throw .tooDeep
  | fuel + 1 => do
    let l ← line
    match ← lexeme with
    | .str s => do
      advance
      return ([.mk (.str s) (← lastLine)], l)
    | .mark "\x7b" => do
      let e ← constructor fuel
      return ([.mk e (← lastLine)], l)
    | .mark "(" => do
      advance
      if ← isMark ")" then
        advance
        return ([], l)
      else
        let args ← exprList fuel
        closeMark ")" "(" l
        let after ← lastLine
        let args :=
          match args.reverse with
          | .mk e _ :: rest => (Arg.mk e after :: rest).reverse
          | [] => []
        return (args, l)
    | _ => faultHere "function arguments expected"

/-- Expressions with commas between them. -/
def exprList : (fuel : Nat) → Parser (List Arg)
  | 0 => throw .tooDeep
  | fuel + 1 => do
    let e ← subExpr fuel 0
    let more ← takeMark ","
    let l ← lastLine
    if more then
      let rest ← exprList fuel
      return .mk e l :: rest
    else return [.mk e l]

/-- A table constructor. -/
def constructor : (fuel : Nat) → Parser Expr
  | 0 => throw .tooDeep
  | fuel + 1 => do
    let l ← line
    expectMark "\x7b"
    let fields ← fieldList fuel
    closeMark "\x7d" "\x7b" l
    let after ← lastLine
    return .table (fields.map fun
      | .item e 0 => .item e after
      | f => f)

/-- The fields of a constructor; the line of a last item stays open. -/
def fieldList : (fuel : Nat) → Parser (List Field)
  | 0 => throw .tooDeep
  | fuel + 1 => do
    if ← isMark "\x7d" then return []
    else
      let f ← field fuel
      let more ← (do if ← takeMark "," then pure true else takeMark ";")
      if more then
        let l ← lastLine
        let f : Field :=
          match f with
          | .item e _ => .item e l
          | f => f
        let rest ← fieldList fuel
        return f :: rest
      else return [f]

/-- One field of a constructor. -/
def field : (fuel : Nat) → Parser Field
  | 0 => throw .tooDeep
  | fuel + 1 => do
    match ← lexeme with
    | .name n => do
      match ← lookAhead with
      | .mark "=" => do
        advance
        let keyLine ← lastLine
        advance
        let e ← subExpr fuel 0
        return .pair (.str n) keyLine e (← lastLine)
      | _ => return .item (← subExpr fuel 0) 0
    | .mark "[" => do
      advance
      let k ← subExpr fuel 0
      let keyLine ← lastLine
      expectMark "]"
      expectMark "="
      let e ← subExpr fuel 0
      return .pair k keyLine e (← lastLine)
    | _ => return .item (← subExpr fuel 0) 0

/-- A function from its parameters on. -/
def functionBody : (fuel : Nat) → (isMethod : Bool) → (line : Nat) → Parser Body
  | 0, _, _ => throw .tooDeep
  | fuel + 1, isMethod, l => do
    enterFunction l
    enterBlock false
    expectMark "("
    if isMethod then nameVar
    let names ← (do if ← isMark ")" then pure [] else parameterNames fuel)
    expectMark ")"
    let self ← (do if isMethod then pure [← openVar "self".toUTF8 .regular] else pure [])
    let vars ← names.mapM fun n => openVar n .regular
    let body ← statements fuel
    let endLine ← line
    closeWord "end" "function" l
    let _ ← leaveBlock
    leaveFunction (self ++ vars) body endLine

/-- The names of parameters; three points at the end stand for further arguments. -/
def parameterNames : (fuel : Nat) → Parser (List ByteArray)
  | 0 => throw .tooDeep
  | fuel + 1 => do
    match ← lexeme with
    | .name n => do
      nameVar
      advance
      if ← takeMark "," then
        let rest ← parameterNames fuel
        return n :: rest
      else return [n]
    | .mark "..." => do
      advance
      modifyScope fun f => { f with isVararg := true }
      return []
    | _ => faultHere "<name> or '...' expected"

/-- The statements of a block. -/
def statements : (fuel : Nat) → Parser (List Stat)
  | 0 => throw .tooDeep
  | fuel + 1 => do
    if ← blockEnds true then return []
    else if ← isWord "return" then
      match ← statement fuel with
      | some s => return [s]
      | none => return []
    else
      let s ← statement fuel
      let rest ← statements fuel
      return s.toList ++ rest

/-- The statements of a block with a scope of its own, and the level of its scope. -/
def block : (fuel : Nat) → (isLoop : Bool) → Parser (List Stat × Nat × Nat)
  | 0, _ => throw .tooDeep
  | fuel + 1, isLoop => do
    let level := (← scope).slots
    enterBlock isLoop
    let body ← statements fuel
    let exit ← leaveBlock
    return (body, level, exit)

/-- A statement; nothing for an empty one. -/
def statement : (fuel : Nat) → Parser (Option Stat)
  | 0 => throw .tooDeep
  | fuel + 1 => nested do
    let l ← line
    match ← lexeme with
    | .mark ";" => do
      advance
      return none
    | .word "if" => return some (← ifStatement fuel l)
    | .word "while" => do
      advance
      let cond ← subExpr fuel 0
      let condLine ← lastLine
      let level := (← scope).slots
      enterBlock true
      expectWord "do"
      let (body, _, _) ← block fuel false
      closeWord "end" "while" l
      let exit ← leaveBlock
      return some (.while_ cond condLine body level exit)
    | .word "do" => do
      advance
      let (body, level, _) ← block fuel false
      closeWord "end" "do" l
      return some (.block body level)
    | .word "for" => return some (← forStatement fuel l)
    | .word "repeat" => do
      let level := (← scope).slots
      enterBlock true
      enterBlock false
      advance
      let body ← statements fuel
      closeWord "until" "repeat" l
      let cond ← subExpr fuel 0
      let condLine ← lastLine
      let _ ← leaveBlock
      let exit ← leaveBlock
      return some (.repeat_ body cond condLine level exit)
    | .word "function" => return some (← functionStatement fuel l)
    | .word "local" => do
      advance
      if ← isWord "function" then
        advance
        let n ← name
        let v ← declare n
        let b ← functionBody fuel false (← line)
        return some (.localFunction v b)
      else return some (← localStatement fuel)
    | .mark "::" => do
      advance
      let n ← name
      some <$> labelStatement fuel n l
    | .word "return" => do
      advance
      let args ← (do
        if ← blockEnds true then pure []
        else if ← isMark ";" then pure []
        else exprList fuel)
      let l ← lastLine
      let _ ← takeMark ";"
      return some (.ret args l)
    | .word "break" => do
      advance
      some <$> jumpTo breakName l
    | .word "goto" => do
      advance
      let n ← name
      some <$> jumpTo n l
    | _ => return some (← exprStatement fuel)

/-- A label. At the end of a block the variables of the block count as out of scope already. -/
def labelStatement : (fuel : Nat) → ByteArray → (line : Nat) → Parser Stat
  | 0, _, _ => throw .tooDeep
  | fuel + 1, n, l => do
    expectMark "::"
    let after ← skipEmpty fuel
    match (← scope).labels.find? fun l => l.name == n with
    | some old =>
      faultPlain
        ("label '".toUTF8 ++ n ++ ("' already defined on line " ++ toString old.line).toUTF8)
    | none =>
      let last ← blockEnds false
      let f ← scope
      let b := f.blocks.headD default
      let active := if last then b.active else f.vars.length
      let k ← newLabel (if last then b.slots else f.slots)
      let lab : Label := ⟨n, k, active, l⟩
      modifyScope fun f => { f with labels := lab :: f.labels }
      settle lab
      match after with
      | [] => return .label k
      | rest => return .block (.label k :: rest) f.slots

/-- Empty statements and further labels behind a label. -/
def skipEmpty : (fuel : Nat) → Parser (List Stat)
  | 0 => throw .tooDeep
  | fuel + 1 => do
    if (← isMark ";") || (← isMark "::") then
      let s ← statement fuel
      let rest ← skipEmpty fuel
      return s.toList ++ rest
    else return []

/-- A conditional statement. -/
def ifStatement : (fuel : Nat) → (line : Nat) → Parser Stat
  | 0, _ => throw .tooDeep
  | fuel + 1, l => do
    let level := (← scope).slots
    let clauses ← ifClauses fuel
    let otherwise ← (do
      if ← isWord "else" then
        advance
        let (body, _, _) ← block fuel false
        pure body
      else pure [])
    closeWord "end" "if" l
    return .if_ clauses otherwise level

/-- A condition and its block, and all that follow after `elseif`. -/
def ifClauses : (fuel : Nat) → Parser (List Clause)
  | 0 => throw .tooDeep
  | fuel + 1 => do
    advance
    let cond ← subExpr fuel 0
    expectWord "then"
    let condLine ← lastLine
    let (body, _, _) ← block fuel false
    if ← isWord "elseif" then
      let rest ← ifClauses fuel
      return .mk cond condLine body :: rest
    else return [.mk cond condLine body]

/-- A loop over numbers or over what an iterator gives. -/
def forStatement : (fuel : Nat) → (line : Nat) → Parser Stat
  | 0, _ => throw .tooDeep
  | fuel + 1, l => do
    enterBlock true
    advance
    let n ← name
    let base := (← scope).slots
    let hidden : ByteArray := "(for state)".toUTF8
    match ← lexeme with
    | .mark "=" => do
      nameVar
      nameVar
      nameVar
      nameVar
      advance
      let init ← subExpr fuel 0
      let initLine ← lastLine
      expectMark ","
      let limit ← subExpr fuel 0
      let limitLine ← lastLine
      let step ← (do
        if ← takeMark "," then
          let e ← subExpr fuel 0
          pure (Arg.mk e (← lastLine))
        else pure (Arg.mk (.int 1) (← lastLine)))
      let _ ← openVar hidden .regular
      let _ ← openVar hidden .regular
      let _ ← openVar hidden .regular
      expectWord "do"
      let doLine ← lastLine
      enterBlock false
      let v ← openVar n .regular
      let (body, _, _) ← block fuel false
      let _ ← leaveBlock
      closeWord "end" "for" l
      let exit ← leaveBlock
      return .forNumber base v (.mk init initLine) (.mk limit limitLine) step body l doLine exit
    | .mark "," | .word "in" => do
      nameVar
      nameVar
      nameVar
      nameVar
      nameVar
      let names ← moreNames fuel
      expectWord "in"
      let inLine ← line
      let values ← exprList fuel
      let _ ← openVar hidden .regular
      let _ ← openVar hidden .regular
      let _ ← openVar hidden .regular
      let _ ← openVar hidden .regular
      expectWord "do"
      enterBlock false
      let vars ← (n :: names).mapM fun n => openVar n .regular
      let (body, _, _) ← block fuel false
      let _ ← leaveBlock
      closeWord "end" "for" l
      let exit ← leaveBlock
      return .forEach base vars values body inLine exit
    | _ => faultHere "'=' or 'in' expected"

/-- Further names after commas. -/
def moreNames : (fuel : Nat) → Parser (List ByteArray)
  | 0 => throw .tooDeep
  | fuel + 1 => do
    if ← takeMark "," then
      let n ← name
      nameVar
      let rest ← moreNames fuel
      return n :: rest
    else return []

/-- A function under a name or in a field. -/
def functionStatement : (fuel : Nat) → (line : Nat) → Parser Stat
  | 0, _ => throw .tooDeep
  | fuel + 1, l => do
    advance
    let n ← name
    let e ← variableOf n
    let (target, isMethod, plain) ← functionFields fuel e true
    let b ← functionBody fuel isMethod l
    if plain then checkWritable n
    return .assign [target] [.mk (.function b) l] l

/-- The fields behind a function name: the target, whether it is a method, and whether there are no
fields. -/
def functionFields : (fuel : Nat) → Expr → Bool → Parser (Expr × Bool × Bool)
  | 0, _, _ => throw .tooDeep
  | fuel + 1, e, plain => do
    let here ← lastLine
    if ← takeMark "." then
      let n ← name
      functionFields fuel (.index e here (.str n) (← lastLine)) false
    else if ← takeMark ":" then
      let n ← name
      return (.index e here (.str n) (← lastLine), true, false)
    else return (e, false, plain)

/-- The names of local variables with their attributes. -/
def localNames : (fuel : Nat) → (closes : Bool) → Parser (List (ByteArray × VarKind))
  | 0, _ => throw .tooDeep
  | fuel + 1, closes => do
    let n ← name
    nameVar
    let kind ← (do
      if ← takeMark "<" then
        let a ← name
        expectMark ">"
        if a == "const".toUTF8 then pure VarKind.constant
        else if a == "close".toUTF8 then pure VarKind.closed
        else faultPlain ("unknown attribute '".toUTF8 ++ a ++ "'".toUTF8)
      else pure VarKind.regular)
    let isClosed :=
      match kind with
      | .closed => true
      | _ => false
    if isClosed && closes then faultPlain "multiple to-be-closed variables in local list".toUTF8
    else if ← takeMark "," then
      let rest ← localNames fuel (closes || isClosed)
      return (n, kind) :: rest
    else return [(n, kind)]

/-- A declaration of local variables. A last constant with a known value gets no slot. -/
def localStatement : (fuel : Nat) → Parser Stat
  | 0 => throw .tooDeep
  | fuel + 1 => do
    let names ← localNames fuel false
    let values ← (do if ← takeMark "=" then exprList fuel else pure [])
    let l ← lastLine
    let (names, last) := withKnown names values
    let vars ← names.mapM fun n => openVar n.1 n.2
    let values ← (do
      match last with
      | some (n, e) =>
        let _ ← openVar n (.literal e)
        pure (values.take (values.length - 1))
      | none => pure values)
    return .locals vars values (closedVar names vars) l

/-- An assignment or a call. -/
def exprStatement : (fuel : Nat) → Parser Stat
  | 0 => throw .tooDeep
  | fuel + 1 => do
    let first ← lexeme
    let e ← suffixedExpr fuel
    if (← isMark "=") || (← isMark ",") then
      let targets ← targetList fuel e first
      expectMark "="
      let values ← exprList fuel
      return .assign targets values (← lastLine)
    else
      match e with
      | .call .. | .method .. => return .call e (← lastLine)
      | _ => faultHere "syntax error"

/-- The targets of an assignment; the first has been read and begins with the given token. -/
def targetList : (fuel : Nat) → Expr → Lexeme → Parser (List Expr)
  | 0, _, _ => throw .tooDeep
  | fuel + 1, e, first => do
    match e, first with
    | .index .., _ => pure ()
    | .localVar _, .name n | .upvalue _ _, .name n => checkWritable n
    | .nil, .name n | .bool _, .name n | .int _, .name n | .float _, .name n | .str _, .name n =>
      checkWritable n
    | _, _ => faultHere "syntax error"
    if ← takeMark "," then
      let first ← lexeme
      let next ← suffixedExpr fuel
      let rest ← nested (targetList fuel next first)
      return e :: rest
    else return [e]

end

/-- The body of a whole source: a function of any number of arguments that captures the table of
global variables. -/
def main : Parser Body := do
  let fuel := 64 * ((← get).source.size + 16)
  enterFunction 0
  modifyScope fun f => { f with
    isVararg := true
    captures := #[⟨environmentName, .slot 0, .regular⟩] }
  enterBlock false
  advance
  let body ← statements fuel
  match ← lexeme with
  | .eof => pure ()
  | _ => faultHere "<eof> expected"
  let endLine ← line
  let _ ← leaveBlock
  leaveFunction [] body endLine

/-- Reads a source. -/
def chunk (source : ByteArray) : Except SourceFault Body :=
  match main.run { source := source } with
  | .ok (b, _) => .ok b
  | .error f => .error f

end Parser

end StoryPack.Script
