/-
Compiling trees into code.

An expression is compiled towards a goal: a register that is to hold its value, a
jump on its truth, or the fate of all its values.  A register that is the goal of
an expression is not read by it.  Local variables are read by the instruction that
uses them; all other operands are evaluated from left to right before.

* `Goal` — what becomes of the value of an expression;
* `Emit.expr`, `Emit.stat` — expressions and statements;
* `compile` — a whole source.
-/
import StoryPack.Script.Emitter
import StoryPack.Script.Parser

namespace StoryPack.Script

/-- What becomes of the value of an expression. -/
inductive Goal where
  /-- It goes into a register. -/
  | register (r : Nat)
  /-- The flow jumps if its truth is `sense`. -/
  | jump (sense : Bool) (label : Nat)
  /-- All values are wanted in some way. -/
  | values (want : Want)
  /-- The values are those of the function. -/
  | tail
  /-- The operands of a chain of concatenations go into a run of new registers. -/
  | operands
deriving Inhabited

/-- How the source names the value of an expression. -/
def Expr.name? : Expr → Option Name
  | .localVar v => some ⟨.localVariable, v.name⟩
  | .upvalue name _ => some ⟨.upvalue, name⟩
  | .str s => some ⟨.constant, s⟩
  | .paren a _ => a.name?
  | .index object _ key _ =>
    match key with
    | .str s => some ⟨if isEnvironment object then .global else .field, s⟩
    | .int i =>
      if 0 ≤ i && i ≤ 255 then some ⟨.field, "integer index".toUTF8⟩
      else some ⟨.field, "?".toUTF8⟩
    | _ => some ⟨.field, "?".toUTF8⟩
  | _ => none
where
  /-- Whether an expression is the table of global variables. -/
  isEnvironment : Expr → Bool
    | .localVar v => v.name == Parser.environmentName
    | .upvalue name _ => name == Parser.environmentName
    | _ => false

/-- The constant that an expression is. -/
def Expr.constant? : Expr → Option Constant
  | .nil => some .nil
  | .bool b => some (.bool b)
  | .int i => some (.int i)
  | .float x => some (.float x.toBits)
  | .str s => some (.str s)
  | _ => none

/-- Whether evaluating an expression runs nothing that could change a variable. -/
def Expr.isPlain : Expr → Bool
  | .nil | .bool _ | .int _ | .float _ | .str _ | .localVar _ | .upvalue _ _ | .varargs
  | .function _ => true
  | .paren a _ => a.isPlain
  | _ => false

/-- Whether the register that is to hold the value is written only after all else. -/
def Expr.writesLast : Expr → Bool
  | .both .. | .either .. | .table _ => false
  | .paren a _ => a.writesLast
  | _ => true

/-- How many items a table constructor has that are stored by their position and known to be one
value, and how many other fields. -/
def fieldCounts : List Field → Nat × Nat
  | [] => (0, 0)
  | [.item e _] => if e.isMany then (0, 0) else (1, 0)
  | .item _ _ :: rest =>
    let (items, pairs) := fieldCounts rest
    (items + 1, pairs)
  | .pair .. :: rest =>
    let (items, pairs) := fieldCounts rest
    (items, pairs + 1)

/-- The names of the operands of a chain of concatenations. -/
def Expr.chainNames : Expr → List (Option Name)
  | .binary .concat a b _ _ => a.name? :: b.chainNames
  | e => [e.name?]

/-- The line of the last operator of a chain of concatenations. -/
def Expr.chainLine (line : Nat) : Expr → Nat
  | .binary .concat _ b line _ => b.chainLine line
  | _ => line

/-- A target of an assignment. -/
inductive Target where
  | place (p : Place)
  | field (object key : Operand) (name : Option Name)
deriving Inhabited

namespace Emit

/-- How many items of a table constructor are stored at once. -/
def itemBatch : Nat := 50

/-- Reaches a goal by code that puts a value into a register. -/
def into (goal : Goal) (line : Nat) (code : Nat → Emit PUnit) : Emit PUnit :=
  match goal with
  | .register r => lend (code r)
  | .jump sense label => lend do
    let t ← temp
    code t
    instr (.test (.register t) sense label) line
  | .operands => do
    let t ← temp
    lend (code t)
  | .values (.registers r n) => do
    lend (code r)
    nils (r + 1) line (n - 1)
  | .values _ | .tail => lend do
    let t ← temp
    code t

/-- Reaches a goal with the value of an operand. -/
def fromOperand (goal : Goal) (line : Nat) (a : Operand) : Emit PUnit :=
  match goal, a with
  | .jump sense label, .constant c =>
    if c.value.truthy == sense then instr (.jump label) line else return
  | .jump sense label, a => instr (.test a sense label) line
  | goal, a => into goal line fun r => instr (.move (.register r) a) line

/-- What reads an expression that needs no code. -/
def readable : Expr → Emit (Option Operand)
  | .localVar v => some <$> varOperand v
  | .upvalue _ n => return some (.upvalue n)
  | .paren a _ => readable a
  | e => return e.constant?.map Operand.constant

/-- What reads the value of an expression, for which code is written if it needs any. -/
def operand (e : Expr) (code : Goal → Emit PUnit) : Emit Operand := do
  match ← readable e with
  | some a => return a
  | none =>
    let t ← temp
    code (.register t)
    return .register t

/-- What reads the value of an expression from now on, whatever happens to captured variables. -/
def settled (e : Expr) (line : Nat) (code : Goal → Emit PUnit) : Emit Operand := do
  match ← operand e code with
  | .upvalue n => do
    let t ← temp
    instr (.move (.register t) (.upvalue n)) line
    return .register t
  | a => return a

/-- What reads the first of two operands. -/
def firstOperand (a b : Expr) (line : Nat) (code : Goal → Emit PUnit) : Emit Operand :=
  if b.isPlain then operand a code else settled a line code

/-- Calls a function in a register. -/
def finishCall (goal : Goal) (base count : Nat) (more : Bool) (line : Nat) (name : Option Name) :
    Emit PUnit :=
  match goal with
  | .tail => instr (.tailCall base count more) line [name]
  | .values want => instr (.call base count more want) line [name]
  | .jump sense label => instr (.call base count more (.test sense label)) line [name]
  | .register r => instr (.call base count more (.registers r 1)) line [name]
  | .operands => instr (.call base count more (.registers base 1)) line [name]

/-- Reaches a goal by a call. The register for an operand of a concatenation stays taken. -/
def callInto (goal : Goal) (code : Goal → Emit PUnit) : Emit PUnit :=
  match goal with
  | .operands => do
    let t ← temp
    lend (code (.register t))
  | goal => lend (code goal)

/-- The comparison of an operator, whether its operands change places, and the outcome that makes
the operator true; nothing for other operators. -/
def comparison? : BinaryOp → Option (Comparison × Bool × Bool)
  | .eq => some (.eq, false, true)
  | .ne => some (.eq, false, false)
  | .lt => some (.lt, false, true)
  | .le => some (.le, false, true)
  | .gt => some (.lt, true, true)
  | .ge => some (.le, true, true)
  | _ => none

/-- Puts into a register whether code jumps to a label. -/
def truthInto (r line : Nat) (code : Nat → Emit PUnit) : Emit PUnit := do
  let yes ← newLabel
  let done ← newLabel
  code yes
  instr (.move (.register r) (.constant (.bool false))) line
  instr (.jump done) line
  place yes
  instr (.move (.register r) (.constant (.bool true))) line
  place done

/-- Stores the pending items of a table constructor. -/
def flush (table first pending offset line : Nat) (more : Bool) : Emit PUnit :=
  if pending == 0 && !more then return
  else instr (.setList table first pending offset more) line

/-- Puts a value into a target. -/
def store (t : Target) (v : Operand) (line : Nat) : Emit PUnit :=
  match t with
  | .place p => instr (.move p v) line
  | .field object key name => instr (.setIndex object key v) line [name]

/-- Stores the values in a run of registers, the last one first. -/
def storeAll (line : Nat) : (targets : List Target) → (first : Nat) → Emit PUnit
  | [], _ => return
  | t :: rest, first => do
    storeAll line rest (first + 1)
    store t (.register first) line

/-- The variable that a target writes. -/
def assigned : Expr → Option Operand → Option Operand
  | .localVar _, a | .upvalue _ _, a => a
  | _, _ => none

/-- Whether two operands read the same variable. -/
def sameVariable : Operand → Operand → Bool
  | .register a, .register b => a == b
  | .box a, .box b => a == b
  | .upvalue a, .upvalue b => a == b
  | _, _ => false

/-- Keeps an operand from a later assignment to the variable that it reads. -/
def protect (vars : List Operand) (a : Operand) (line : Nat) : Emit Operand :=
  if vars.any (sameVariable a) then do
    let t ← temp
    instr (.move (.register t) a) line
    return .register t
  else return a

/-- The variables among the targets of an assignment. -/
def targetVariables : List Expr → Emit (List Operand)
  | [] => return []
  | e :: rest => do
    let later ← targetVariables rest
    match e with
    | .localVar v => return (← varOperand v) :: later
    | .upvalue _ n => return .upvalue n :: later
    | _ => return later

/-- A jump of the source. -/
def goto (n line : Nat) : Emit PUnit := do
  let s ← get
  let label := s.jumps.getD n 0
  closeFrom (s.levels.getD label 0) line
  instr (.jump label) line

mutual

/-- An expression; `line` is the line of an instruction that only fetches its value. -/
def expr : Expr → (line : Nat) → Goal → Emit PUnit
  | .nil, line, goal => fromOperand goal line (.constant .nil)
  | .bool b, line, goal => fromOperand goal line (.constant (.bool b))
  | .int i, line, goal => fromOperand goal line (.constant (.int i))
  | .float x, line, goal => fromOperand goal line (.constant (.float x.toBits))
  | .str s, line, goal => fromOperand goal line (.constant (.str s))
  | .localVar v, line, goal => do fromOperand goal line (← varOperand v)
  | .upvalue _ n, line, goal => fromOperand goal line (.upvalue n)
  | .varargs, line, goal =>
    match goal with
    | .values want => instr (.varargs want) line
    | goal => into goal line fun r => instr (.varargs (.registers r 1)) line
  | .index object objectLine key keyLine, line, goal =>
    into goal line fun r => do
      let o ← operand object (expr object objectLine)
      let k ← operand key (expr key keyLine)
      instr (.index r o k) line [object.name?]
  | .call f fLine arguments callLine, _, goal =>
    callInto goal fun goal => do
      let base ← temp
      expr f fLine (.register base)
      let (count, more) ← args arguments 0
      finishCall goal base count more callLine f.name?
  | .method object name nameLine arguments callLine, _, goal =>
    callInto goal fun goal => do
      let base ← temp
      let _ ← temp
      lend do
        let o ← operand object (expr object nameLine)
        instr (.method base o (.constant (.str name))) nameLine [object.name?]
      let (count, more) ← args arguments 1
      finishCall goal base count more callLine (some ⟨.method, name⟩)
  | .function b, line, goal => do
    let p := body b (← get).chunk
    let n := (← get).protos.size
    modify fun s => { s with protos := s.protos.push p }
    into goal line fun r => instr (.closure r n) line
  | .binary op a b opLine bLine, line, goal =>
    match op with
    | .concat =>
      match goal with
      | .operands => do
        let t ← temp
        expr a opLine (.register t)
        expr b bLine .operands
      | goal => into goal line fun r => do
        let first ← temp
        expr a opLine (.register first)
        expr b bLine .operands
        let names := a.name? :: b.chainNames
        instr (.concat r first names.length) (b.chainLine opLine) names
    | .arith op =>
      into goal line fun r => do
        let x ← firstOperand a b opLine (expr a opLine)
        let y ← operand b (expr b bLine)
        instr (.arith op r x y) opLine [a.name?, b.name?]
    | op =>
      let (c, swap, outcome) := (comparison? op).getD (.eq, false, true)
      let compare (sense : Bool) (label : Nat) : Emit PUnit := do
        let x ← firstOperand a b opLine (expr a opLine)
        let y ← operand b (expr b bLine)
        let (x, y) := if swap then (y, x) else (x, y)
        instr (.compare c x y (sense == outcome) label) opLine
      match goal with
      | .jump sense label => lend (compare sense label)
      | goal => into goal line fun r => truthInto r opLine (compare true)
  | .both a b opLine, line, goal =>
    match goal with
    | .jump true label => do
      let skip ← newLabel
      expr a opLine (.jump false skip)
      expr b line (.jump true label)
      place skip
    | .jump false label => do
      expr a opLine (.jump false label)
      expr b line (.jump false label)
    | goal => into goal line fun r => do
      let done ← newLabel
      expr a opLine (.register r)
      instr (.test (.register r) false done) opLine
      expr b line (.register r)
      place done
  | .either a b opLine, line, goal =>
    match goal with
    | .jump false label => do
      let skip ← newLabel
      expr a opLine (.jump true skip)
      expr b line (.jump false label)
      place skip
    | .jump true label => do
      expr a opLine (.jump true label)
      expr b line (.jump true label)
    | goal => into goal line fun r => do
      let done ← newLabel
      expr a opLine (.register r)
      instr (.test (.register r) true done) opLine
      expr b line (.register r)
      place done
  | .unary op a opLine aLine, line, goal =>
    match op, goal with
    | .not, .jump sense label => expr a aLine (.jump (!sense) label)
    | .not, goal => into goal line fun r => do
      let x ← operand a (expr a aLine)
      instr (.not r x) aLine
    | .length, goal => into goal line fun r => do
      let x ← operand a (expr a aLine)
      instr (.length r x) opLine [a.name?]
    | .negate, goal => into goal line fun r => do
      let x ← operand a (expr a aLine)
      instr (.arith .unm r x x) opLine [a.name?, a.name?]
    | .complement, goal => into goal line fun r => do
      let x ← operand a (expr a aLine)
      instr (.arith .bnot r x x) opLine [a.name?, a.name?]
  | .paren a aLine, line, goal =>
    match goal with
    | .jump sense label => expr a aLine (.jump sense label)
    | goal => into goal line fun r => expr a aLine (.register r)
  | .table items, line, goal =>
    into goal line fun r => do
      let (arrayCount, pairCount) := fieldCounts items
      instr (.newTable r arrayCount pairCount) line
      fields items r (← get).free 0 0

/-- The arguments of a call in new registers: how many there are besides the values at hand, and
whether there are values at hand. -/
def args : List Arg → (count : Nat) → Emit (Nat × Bool)
  | [], n => return (n, false)
  | [.mk e line], n => do
    if e.isMany then
      expr e line (.values .all)
      return (n, true)
    else
      let r ← temp
      expr e line (.register r)
      return (n + 1, false)
  | .mk e line :: rest, n => do
    let r ← temp
    expr e line (.register r)
    args rest (n + 1)

/-- As many values of a list as are wanted, in a run of registers. -/
def values : List Arg → (first count line : Nat) → Emit PUnit
  | [], first, count, line => nils first line count
  | [.mk e line], first, count, _ => do
    match count, e.isMany with
    | 0, true => expr e line (.values .none)
    | count, true => expr e line (.values (.registers first count))
    | 0, false => lend do
      let t ← temp
      expr e line (.register t)
    | count + 1, false =>
      expr e line (.register first)
      nils (first + 1) line count
  | .mk e line :: rest, first, count, last => do
    match count with
    | 0 =>
      lend do
        let t ← temp
        expr e line (.register t)
      values rest first 0 last
    | count + 1 =>
      expr e line (.register first)
      values rest (first + 1) count last

/-- The fields of a table constructor. -/
def fields : List Field → (table first pending offset : Nat) → Emit PUnit
  | [], table, first, pending, offset => flush table first pending offset 0 false
  | [.item e line], table, first, pending, offset => do
    if e.isMany then
      expr e line (.values .all)
      flush table first pending offset line true
    else
      let r ← temp
      expr e line (.register r)
      flush table first (pending + 1) offset line false
  | .item e line :: rest, table, first, pending, offset => do
    let r ← temp
    expr e line (.register r)
    if pending + 1 == itemBatch then
      flush table first itemBatch offset line false
      modify fun s => { s with free := first }
      fields rest table first 0 (offset + itemBatch)
    else fields rest table first (pending + 1) offset
  | .pair key keyLine value line :: rest, table, first, pending, offset => do
    lend do
      let k ← operand key (expr key keyLine)
      let v ← operand value (expr value line)
      instr (.setIndex (.register table) k v) line
    fields rest table first pending offset

/-- The targets of an assignment. The operands of fields are kept from assignments to the variables
among all targets. -/
def targets : List Expr → (vars : List Operand) → (line : Nat) → Emit (List Target)
  | [], _, _ => return []
  | e :: rest, vars, line => do
    let t ←
      match e with
      | .localVar v => Target.place <$> varPlace v
      | .upvalue _ n => pure (.place (.upvalue n))
      | .index object objectLine key keyLine => do
        let o ←
          match key with
          | .str _ => operand object (expr object objectLine)
          | _ => settled object objectLine (expr object objectLine)
        let o ← protect vars o objectLine
        let k ← settled key keyLine (expr key keyLine)
        let k ← protect vars k keyLine
        pure (.field o k object.name?)
      | _ => pure default
    let later ← targets rest vars line
    return t :: later

/-- Statements. -/
def stats : List Stat → Emit PUnit
  | [] => return
  | s :: rest => do
    lend (stat s)
    stats rest

/-- A statement. -/
def stat : Stat → Emit PUnit
  | .locals vars vs closes line => do
    let first := (vars.head?.map (·.slot)).getD 0
    values vs first vars.length line
    for v in vars do declare v line
    match closes with
    | some v => markClose v.slot v.name (← varOperand v) line
    | none => return
  | .assign ts vs line => do
    let found ← targets ts (← targetVariables ts) line
    let spread : Emit PUnit := do
      let first := (← get).free
      for _ in found do let _ ← temp
      values vs first found.length line
      storeAll line found first
    match vs with
    | [.mk e eLine] => do
      match found, e.isMany, e.writesLast with
      | [.place (.register r)], _, true => expr e eLine (.register r)
      | [t], _, _ => store t (← operand e (expr e eLine)) line
      | _, _, _ => spread
    | _ => spread
  | .call e line => expr e line (.values .none)
  | .block inner level => do
    stats inner
    closeBlock level 0
  | .while_ cond condLine inner level exit => do
    let start ← newLabel
    place start
    expr cond condLine (.jump false exit)
    stats inner
    closeBlock level condLine
    instr (.jump start) condLine
    place exit
  | .repeat_ inner cond condLine level exit => do
    let start ← newLabel
    let done ← newLabel
    place start
    stats inner
    expr cond condLine (.jump true done)
    closeFrom level condLine
    instr (.jump start) condLine
    place done
    closeBlock level condLine
    place exit
  | .if_ clauses otherwise level => do
    let done ← newLabel
    conditions clauses level done
    stats otherwise
    closeBlock level 0
    place done
  | .forNumber base v (.mk init initLine) (.mk limit limitLine) (.mk step stepLine)
      inner line doLine
      exit => do
    expr init initLine (.register base)
    expr limit limitLine (.register (base + 1))
    expr step stepLine (.register (base + 2))
    let start ← newLabel
    instr (.forPrepare base exit) doLine
    place start
    declare v line
    stats inner
    closeBlock base line
    instr (.forLoop base start) line
    place exit
  | .forEach base vars vs inner line exit => do
    values vs base 4 line
    markClose (base + 3) "(for state)".toUTF8 (.register (base + 3)) line
    let start ← newLabel
    let next ← newLabel
    instr (.jump next) line
    place start
    for v in vars do declare v line
    stats inner
    closeBlock (base + 4) line
    place next
    instr (.iterate base vars.length) line
    instr (.iterateLoop base start) line
    place exit
    closeBlock base line
  | .localFunction v b => do
    let p := body b (← get).chunk
    let n := (← get).protos.size
    modify fun s => { s with protos := s.protos.push p }
    if ← isCaptured v then
      instr (.freshBox v.slot (.constant .nil)) 0
      let t ← temp
      instr (.closure t n) 0
      instr (.move (.box v.slot) (.register t)) 0
    else instr (.closure v.slot n) 0
  | .ret vs line => do
    let closes := !(← get).closing.isEmpty
    let leave (first count : Nat) (more : Bool) : Emit PUnit := do
      if closes then
        instr (.stash first count more) line
        instr (.close 0) line
        instr (.ret 0 0 true) line
      else instr (.ret first count more) line
    match vs with
    | [.mk e eLine] => do
      match e.isMany, closes with
      | true, false =>
        match e with
        | .varargs => do
          instr (.varargs .all) line
          leave 0 0 true
        | e => expr e eLine .tail
      | true, true => do
        expr e eLine (.values .all)
        leave 0 0 true
      | false, _ => do
        let r ← temp
        expr e eLine (.register r)
        leave r 1 false
    | vs => do
      let first := (← get).free
      let (count, more) ← args vs 0
      leave first count more
  | .goto n line => goto n line
  | .label n => place n

/-- The clauses of a conditional statement. -/
def conditions : List Clause → (level done : Nat) → Emit PUnit
  | [], _, _ => return
  | .mk cond condLine inner :: rest, level, done => do
    let next ← newLabel
    expr cond condLine (.jump false next)
    stats inner
    closeBlock level condLine
    instr (.jump done) condLine
    place next
    conditions rest level done

/-- A function. -/
def body : Body → (chunk : ByteArray) → Proto
  | .mk parameters isVararg captured captures jumps labels slots line endLine inner, chunk =>
    let code : Emit PUnit := do
      for v in parameters do declare v line
      stats inner
      closeBlock 0 endLine
      instr (.ret 0 0 false) endLine
    let (_, s) := code.run
      { labels := Array.replicate labels.size 0, levels := labels, jumps := jumps,
        captured := captured, free := slots, registers := slots, chunk := chunk }
    s.finish captures parameters.length isVararg slots

end

end Emit

/-- The code of a source whose chunk has a name. -/
def compile (chunk source : ByteArray) : Except SourceFault Proto :=
  match Parser.chunk source with
  | .ok b => .ok (Emit.body b chunk)
  | .error f => .error f

end StoryPack.Script
