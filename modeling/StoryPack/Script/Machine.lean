/-
The machine that runs scripts.

A state has the heap, the stack of calls, and what is going on at its top: an
instruction is next, values are on their way back to a caller, or an error is on
its way out.  `State.step` makes one move; `State.run` makes as many as its
patience allows.

Calls by library functions and operators nest to a bounded depth, and all script
functions together have a bounded number of registers.  A budget counts
instructions: when it is used up, the run is marked as tripped and an error is
raised, again and again after as many further instructions.

* `Frame`, `Task` — what waits on the stack;
* `State.call` — calls any value;
* `State.raise` — an error, which first goes to the message handler in force;
* `State.step`, `State.run` — the moves.
-/
import StoryPack.Script.Library
import StoryPack.Script.Library.Names

namespace StoryPack.Script

/-- A call of a script function. -/
structure Frame where
  proto : Proto
  upvalues : Array Nat
  /-- The next instruction. -/
  pc : Nat
  registers : Array Value
  boxes : Array Nat
  varargs : List Value
  /-- The values at hand for the next instruction. -/
  hand : List Value
  /-- The variables to be closed, innermost first, with their levels. -/
  closing : List (Nat × Value)
  /-- What becomes of the values that a called function returns. -/
  want : Want
deriving Inhabited

/-- Why a run ends without values. -/
inductive Failure where
  | thrown (v : Value)
  | memory
deriving Inhabited

/-- How the rest of an action goes on. -/
abbrev Rest := Heap → List Value → Run (List Value)

/-- What waits for the values of a call. -/
inductive Task where
  /-- A script function. -/
  | script (f : Frame)
  /-- A library function. -/
  | library (f : Option Builtin) (rest : Rest)
  /-- An operator of the script function below. -/
  | operation (rest : Rest)
  /-- A protected call, with its message handler, and whether instructions were counted before. -/
  | guard (handler : Option Value) (counting : Bool)
  /-- A message handler is at work. -/
  | handling
  /-- A variable is being closed because of an error. -/
  | closing (failure : Failure) (rest : List (Nat × Value))
  /-- The bottom; `closes` says whether an error that comes here closes variables on its way. -/
  | root (closes : Bool)
deriving Inhabited

/-- How a run ends. -/
inductive Ending where
  | values (vs : List Value)
  | failed (e : Failure)
deriving Inhabited

/-- Who calls or fails at the top of the stack. -/
inductive Origin where
  /-- A library function. -/
  | library (f : Option Builtin)
  /-- The instruction of the script function on top of the stack. -/
  | operation
deriving DecidableEq, Inhabited

/-- What goes on at the top of the stack. -/
inductive Mode where
  /-- An instruction is next. -/
  | execute (f : Frame)
  /-- A value is about to be called. -/
  | call (o : Origin) (f : Value) (args : List Value)
  /-- Values are on their way to the top of the stack. -/
  | deliver (vs : List Value)
  /-- An error has been raised. -/
  | raise (e : Failure)
  /-- An error is on its way out. -/
  | unwind (e : Failure)
  | ended (e : Ending)
deriving Inhabited

/-- The state of the machine. -/
structure State where
  heap : Heap
  stack : List Task
  mode : Mode
  /-- The budget; `0` for none. -/
  budget : Nat := 0
  /-- The instructions left of it. -/
  left : Nat := 0
  /-- Whether instructions are counted. -/
  counting : Bool := true
  /-- How deeply calls by library functions and operators nest. -/
  depth : Nat := 1
  /-- The registers in use. -/
  slots : Nat := 0
  /-- How many message handlers are at work. -/
  handlers : Nat := 0
  /-- What the host holds besides. -/
  held : List Value := []
deriving Inhabited

/-- How deeply calls by library functions and operators may nest. -/
def depthLimit : Nat := 200

/-- How many registers may be in use. The values that library functions have at hand are not among
them. -/
def slotLimit : Nat := 1000000

/-- What an overrun of the budget is answered with. -/
def overrunMessage : String := "Script overran resource limits."

namespace Frame

/-- The value of an operand. -/
@[inline] def fetch (f : Frame) (h : Heap) : Operand → Value
  | .register r => f.registers.getD r .nil
  | .constant c => c.value
  | .upvalue u => h.cell (f.upvalues.getD u 0)
  | .box b => h.cell (f.boxes.getD b 0)

/-- Writes a register. -/
@[inline] def put (f : Frame) (r : Nat) (v : Value) : Frame :=
  { f with registers := f.registers.set! r v }

/-- Writes registers from `r` on, missing values as `nil`. -/
def putAll (f : Frame) (r : Nat) : (count : Nat) → List Value → Frame
  | 0, _ => f
  | n + 1, [] => putAll (f.put r .nil) (r + 1) n []
  | n + 1, v :: vs => putAll (f.put r v) (r + 1) n vs

/-- Goes to an instruction. -/
@[inline] def goto (f : Frame) (pc : Nat) : Frame := { f with pc := pc }

/-- A run of registers, with the values at hand after them when `more`. -/
def gather (f : Frame) (first count : Nat) (more : Bool) : List Value :=
  (f.registers.extract first (first + count)).toList ++ (if more then f.hand else [])

/-- The position of the instruction at work. -/
def position (f : Frame) : ByteArray := f.proto.position (f.pc - 1)

/-- The name of an operand of the instruction at work, as a remark. -/
def remark (f : Frame) (which : Nat) : ByteArray :=
  match f.proto.nameAt (f.pc - 1) which with
  | some n => n.remark
  | none => ByteArray.empty

/-- The name under which the instruction at work calls a function. -/
def calledName (f : Frame) : Option Name :=
  let event (s : String) : Option Name := some ⟨.metamethod, s.toUTF8⟩
  match f.proto.code.getD (f.pc - 1) (.jump 0) with
  | .call .. | .tailCall .. => f.proto.nameAt (f.pc - 1) 0
  | .iterate .. => some ⟨.iterator, "for iterator".toUTF8⟩
  | .index .. | .method .. => event "index"
  | .setIndex .. => event "newindex"
  | .arith op .. => event op.eventName
  | .length .. => event "len"
  | .concat .. => event "concat"
  | .compare .eq .. => event "eq"
  | .compare .lt .. => event "lt"
  | .compare .le .. => event "le"
  | .close .. => event "close"
  | _ => none

end Frame

/-- The name of the function that the top of the stack has called. -/
def calledName : List Task → Option Name
  | .script f :: _ => f.calledName
  | .operation _ :: .script f :: _ => f.calledName
  | _ => none

/-- The position of the function `level` calls up; nothing when it is no script function. -/
def positionAt : List Task → (level : Nat) → ByteArray
  | [], _ => ByteArray.empty
  | .script f :: rest, level => if level ≤ 1 then f.position else positionAt rest (level - 1)
  | .library _ _ :: rest, level | .guard _ _ :: rest, level =>
    if level ≤ 1 then ByteArray.empty else positionAt rest (level - 1)
  | _ :: rest, level => positionAt rest level

/-- The message for a bad argument. -/
def argumentMessage (stack : List Task) (f : Option Builtin) (n : Nat) (m : ByteArray) :
    ByteArray :=
  let bad (n : Nat) (name : ByteArray) : ByteArray :=
    ("bad argument #" ++ toString n ++ " to '").toUTF8 ++ name ++ "' (".toUTF8 ++ m ++ ")".toUTF8
  match calledName stack with
  | some name =>
    if name.kind = .method then
      if n ≤ 1 then
        "calling '".toUTF8 ++ name.text ++ "' on bad self (".toUTF8 ++ m ++ ")".toUTF8
      else bad (n - 1) name.text
    else bad n name.text
  | none => bad n ((f.bind Builtin.qualifiedName?).getD "?").toUTF8

/-- The position before the message of an operator, and the remark on one of its operands. -/
def operatorPlace (stack : List Task) (o : Origin) (which : Nat) : ByteArray × ByteArray :=
  match o, stack with
  | .operation, .script f :: _ => (f.position, f.remark which)
  | _, _ => (ByteArray.empty, ByteArray.empty)

/-- The position before the message about a value that can not be called, and the remark on it. -/
def calledPlace (stack : List Task) (o : Origin) : ByteArray × ByteArray :=
  match o, stack with
  | .operation, .script f :: _ | .operation, .operation _ :: .script f :: _ =>
    (f.position, (f.calledName.map Name.remark).getD ByteArray.empty)
  | _, _ => (ByteArray.empty, ByteArray.empty)

/-- The failure that an error makes. -/
def resolve (h : Heap) (stack : List Task) (o : Origin) (e : Raised) : Heap × Failure :=
  let thrown (b : ByteArray) : Heap × Failure := (h.countString b.size, .thrown (.str b))
  match e with
  | .value v => (h, .thrown v)
  | .located level m => thrown (positionAt stack level ++ m)
  | .argument n m =>
    let f := match o with
      | .library f => f
      | .operation => none
    thrown (positionAt stack 1 ++ argumentMessage stack f n m)
  | .operation m => thrown ((operatorPlace stack o 0).1 ++ m)
  | .operand verb t which =>
    let (place, remark) := operatorPlace stack o which
    thrown (place ++ ("attempt to " ++ verb ++ " a ").toUTF8 ++ t ++ " value".toUTF8 ++ remark)
  | .notIntegral which =>
    let (place, remark) := operatorPlace stack o which
    thrown (place ++ "number".toUTF8 ++ remark ++ " has no integer representation".toUTF8)
  | .host f =>
    let (h, r) := h.newFault f
    (h, .thrown (.fault r))
  | .memory => (h, .memory)

/-- The message handler in force; none outside protected calls. -/
def handler? : List Task → Option Value
  | [] => none
  | .guard f _ :: _ => f
  | _ :: rest => handler? rest

/-- Whether an error would close variables on its way out. -/
def closesOnError : List Task → Bool
  | [] => false
  | .guard _ _ :: _ => true
  | .root closes :: _ => closes
  | _ :: rest => closesOnError rest

/-- Whether instructions were counted before the innermost protected call. -/
def countingBefore : List Task → Bool
  | [] => true
  | .guard _ counting :: _ => counting
  | _ :: rest => countingBefore rest

namespace State

/-- Starts to take an error out of the calls; without anything to catch it or to be closed, the run
ends. -/
def unwinding (s : State) (e : Failure) : State :=
  if closesOnError s.stack then
    { s with mode := .unwind e, counting := countingBefore s.stack }
  else { s with mode := .ended (.failed e) }

/-- The error of a stack that is too deep for its own error handling. -/
def tooDeep : Failure := .thrown (.ofString "error in error handling")

/-- Enters a script function. -/
@[inline] def enter (s : State) (c : Closure) (args : List Value) : State :=
  let p := c.proto
  let registers := fill (Array.replicate p.registers .nil) p.parameters 0 args
  let f : Frame :=
    { proto := p, upvalues := c.upvalues, pc := 0, registers := registers,
      boxes := if p.boxes == 0 then #[] else Array.replicate p.boxes 0,
      varargs := if p.isVararg then args.drop p.parameters else [], hand := [], closing := [],
      want := .none }
  { s with mode := .execute f, slots := s.slots + p.registers + 2 }
where
  /-- Puts the arguments into the first registers. -/
  fill (registers : Array Value) : (count : Nat) → (i : Nat) → List Value → Array Value
    | 0, _, _ => registers
    | _ + 1, _, [] => registers
    | n + 1, i, v :: vs => fill (registers.set! i v) n (i + 1) vs

/-- Whether there is no room for another script function. -/
@[inline] def isFull (s : State) (p : Proto) : Bool :=
  slotLimit + (if s.handlers == 0 then 0 else 200) < s.slots + p.registers + 2

/-- Goes on with the next instruction of a function. -/
@[inline] def go (s : State) (f : Frame) : State := { s with mode := .execute f }

/-- Raises an error. -/
@[inline] def raise (s : State) (e : Failure) : State := { s with mode := .raise e }

/-- Fails because of an error of a library function or an instruction. -/
def fail (s : State) (o : Origin) (e : Raised) : State :=
  let (h, e) := resolve s.heap s.stack o e
  { s with heap := h }.raise e

/-- Calls a value one level deeper, on behalf of a task that is put on the stack. -/
def nest (s : State) (t : Task) (o : Origin) (f : Value) (args : List Value) : State :=
  let depth := s.depth + 1
  if depth == depthLimit then
    let (h, e) := resolve s.heap s.stack o (.operation "C stack overflow".toUTF8)
    { s with heap := h, stack := t :: s.stack, depth := depth }.raise e
  else
    let s := { s with stack := t :: s.stack, depth := depth }
    if depth ≥ depthLimit * 11 / 10 then s.unwinding tooDeep
    else { s with mode := .call o f args }

/-- Goes on with the course of an action. The heap of the state is taken from the course. -/
def follow (s : State) (o : Origin) (r : Run (List Value)) : State :=
  match r with
  | .done h vs => { s with heap := h, mode := .deliver vs }
  | .failed h e => { s with heap := h }.fail o e
  | .call h f args rest =>
    let t : Task :=
      match o with
      | .library b => .library b rest
      | .operation => .operation rest
    { s with heap := h }.nest t o f args

/-- Begins an action. -/
@[inline] def perform (s : State) (o : Origin) (a : Action (List Value)) : State :=
  let heap := s.heap
  { s with heap := {} }.follow o (a heap)

/-- Fails because a value can not be called. -/
def notCallable (s : State) (o : Origin) (f : Value) : State :=
  let (place, remark) := calledPlace s.stack o
  let m := place ++ "attempt to call a ".toUTF8 ++ s.heap.typeName f ++ " value".toUTF8 ++ remark
  { s with heap := s.heap.countString m.size }.raise (.thrown (.str m))

/-- Enters a script function if there is room for it. -/
@[inline] def enterIfRoom (s : State) (r : Nat) (args : List Value) : State :=
  let c := (s.heap.closures[r]?).getD default
  if s.isFull c.proto then s.fail .operation (.operation "stack overflow".toUTF8)
  else s.enter c args

/-- The function that is called when a value is, and its arguments: a value that is no function is
called through its metatable, as its first argument. It ends at a value that can not be called;
`none` when the room for arguments does not do. -/
def calledThrough (h : Heap) : (room : Nat) → Value → List Value → Option (Value × List Value)
  | 0, _, _ => none
  | room + 1, f, args =>
    match f with
    | .function _ => some (f, args)
    | f =>
      match h.metafield f Event.call with
      | .nil => some (f, args)
      | g => calledThrough h room g (f :: args)

/-- Calls a value. Protected calls put a guard on the stack. -/
def call (s : State) (o : Origin) (f : Value) (args : List Value) : State :=
  match f with
  | .function (.closure r) => s.enterIfRoom r args
  | .function (.builtin (.base .pcall)) =>
    match args with
    | [] => s.fail (.library (some (.base .pcall))) (.argument 1 "value expected".toUTF8)
    | g :: args => s.nest (.guard none s.counting) (.library none) g args
  | .function (.builtin (.base .xpcall)) =>
    match args with
    | g :: .function m :: args =>
      s.nest (.guard (some (.function m)) s.counting) (.library none) g args
    | args =>
      s.fail (.library (some (.base .xpcall)))
        (.argument 2 ("function expected, got ".toUTF8 ++ Argument.typeName s.heap args 2))
  | .function (.builtin b) => s.perform (.library (some b)) (b.run args)
  | .function (.matcher r) => s.perform (.library none) (Library.nextMatch r)
  | f =>
    match calledThrough s.heap (slotLimit + 1 - s.slots) f args with
    | none => s.fail o (.operation "stack overflow".toUTF8)
    | some (.function g, args) => { s with mode := .call o (.function g) args }
    | some (f, _) => s.notCallable o f

/-- Takes up a raised error: the message handler in force is called first, on top of the calls that
have failed. -/
def raised (s : State) (e : Failure) : State :=
  match e, handler? s.stack with
  | .thrown v, some f =>
    { s with handlers := s.handlers + 1 }.nest .handling (.library none) f [v]
  | e, _ => s.unwinding e

/-- Runs an operator for a script function, which wants its values as it says. -/
def operate (s : State) (f : Frame) (want : Want) (a : Action (List Value)) : State :=
  { s with stack := .script { f with want := want } :: s.stack }.perform .operation a

/-- Runs an operator with one result for a register. -/
@[inline] def operate1 (s : State) (f : Frame) (dst : Nat) (a : Action Value) : State :=
  s.operate f (.registers dst 1) do pure [← a]

/-- The instruction budget is used up. The function does not go on: it waits only to be left. -/
def trip (s : State) (f : Frame) : State :=
  let (h, r) := { s.heap with tripped := true }.newFault (.runtime overrunMessage.toUTF8)
  let s := { s with
    heap := h, left := s.budget, counting := false,
    stack := .script { f with want := .result } :: s.stack }
  s.raise (.thrown (.fault r))

/-- The loop error for a value that is no number. -/
def loopError (h : Heap) (what : String) (v : Value) : Raised :=
  .operation
    (("bad 'for' " ++ what ++ " (number expected, got ").toUTF8 ++ h.typeName v ++ ")".toUTF8)

/-- How a numeric loop starts: it fails, does not run, or runs with a count of further rounds (for
integers) or a limit (for doubles). -/
inductive LoopStart where
  | error (e : Raised)
  | skip
  | start (init limit step : Value)

/-- The limit of an integer loop as an integer; `none` when the loop does not run. -/
def integerLimit (limit : Value) (step : Int64) : Except Unit (Option Int64) :=
  match Numeral.ofValue? limit with
  | some (.int i) => .ok (some i)
  | some (.float x) =>
    match (if step < 0 then ceilOf? x else floorOf? x) with
    | some i =>
      if isInt64 i then .ok (some (Int64.ofInt i))
      else if 0 < i then .ok (if step < 0 then none else some Int64.maxValue)
      else .ok (if 0 < step then none else some Int64.minValue)
    | none =>
      if 0.0 < x then .ok (if step < 0 then none else some Int64.maxValue)
      else .ok (if 0 < step then none else some Int64.minValue)
  | _ => .error ()

/-- Prepares a numeric loop. -/
def loopStart (h : Heap) (init limit step : Value) : LoopStart :=
  match init, step with
  | .int i, .int k =>
    if k == 0 then .error (.operation "'for' step is zero".toUTF8)
    else
      match integerLimit limit k with
      | .error _ => .error (loopError h "limit" limit)
      | .ok none => .skip
      | .ok (some l) =>
        if (if 0 < k then l < i else i < l) then .skip
        else
          let span := if 0 < k then l.toInt - i.toInt else i.toInt - l.toInt
          .start (.int i) (.int (Int64.ofInt (span / k.toInt.natAbs))) (.int k)
  | _, _ =>
    match Numeral.toFloat? limit with
    | none => .error (loopError h "limit" limit)
    | some l =>
      match Numeral.toFloat? step with
      | none => .error (loopError h "step" step)
      | some k =>
        match Numeral.toFloat? init with
        | none => .error (loopError h "initial value" init)
        | some i =>
          if k == 0.0 then .error (.operation "'for' step is zero".toUTF8)
          else if (if 0.0 < k then l < i else i < l) then .skip
          else .start (.float i) (.float l) (.float k)

/-- Stores a list in a table, under the integers after `offset`. -/
def storeList (h : Heap) (r : Nat) (offset : Nat) (vs : List Value) : Heap :=
  let before := (h.table r).weight
  let last := min (offset + vs.length) Table.maxArray
  let h := { h with tables := h.tables.modify r fun t =>
    (if t.array.size < last then t.resize last t.capacity else t).setFrom offset vs }
  let after := (h.table r).weight
  { h with used := h.used + after - before }

/-- A new closure in a function. -/
def makeClosure (h : Heap) (f : Frame) (p : Proto) : Heap × Nat :=
  let cells := p.captures.map fun
    | .box b => f.boxes.getD b 0
    | .upvalue u => f.upvalues.getD u 0
  h.newClosure ⟨p, cells⟩

/-- The instruction of a call. -/
@[inline] def callFrom (s : State) (f : Frame) (fn count : Nat) (more : Bool) (want : Want) :
    State :=
  let callee := f.registers.getD fn .nil
  let args := f.gather (fn + 1) count more
  let s := { s with stack := .script { f with want := want, hand := [] } :: s.stack }
  { s with mode := .call .operation callee args }

/-- Calls in place of the function itself. A library function is called from it. -/
def tailCallFrom (s : State) (f : Frame) (fn count : Nat) (more : Bool) : State :=
  let callee := f.registers.getD fn .nil
  let args := f.gather (fn + 1) count more
  let (callee, args) := throughMeta s.heap 100 callee args
  match callee with
  | .function (.closure r) =>
    let c := (s.heap.closures[r]?).getD default
    let s := { s with slots := s.slots - (f.proto.registers + 2) }
    s.enter c args
  | _ =>
    let s := { s with stack := .script { f with want := .result, hand := [] } :: s.stack }
    { s with mode := .call .operation callee args }
where
  /-- Replaces a value that is called through its metatable. -/
  throughMeta (h : Heap) : (fuel : Nat) → Value → List Value → Value × List Value
    | 0, f, args => (f, args)
    | fuel + 1, f, args =>
      match f with
      | .function _ => (f, args)
      | f =>
        match h.metafield f Event.call with
        | .nil => (f, args)
        | g => throughMeta h fuel g (f :: args)

/-- One instruction. -/
def execute (s : State) (f : Frame) (i : Instr) : State :=
  match i with
  | .move (.register dst) src =>
    let v := f.fetch s.heap src
    s.go (f.put dst v)
  | .move (.box b) src =>
    let v := f.fetch s.heap src
    { s with heap := s.heap.setCell (f.boxes.getD b 0) v, mode := .execute f }
  | .move (.upvalue u) src =>
    let v := f.fetch s.heap src
    { s with heap := s.heap.setCell (f.upvalues.getD u 0) v, mode := .execute f }
  | .freshBox b src =>
    let v := f.fetch s.heap src
    let (h, r) := s.heap.newCell v
    { s with heap := h, mode := .execute { f with boxes := f.boxes.set! b r } }
  | .newTable dst array slots =>
    let (h, r) := s.heap.newTable (Table.sized array slots)
    { s with heap := h, mode := .execute (f.put dst (.table r)) }
  | .setList table first count offset more =>
    match f.registers.getD table .nil with
    | .table r =>
      -- a table that is being built has no metatable yet
      if (s.heap.table r).metatable.isNone then
        let vs := f.gather first count more
        { s with heap := storeList s.heap r offset vs, mode := .execute { f with hand := [] } }
      else s.go f
    | _ => s.go f
  | .index dst object key =>
    let o := f.fetch s.heap object
    let k := f.fetch s.heap key
    match o with
    | .table r =>
      let v := (s.heap.table r).getValue k
      if v.isNil then s.operate1 f dst (Operation.index o k)
      else s.go (f.put dst v)
    | _ => s.operate1 f dst (Operation.index o k)
  | .setIndex object key value =>
    let o := f.fetch s.heap object
    let k := f.fetch s.heap key
    let v := f.fetch s.heap value
    let plain :=
      match o with
      | .table r => (s.heap.table r).metatable.isNone
      | _ => false
    match plain, o, k.toKey? with
    | true, .table r, some k => { s with heap := s.heap.setKey r k v, mode := .execute f }
    | _, _, _ => s.operate f .none do
        Operation.setIndex o k v
        pure []
  | .method dst object key =>
    let o := f.fetch s.heap object
    let k := f.fetch s.heap key
    s.operate1 (f.put (dst + 1) o) dst (Operation.index o k)
  | .arith op dst a b =>
    let x := f.fetch s.heap a
    let y := f.fetch s.heap b
    match arithmetic op x y with
    | .value v => s.go (f.put dst v)
    | _ => s.operate1 f dst (Operation.arith op x y)
  | .not dst a =>
    let v := f.fetch s.heap a
    s.go (f.put dst (.bool !v.truthy))
  | .length dst a =>
    let v := f.fetch s.heap a
    s.operate1 f dst (Operation.length v)
  | .concat dst first count =>
    s.operate1 f dst (Operation.concat (f.gather first count false))
  | .jump target => s.go (f.goto target)
  | .test a sense target =>
    let v := f.fetch s.heap a
    s.go (if v.truthy == sense then f.goto target else f)
  | .compare op a b sense target =>
    let x := f.fetch s.heap a
    let y := f.fetch s.heap b
    let plain : Option Bool :=
      match op with
      | .lt => lessThan? x y
      | .le => lessEqual? x y
      | .eq =>
        match x, y with
        | .table _, .table _ => none
        | _, _ => some (rawEqual x y)
    match plain with
    | some r => s.go (if r == sense then f.goto target else f)
    | none => s.operate f (.test sense target) do pure [.bool (← Operation.compare op x y)]
  | .closure dst p =>
    let (h, r) := makeClosure s.heap f (f.proto.protos.getD p default)
    { s with heap := h, mode := .execute (f.put dst (.function (.closure r))) }
  | .varargs want =>
    match want with
    | .registers first count => s.go (f.putAll first count f.varargs)
    | _ => s.go { f with hand := f.varargs }
  | .call fn count more want => s.callFrom f fn count more want
  | .tailCall fn count more => s.tailCallFrom f fn count more
  | .ret first count more =>
    let vs := f.gather first count more
    { s with mode := .deliver vs, slots := s.slots - (f.proto.registers + 2) }
  | .stash first count more =>
    let vs := f.gather first count more
    s.go { f with hand := vs }
  | .forPrepare base target =>
    let init := f.registers.getD base .nil
    let limit := f.registers.getD (base + 1) .nil
    let step := f.registers.getD (base + 2) .nil
    match loopStart s.heap init limit step with
    | .error e => { s with stack := .script f :: s.stack }.fail .operation e
    | .skip => s.go (f.goto target)
    | .start init limit step =>
      s.go ((((f.put base init).put (base + 1) limit).put (base + 2) step).put (base + 3) init)
  | .forLoop base target =>
    match f.registers.getD base .nil, f.registers.getD (base + 1) .nil,
        f.registers.getD (base + 2) .nil with
    | .int i, .int count, .int step =>
      if count == 0 then s.go f
      else
        let i := i + step
        s.go ((((f.put base (.int i)).put (base + 1) (.int (count - 1))).put (base + 3)
          (.int i)).goto target)
    | .float x, .float limit, .float step =>
      let x := x + step
      if (if 0.0 < step then x ≤ limit else limit ≤ x) then
        s.go (((f.put base (.float x)).put (base + 3) (.float x)).goto target)
      else s.go f
    | _, _, _ => s.go f
  | .iterate base count =>
    let g := f.registers.getD base .nil
    let args := [f.registers.getD (base + 1) .nil, f.registers.getD (base + 2) .nil]
    { s with
      stack := .script { f with want := .registers (base + 4) count } :: s.stack
      mode := .call .operation g args }
  | .iterateLoop base target =>
    let v := f.registers.getD (base + 4) .nil
    if v.isNil then s.go f
    else s.go ((f.put (base + 2) v).goto target)
  | .markClose level a =>
    let v := f.fetch s.heap a
    if !v.truthy then s.go f
    else if (s.heap.metafield v Event.close).isNil then
      let name := (f.proto.closeNames.lookup level).getD "?".toUTF8
      { s with stack := .script f :: s.stack }.fail .operation
        (.operation ("variable '".toUTF8 ++ name ++ "' got a non-closable value".toUTF8))
    else s.go { f with closing := (level, v) :: f.closing }
  | .close level =>
    match f.closing with
    | (l, v) :: rest =>
      if level ≤ l then
        let handler := s.heap.metafield v Event.close
        let s := { s with stack := .script { f with closing := rest, want := .again } :: s.stack }
        s.nest (.operation fun h vs => .done h vs) .operation handler [v, .nil]
      else s.go f
    | [] => s.go f

/-- Hands values to a script function that waits for them. -/
@[inline] def resume (s : State) (f : Frame) (vs : List Value) : State :=
  match f.want with
  | .none => s.go f
  | .registers first count => s.go (f.putAll first count vs)
  | .all => s.go { f with hand := vs }
  | .test sense target =>
    let truth := (vs.headD .nil).truthy
    s.go (if truth == sense then f.goto target else f)
  | .result => { s with mode := .deliver vs, slots := s.slots - (f.proto.registers + 2) }
  | .again => s.go (f.goto (f.pc - 1))

/-- Closes the next of the variables of a function that an error has left, or goes on outward. -/
def closeNext (s : State) (e : Failure) : List (Nat × Value) → State
  | [] => { s with mode := .unwind e }
  | (_, v) :: rest =>
    let thrown :=
      match e with
      | .thrown v => v
      | .memory => .ofString memoryMessage
    s.nest (.closing e rest) (.library none) (s.heap.metafield v Event.close) [v, thrown]

/-- Hands values to the top of the stack. -/
def deliver (s : State) (vs : List Value) : State :=
  match s.stack with
  | [] => { s with mode := .ended (.values vs) }
  | t :: rest =>
    let s := { s with stack := rest, mode := .deliver [] }
    match t with
    | .script f => s.resume f vs
    | .library b k => { s with depth := s.depth - 1 }.perform (.library b) fun h => k h vs
    | .operation k => { s with depth := s.depth - 1 }.perform .operation fun h => k h vs
    | .guard _ _ => { s with depth := s.depth - 1, mode := .deliver (.bool true :: vs) }
    | .handling =>
      { s with depth := s.depth - 1, handlers := s.handlers - 1 }.unwinding
        (.thrown (vs.headD .nil))
    | .closing e more => { s with depth := s.depth - 1 }.closeNext e more
    | .root _ => { s with mode := .ended (.values vs) }

/-- Takes an error out of the top of the stack. -/
def unwindTop (s : State) (e : Failure) : State :=
  match s.stack with
  | [] => { s with mode := .ended (.failed e) }
  | t :: rest =>
    let s := { s with stack := rest }
    match t with
    | .script f => { s with slots := s.slots - (f.proto.registers + 2) }.closeNext e f.closing
    | .guard _ _ =>
      let v :=
        match e with
        | .thrown v => v
        | .memory => .ofString memoryMessage
      { s with depth := s.depth - 1, mode := .deliver [.bool false, v] }
    | .handling => { s with depth := s.depth - 1, handlers := s.handlers - 1 }
    | .library _ _ | .operation _ => { s with depth := s.depth - 1 }
    | .closing _ more => { s with depth := s.depth - 1 }.closeNext e more
    | .root _ => { s with mode := .ended (.failed e) }

/-- Makes one move. -/
def step (s : State) : State :=
  match s.mode with
  | .execute f =>
    if s.budget != 0 && s.counting then
      if s.left ≤ 1 then { s with mode := .deliver [] }.trip { f with pc := f.pc + 1 }
      else advance { s with left := s.left - 1, mode := .deliver [] } f
    else advance { s with mode := .deliver [] } f
  | .call o f args => { s with mode := .deliver [] }.call o f args
  | .deliver vs => s.deliver vs
  | .raise e => s.raised e
  | .unwind e => s.unwindTop e
  | .ended _ => s
where
  /-- Runs the next instruction of a function. -/
  @[inline] advance (s : State) (f : Frame) : State :=
    match f.proto.code[f.pc]? with
    | some i => s.execute { f with pc := f.pc + 1 } i
    | none => { s with mode := .deliver [] }

end State

end StoryPack.Script
