/-
The trees of parsed scripts.

Names are resolved: a local variable is a slot of its function together with the
number of its declaration, and a variable of an outer function is one of the
captured variables.  Where an expression can fail, the tree also has the line at
which the failure is reported.

* `Expr`, `Stat` — expressions and statements;
* `Body` — a function.
-/
import StoryPack.Script.Code

namespace StoryPack.Script

/-- The binary operators; `and` and `or` are apart. -/
inductive BinaryOp where
  | arith (op : Arith)
  | concat
  | eq | ne | lt | le | gt | ge
deriving DecidableEq, Inhabited

/-- The unary operators. -/
inductive UnaryOp where
  | negate | not | length | complement
deriving DecidableEq, Inhabited

/-- A declared local variable: its slot, and the number of its declaration in the function. -/
structure LocalVar where
  name : ByteArray
  slot : Nat
  id : Nat
deriving Inhabited

/-- What an inner function captures. -/
inductive CaptureSource where
  /-- A local variable of the enclosing function. -/
  | slot (n : Nat)
  /-- A captured variable of the enclosing function. -/
  | upvalue (n : Nat)
deriving DecidableEq, Inhabited

mutual

/-- An expression. -/
inductive Expr where
  | nil
  | bool (b : Bool)
  | int (i : Int64)
  | float (x : Float)
  | str (s : ByteArray)
  | varargs
  | localVar (v : LocalVar)
  | upvalue (name : ByteArray) (n : Nat)
  /-- The value of a key, with the lines at which the object and the key are evaluated. -/
  | index (object : Expr) (objectLine : Nat) (key : Expr) (keyLine : Nat)
  | call (f : Expr) (fLine : Nat) (args : List Arg) (line : Nat)
  | method (object : Expr) (name : ByteArray) (nameLine : Nat) (args : List Arg) (line : Nat)
  | function (b : Body)
  | binary (op : BinaryOp) (a b : Expr) (line bLine : Nat)
  | both (a b : Expr) (line : Nat)
  | either (a b : Expr) (line : Nat)
  | unary (op : UnaryOp) (a : Expr) (line aLine : Nat)
  /-- An expression in brackets: one value at most. -/
  | paren (a : Expr) (line : Nat)
  | table (fields : List Field)

/-- An expression in a list, with the line at which it is evaluated. -/
inductive Arg where
  | mk (e : Expr) (line : Nat)

/-- A field of a table constructor. -/
inductive Field where
  | item (e : Expr) (line : Nat)
  | pair (key : Expr) (keyLine : Nat) (value : Expr) (line : Nat)

/-- A statement. -/
inductive Stat where
  | locals (vars : List LocalVar) (values : List Arg) (closes : Option LocalVar) (line : Nat)
  | assign (targets : List Expr) (values : List Arg) (line : Nat)
  | call (e : Expr) (line : Nat)
  | block (body : List Stat) (level : Nat)
  | while_ (cond : Expr) (condLine : Nat) (body : List Stat) (level exit : Nat)
  | repeat_ (body : List Stat) (cond : Expr) (condLine : Nat) (level exit : Nat)
  | if_ (clauses : List Clause) (otherwise : List Stat) (level : Nat)
  | forNumber (base : Nat) (v : LocalVar) (init limit step : Arg) (body : List Stat)
      (line doLine : Nat) (exit : Nat)
  | forEach (base : Nat) (vars : List LocalVar) (values : List Arg) (body : List Stat)
      (line : Nat) (exit : Nat)
  | localFunction (v : LocalVar) (b : Body)
  | ret (values : List Arg) (line : Nat)
  /-- A jump, by its number; the function says where it leads. -/
  | goto (n line : Nat)
  | label (n : Nat)

/-- A condition with the statements under it. -/
inductive Clause where
  | mk (cond : Expr) (condLine : Nat) (body : List Stat)

/-- A function: its parameters are the first slots. -/
inductive Body where
  | mk (parameters : List LocalVar) (isVararg : Bool) (captured : Array Bool)
      (captures : Array CaptureSource) (jumps : Array Nat) (labels : Array Nat) (slots : Nat)
      (line endLine : Nat) (body : List Stat)

end

instance : Inhabited Expr := ⟨.nil⟩
instance : Inhabited Arg := ⟨.mk .nil 0⟩
instance : Inhabited Stat := ⟨.label 0⟩
instance : Inhabited Body := ⟨.mk [] false #[] #[] #[] #[] 0 0 0 []⟩

/-- The expression of a list item. -/
def Arg.expr : Arg → Expr
  | .mk e _ => e

/-- The line of a list item. -/
def Arg.line : Arg → Nat
  | .mk _ l => l

/-- Whether an expression may have any number of values. -/
def Expr.isMany : Expr → Bool
  | .call .. | .method .. | .varargs => true
  | _ => false

end StoryPack.Script
