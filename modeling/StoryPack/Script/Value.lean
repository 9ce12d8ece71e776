/-
Values of the script language.

A value is a primitive or a reference into the heap.  Integers are 64-bit words
and floating-point numbers are doubles; strings are byte strings.

* `Value` — the values;
* `Function`, `Builtin` — the functions, and the library functions by library;
* `Value.kind`, `Value.typeName` — the type of a value and its name;
* `Key` — the values that can index a table, with a decidable equality.
-/
import StoryPack.Bytes
import StoryPack.Number.Dyadic

namespace StoryPack.Script

/-- Functions of the base library. -/
inductive BaseFunction where
  | assert | collectgarbage | dofile | error | getmetatable | ipairs | ipairsStep | load | loadfile
  | next | pairs | pcall | print | rawequal | rawget | rawlen | rawset | select | setmetatable
  | tonumber | tostring | type | warn | xpcall
deriving DecidableEq, Hashable, Repr

/-- Functions of the string library. -/
inductive StringFunction where
  | byte | char | dump | find | format | gmatch | gsub | len | lower | match | pack | packsize
  | rep | reverse | sub | unpack | upper
deriving DecidableEq, Hashable, Repr

/-- Functions of the table library. -/
inductive TableFunction where
  | concat | insert | move | pack | remove | sort | unpack
deriving DecidableEq, Hashable, Repr

/-- Functions of the math library. -/
inductive MathFunction where
  | abs | acos | asin | atan | ceil | cos | cosh | deg | exp | floor | fmod | frexp | ldexp | log
  | log10 | max | min | modf | pow | rad | random | randomseed | sin | sinh | sqrt | tan | tanh
  | tointeger | type | ult
deriving DecidableEq, Hashable, Repr

/-- Functions of the debug library. -/
inductive DebugFunction where
  | getmetatable | setmetatable | traceback
deriving DecidableEq, Hashable, Repr

/-- Readers of frozen views, and the metamethods that every view shares. -/
inductive ViewFunction where
  | next | rawget | rawlen | pairs | length | deny
deriving DecidableEq, Hashable, Repr

/-- The arithmetic and bitwise operators. -/
inductive Arith where
  | add | sub | mul | mod | pow | div | idiv | band | bor | bxor | shl | shr | unm | bnot
deriving DecidableEq, Hashable, Repr

/-- A library function. -/
inductive Builtin where
  | base (f : BaseFunction)
  | string (f : StringFunction)
  | table (f : TableFunction)
  | math (f : MathFunction)
  | debug (f : DebugFunction)
  | view (f : ViewFunction)
  /-- The arithmetic metamethods of strings. -/
  | stringArith (op : Arith)
  /-- Tells whether the present run has overrun its budget. -/
  | tripped
deriving DecidableEq, Hashable, Repr

/-- A function: a compiled closure, a library function, or the stepper through the matches of a
pattern. -/
inductive Function where
  | closure (ref : Nat)
  | builtin (f : Builtin)
  | matcher (ref : Nat)
deriving DecidableEq, Hashable, Repr

/-- A value of the script language. -/
inductive Value where
  | nil
  | bool (b : Bool)
  | int (i : Int64)
  | float (x : Float)
  | str (s : ByteArray)
  | table (ref : Nat)
  | function (f : Function)
  /-- An error object of the host. -/
  | fault (ref : Nat)
deriving Inhabited

/-- The basic types. -/
inductive Kind where
  | nil | boolean | number | string | table | function | thread | userdata
deriving DecidableEq, Hashable, Repr

/-- The name of a basic type. -/
def Kind.name : Kind → String
  | .nil => "nil"
  | .boolean => "boolean"
  | .number => "number"
  | .string => "string"
  | .table => "table"
  | .function => "function"
  | .thread => "thread"
  | .userdata => "userdata"

namespace Value

/-- The string value of a text. -/
def ofString (s : String) : Value := .str s.toUTF8

/-- The basic type of a value. -/
def kind : Value → Kind
  | .nil => .nil
  | .bool _ => .boolean
  | .int _ | .float _ => .number
  | .str _ => .string
  | .table _ => .table
  | .function _ => .function
  | .fault _ => .userdata

/-- The name of the basic type. -/
def typeName (v : Value) : String := v.kind.name

/-- The name that the host gives to the type: integers and error objects have names of their own. -/
def hostTypeName : Value → String
  | .int _ => "integer"
  | .fault _ => "error"
  | v => v.typeName

/-- The value of a library function. -/
@[inline] def builtin (f : Builtin) : Value := .function (.builtin f)

/-- Everything but `nil` and `false` counts as true. -/
@[inline] def truthy : Value → Bool
  | .nil => false
  | .bool b => b
  | _ => true

/-- Whether the value is `nil`. -/
@[inline] def isNil : Value → Bool
  | .nil => true
  | _ => false

end Value

/-- A value that can index a table: no `nil`, no NaN, and no floating-point number that is an
integer. Such numbers are told apart by their bits. -/
inductive Key where
  | bool (b : Bool)
  | int (i : Int64)
  | float (bits : UInt64)
  | str (s : ByteArray)
  | table (ref : Nat)
  | function (f : Function)
  | fault (ref : Nat)
deriving DecidableEq, Hashable, Inhabited

/-- The value of a key. -/
def Key.toValue : Key → Value
  | .bool b => .bool b
  | .int i => .int i
  | .float bits => .float (Float.ofBits bits)
  | .str s => .str s
  | .table r => .table r
  | .function f => .function f
  | .fault r => .fault r

end StoryPack.Script
