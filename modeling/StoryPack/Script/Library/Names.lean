/-
The names of the library functions.

Each library lists its functions under their names.  Messages name a function of
the base library by its own name and any other behind the name of its library.

* `Library.baseNames`, … — the functions of each library;
* `Builtin.qualifiedName?` — the name of a function in messages.
-/
import StoryPack.Script.Value

namespace StoryPack.Script

namespace Library

/-- The functions of the base library. -/
def baseNames : List (String × BaseFunction) :=
  [("assert", .assert), ("collectgarbage", .collectgarbage), ("dofile", .dofile),
   ("error", .error), ("getmetatable", .getmetatable), ("ipairs", .ipairs), ("load", .load),
   ("loadfile", .loadfile), ("next", .next), ("pairs", .pairs), ("pcall", .pcall),
   ("print", .print), ("rawequal", .rawequal), ("rawget", .rawget), ("rawlen", .rawlen),
   ("rawset", .rawset), ("select", .select), ("setmetatable", .setmetatable),
   ("tonumber", .tonumber), ("tostring", .tostring), ("type", .type), ("warn", .warn),
   ("xpcall", .xpcall)]

/-- The functions of the string library. -/
def stringNames : List (String × StringFunction) :=
  [("byte", .byte), ("char", .char), ("dump", .dump), ("find", .find), ("format", .format),
   ("gmatch", .gmatch), ("gsub", .gsub), ("len", .len), ("lower", .lower), ("match", .match),
   ("pack", .pack), ("packsize", .packsize), ("rep", .rep), ("reverse", .reverse), ("sub", .sub),
   ("unpack", .unpack), ("upper", .upper)]

/-- The functions of the table library. -/
def tableNames : List (String × TableFunction) :=
  [("concat", .concat), ("insert", .insert), ("move", .move), ("pack", .pack), ("remove", .remove),
   ("sort", .sort), ("unpack", .unpack)]

/-- The functions of the math library; one has two names. -/
def mathNames : List (String × MathFunction) :=
  [("abs", .abs), ("acos", .acos), ("asin", .asin), ("atan", .atan), ("atan2", .atan),
   ("ceil", .ceil), ("cos", .cos), ("cosh", .cosh), ("deg", .deg), ("exp", .exp),
   ("floor", .floor), ("fmod", .fmod), ("frexp", .frexp), ("ldexp", .ldexp),
   ("log", .log), ("log10", .log10), ("max", .max),
   ("min", .min), ("modf", .modf), ("pow", .pow), ("rad", .rad), ("random", .random),
   ("randomseed", .randomseed), ("sin", .sin), ("sinh", .sinh), ("sqrt", .sqrt), ("tan", .tan),
   ("tanh", .tanh), ("tointeger", .tointeger), ("type", .type), ("ult", .ult)]

/-- The functions of the debug library. -/
def debugNames : List (String × DebugFunction) :=
  [("getmetatable", .getmetatable), ("setmetatable", .setmetatable), ("traceback", .traceback)]

/-- The name under which a list holds a function. -/
def nameIn? {α : Type} [DecidableEq α] (names : List (String × α)) (f : α) : Option String :=
  (names.find? fun n => n.2 = f).map (·.1)

end Library

/-- The name of a library function in messages. -/
def Builtin.qualifiedName? : Builtin → Option String
  | .base f => Library.nameIn? Library.baseNames f
  | .string f => (Library.nameIn? Library.stringNames f).map ("string." ++ ·)
  | .table f => (Library.nameIn? Library.tableNames f).map ("table." ++ ·)
  | .math f => (Library.nameIn? Library.mathNames f).map ("math." ++ ·)
  | .debug f => (Library.nameIn? Library.debugNames f).map ("debug." ++ ·)
  | _ => none

end StoryPack.Script
