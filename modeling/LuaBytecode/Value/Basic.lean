import LuaBytecode.Number.Binary64
import LuaBytecode.Number.FloatText
/-!
# Values

A Lua value is nil, a boolean, a 64-bit integer, a float, a string, a function or a table.
Functions and tables are objects with an identity: a value of those kinds names its object by
a number, and two such values are equal exactly when they name the same object. Base-library
functions are objects too, each carrying which library function it runs.

`Value.rawEq` is primitive equality: an integer equals a float when the float is the nearest
float to the integer and compares equal to it, strings by content, objects by identity.
`Value.render` is the text `tostring` gives a value without metamethods.
-/

namespace LuaBytecode

/-- The functions of the base library, and the iterator that `ipairs` returns. The iterator
that `pairs` returns is `next`. -/
inductive Builtin where
  | print | type | tostring | tonumber | assert | error | pcall | select | rawget | rawset
  | rawequal | setmetatable | getmetatable | next | pairs | ipairs | ipairsStep
  deriving DecidableEq, Repr, Inhabited

namespace Builtin

/-- The name a library function is known by. -/
def name : Builtin → String
  | print => "print" | type => "type" | tostring => "tostring" | tonumber => "tonumber"
  | assert => "assert" | error => "error" | pcall => "pcall" | select => "select"
  | rawget => "rawget" | rawset => "rawset" | rawequal => "rawequal"
  | setmetatable => "setmetatable" | getmetatable => "getmetatable" | next => "next"
  | pairs => "pairs" | ipairs => "ipairs" | ipairsStep => "ipairs_aux"

/-- The functions registered as globals, in the order they are registered. -/
def globals : List Builtin :=
  [print, type, tostring, tonumber, assert, error, pcall, select, rawget, rawset, rawequal,
   setmetatable, getmetatable, next, pairs, ipairs]

end Builtin

/-- A Lua value. `builtin`, `closure` and `table` name objects by their identity. -/
inductive Value where
  | nil
  | bool (b : Bool)
  | int (n : Int64)
  | float (x : Float)
  | str (s : String)
  /-- A base-library function object: which function it runs, and its identity. -/
  | builtin (b : Builtin) (id : Nat)
  /-- A Lua function: the index of its closure in the heap. -/
  | closure (id : Nat)
  /-- A table: the index of the table in the heap. -/
  | table (id : Nat)
  deriving Inhabited

namespace Value

/-- The type name: `nil`, `boolean`, `number`, `string`, `function` or `table`. -/
def typeName : Value → String
  | nil => "nil"
  | bool _ => "boolean"
  | int _ | float _ => "number"
  | str _ => "string"
  | builtin .. | closure _ => "function"
  | table _ => "table"

/-- Everything but nil and false counts as true. -/
def isTruthy : Value → Bool
  | nil | bool false => false
  | _ => true

/-- Is the value nil? -/
def isNil : Value → Bool
  | nil => true
  | _ => false

/-- The float nearest to an integer, as the machine converts one. -/
def intToFloat (n : Int64) : Float := Binary64.ofInt n.toInt

/-- Primitive equality, without metamethods. -/
def rawEq : Value → Value → Bool
  | nil, nil => true
  | bool a, bool b => a == b
  | int a, int b => a == b
  | float a, float b => Binary64.eq a b
  | int a, float b => Binary64.eq (intToFloat a) b
  | float a, int b => Binary64.eq a (intToFloat b)
  | str a, str b => a == b
  | builtin _ a, builtin _ b => a == b
  | closure a, closure b => a == b
  | table a, table b => a == b
  | _, _ => false

/-- The hexadecimal digits of a number, lower case. -/
def hexDigits (n : Nat) : String := String.ofList (Nat.toDigits 16 n)

/-- How the address of an object is written: every object has its own. -/
def address (id : Nat) : String := "0x" ++ hexDigits (94000000000000 + 64 * id)

/-- The text of a value without metamethods. -/
def render : Value → String
  | nil => "nil"
  | bool b => if b then "true" else "false"
  | int n => toString n.toInt
  | float x => FloatText.render x
  | str s => s
  | builtin b _ => "function: builtin: " ++ b.name
  | closure id => "function: " ++ address id
  | table id => "table: " ++ address id

end Value

end LuaBytecode
