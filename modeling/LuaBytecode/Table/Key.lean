import LuaBytecode.Value.Basic
/-!
# Table keys

A table key is a value with nil and NaN left out, normalised so that values that index the
same entry become the same key: an integer and a float with the same integral value in the
64-bit range are one key (`Key.int`), other floats are told apart by their bits, and objects by
their identity. `Key.ofValue?` normalises and `Key.toValue` gives back the value that a
traversal reports for a key.
-/

namespace LuaBytecode

/-- A normalised table key. -/
inductive Key where
  | int (n : Int64)
  /-- A float that is not integral in the 64-bit range and not NaN, by its bits. -/
  | float (bits : UInt64)
  | str (s : String)
  | bool (b : Bool)
  | builtin (b : Builtin) (id : Nat)
  | closure (id : Nat)
  | table (id : Nat)
  deriving DecidableEq, Repr, Inhabited

/-- The 64-bit integer a float equals, if it is integral and in the range `[-2^63, 2^63)`. -/
def floatToInt64? (x : Float) : Option Int64 :=
  match Binary64.toInt? x with
  | some n => if -9223372036854775808 ≤ n && n < 9223372036854775808 then some (Int64.ofInt n) else none
  | none => none

namespace Key

/-- The key a value indexes; nil and NaN index none. -/
def ofValue? : Value → Option Key
  | .nil => none
  | .bool b => some (bool b)
  | .int n => some (int n)
  | .float x =>
    if Binary64.isNaN x then none
    else
      match floatToInt64? x with
      | some n => some (int n)
      | none => some (float x.toBits)
  | .str s => some (str s)
  | .builtin b id => some (builtin b id)
  | .closure id => some (closure id)
  | .table id => some (table id)

/-- The value a traversal reports for a key. -/
def toValue : Key → Value
  | int n => .int n
  | float bits => .float (Float.ofBits bits)
  | str s => .str s
  | bool b => .bool b
  | builtin b id => .builtin b id
  | closure id => .closure id
  | table id => .table id

end Key

end LuaBytecode
