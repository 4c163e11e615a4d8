import LuaBytecode.Machine.Coerce
import LuaBytecode.Fault
/-!
# Primitive arithmetic and order

The operators on numbers alone, before any metamethod is consulted (`Arith.apply`), and the
primitive order (`Arith.lessThan?`, `Arith.lessEqual?`).

* Bitwise operators work on integers: both operands must convert exactly to 64-bit integers.
  Shifts by 64 places or more give 0, and a negative shift goes the other way; shifts are
  logical.
* `/` and `^` always give floats. The other operators give an integer when both operands are
  integers, with wrap-around on overflow, and a float otherwise.
* Integer `//` and `%` round the quotient toward minus infinity and fail on a zero divisor;
  float `//` is the floor of the quotient, and float `%` takes the sign of the divisor.
* Numbers compare by value (an integer against a float through the float nearest to the
  integer), strings by code points; other pairs have no primitive order.
-/

namespace LuaBytecode

/-- The arithmetic and bitwise operators. -/
inductive ArithOp where
  | add | sub | mul | mod | pow | div | idiv | band | bor | bxor | shl | shr | unm | bnot
  deriving DecidableEq, Repr, Inhabited

namespace ArithOp

/-- Is this a bitwise operator? -/
def isBitwise : ArithOp → Bool
  | band | bor | bxor | shl | shr | bnot => true
  | _ => false

/-- The metamethod an operator falls back to. -/
def event : ArithOp → String
  | add => "__add" | sub => "__sub" | mul => "__mul" | mod => "__mod" | pow => "__pow"
  | div => "__div" | idiv => "__idiv" | band => "__band" | bor => "__bor" | bxor => "__bxor"
  | shl => "__shl" | shr => "__shr" | unm => "__unm" | bnot => "__bnot"

end ArithOp

namespace Arith

/-- Shifts `x` left by `n` places, logically; right for a negative `n`. -/
def shiftLeft (x n : Int64) : Int64 :=
  if n ≤ -64 || n ≥ 64 then 0
  else if n ≥ 0 then (x.toUInt64 <<< n.toUInt64).toInt64
  else (x.toUInt64 >>> (-n).toUInt64).toInt64

/-- Integer division rounding toward minus infinity (the divisor is not zero). -/
def floorDiv (m n : Int64) : Int64 :=
  if n == -1 then -m
  else
    let q := m / n
    if m % n != 0 && (m ^^^ n) < 0 then q - 1 else q

/-- The remainder of `floorDiv`, with the sign of the divisor. -/
def floorMod (m n : Int64) : Int64 :=
  if n == -1 then 0
  else
    let r := m % n
    if r != 0 && (r ^^^ n) < 0 then r + n else r

/-- A bitwise operator on integers. -/
def bitwise (op : ArithOp) (x y : Int64) : Int64 :=
  match op with
  | .band => x &&& y
  | .bor => x ||| y
  | .bxor => x ^^^ y
  | .shl => shiftLeft x y
  | .shr => shiftLeft x (-y)
  | .bnot => ~~~x
  | _ => 0

/-- An arithmetic operator on integers. -/
def onInts (op : ArithOp) (x y : Int64) : Except Fault Int64 :=
  match op with
  | .add => .ok (x + y)
  | .sub => .ok (x - y)
  | .mul => .ok (x * y)
  | .unm => .ok (-x)
  | .idiv => if y == 0 then .error (.runtime "attempt to perform 'n//0'") else .ok (floorDiv x y)
  | .mod => if y == 0 then .error (.runtime "attempt to perform 'n%0'") else .ok (floorMod x y)
  | op => .error (.internal (reprStr op ++ " is not an integer operator"))

/-- Float `%`: the remainder of truncated division, moved to the sign of the divisor. -/
def floatMod (x y : Float) : Float :=
  let m := Binary64.fmod x y
  if !Binary64.eq m 0 && Binary64.lt m 0 != Binary64.lt y 0 then m + y else m

/-- An arithmetic operator on floats. -/
def onFloats (op : ArithOp) (x y : Float) : Float :=
  match op with
  | .add => x + y
  | .sub => x - y
  | .mul => x * y
  | .unm => -x
  | .idiv => (x / y).floor
  | .mod => floatMod x y
  | _ => Binary64.nan

/-- The float value of a number. -/
def floatOf : Value → Float
  | .int n => Value.intToFloat n
  | .float x => x
  | _ => Binary64.nan

/-- The primitive result of an operator, or none when an operand is not a number (for bitwise
operators: has no exact integer value). -/
def apply (op : ArithOp) (a b : Value) : Except Fault (Option Value) :=
  if op.isBitwise then
    match a.toInteger?, b.toInteger? with
    | some x, some y => .ok (some (.int (bitwise op x y)))
    | _, _ => .ok none
  else
    match a.toNumber?, b.toNumber? with
    | some x, some y =>
      match op, x, y with
      | .div, x, y => .ok (some (.float (floatOf x / floatOf y)))
      | .pow, x, y => .ok (some (.float (Float.pow (floatOf x) (floatOf y))))
      | op, .int x, .int y => (onInts op x y).map fun n => some (.int n)
      | op, x, y => .ok (some (.float (onFloats op (floatOf x) (floatOf y))))
    | _, _ => .ok none

/-- Code-point order on strings. -/
def strLt (a b : String) : Bool :=
  let rec go : List Char → List Char → Bool
    | [], [] => false
    | [], _ :: _ => true
    | _ :: _, [] => false
    | c :: cs, d :: ds => if c.toNat < d.toNat then true else if c.toNat > d.toNat then false else go cs ds
  go a.toList b.toList

/-- Primitive `<`: none when the operands have no primitive order. -/
def lessThan? : Value → Value → Option Bool
  | .int x, .int y => some (x < y)
  | .float x, .float y => some (Binary64.lt x y)
  | .int x, .float y => some (Binary64.lt (Value.intToFloat x) y)
  | .float x, .int y => some (Binary64.lt x (Value.intToFloat y))
  | .str x, .str y => some (strLt x y)
  | _, _ => none

/-- Primitive `<=`: none when the operands have no primitive order. -/
def lessEqual? : Value → Value → Option Bool
  | .int x, .int y => some (x ≤ y)
  | .float x, .float y => some (Binary64.le x y)
  | .int x, .float y => some (Binary64.le (Value.intToFloat x) y)
  | .float x, .int y => some (Binary64.le x (Value.intToFloat y))
  | .str x, .str y => some (!strLt y x)
  | _, _ => none

end Arith

end LuaBytecode
