import LuaBytecode.Number.Read
import LuaBytecode.Table.Key
/-!
# Coercions

How the machine reads numbers out of values.

* `Coerce.number?` reads a string as a number: surrounding white space is dropped, then an
  optional sign; `0x` or `0X` starts an unsigned 64-bit hexadecimal integer, taken modulo 2^64
  and negated after a `-`; otherwise the text, made only of digits, points, signs and exponent
  letters, is a 64-bit integer if it reads as one and a float if it reads as a decimal float.
* `Coerce.intInBase?` reads a string as an integer in a base from 2 to 36, with an optional
  sign, as `tonumber` with a base does.
* `Value.toNumber?` keeps numbers and reads strings; `Value.toFloat?` and `Value.toInteger?`
  go on to a float, or to an integer when the number has an exact integer value in range.
* `Value.concatText?` is the text a value contributes to a concatenation: strings as they
  are, numbers as they print.
-/

namespace LuaBytecode

namespace Coerce

/-- The least integer not representable in 64 bits. -/
def int64Bound : Int := 9223372036854775808

/-- Is `n` a 64-bit signed integer? -/
def inInt64 (n : Int) : Bool := -int64Bound ≤ n && n < int64Bound

/-- Characters that can make up a decimal numeral. -/
def isNumeralChar (c : Char) : Bool :=
  c.isDigit || c == '.' || c == 'e' || c == 'E' || c == '+' || c == '-'

/-- A string read as a number, if it is one. -/
def number? (text : String) : Option Value :=
  let s := Read.trim text
  let (neg, body) : Bool × List Char := match s.toList with
    | '-' :: r => (true, r)
    | '+' :: r => (false, r)
    | r => (false, r)
  let hex : Option (List Char) := match body with
    | '0' :: 'x' :: h => some h
    | '0' :: 'X' :: h => some h
    | _ => none
  match hex with
  | some h =>
    match Read.radix? (String.ofList h) 16 false with
    | some n =>
      if n < 18446744073709551616 then
        let v := Int64.ofInt n
        some (.int (if neg then -v else v))
      else none
    | none => none
  | none =>
    if body.isEmpty || !body.all isNumeralChar then none
    else
      match Read.radix? s 10 true with
      | some n => if inInt64 n then some (.int (Int64.ofInt n)) else (Read.decimal? s).map fun b => .float (Float.ofBits b)
      | none => (Read.decimal? s).map fun b => .float (Float.ofBits b)

/-- A string read as an integer in `base`: white space around it is dropped, one leading `-`
negates (with wrap-around) what follows, which is an optional sign and digits whose value
fits in 64 bits. -/
def intInBase? (text : String) (base : Nat) : Option Int64 :=
  let t := (Read.trim text).toList.map Char.toLower
  let (neg, body) : Bool × List Char := match t with
    | '-' :: r => (true, r)
    | r => (false, r)
  match Read.radix? (String.ofList body) base true with
  | some n =>
    if inInt64 n then
      let v := Int64.ofInt n
      some (if neg then -v else v)
    else none
  | none => none

end Coerce

namespace Value

/-- The number a value stands for: numbers themselves, and strings that read as numbers. -/
def toNumber? : Value → Option Value
  | .int n => some (.int n)
  | .float x => some (.float x)
  | .str s => Coerce.number? s
  | _ => none

/-- The float a value stands for. -/
def toFloat? (v : Value) : Option Float :=
  match v.toNumber? with
  | some (.int n) => some (intToFloat n)
  | some (.float x) => some x
  | _ => none

/-- The integer a value stands for: an integer, or a float with an exact integer value in the
64-bit range (also when read from a string). -/
def toInteger? (v : Value) : Option Int64 :=
  match v.toNumber? with
  | some (.int n) => some n
  | some (.float x) => floatToInt64? x
  | _ => none

/-- The text a value contributes to a concatenation. -/
def concatText? : Value → Option String
  | .str s => some s
  | .int n => some (toString n.toInt)
  | .float x => some (FloatText.render x)
  | _ => none

end Value

end LuaBytecode
