/-!
# Binary64 floats read through their bits

Lua floats are IEEE-754 binary64 values. The machine does arithmetic on them with `Float`,
but everything that compares, converts or prints a float is computed here from `Float.toBits`,
in exact `Nat` and `Int` arithmetic, so that it can be evaluated and reasoned about:

* `Binary64.decode` splits a value into sign, biased exponent and fraction;
  `Binary64.magnitude` gives a finite value as `m · 2^e`;
* `Binary64.ofRatio` is the float nearest to a non-negative ratio, ties to an even mantissa,
  and `Binary64.ofInt` the float nearest to an integer;
* `Binary64.toInt?` is the integer a float equals, if any;
* `Binary64.lt`, `le` and `eq` are the IEEE comparisons, with NaN unordered and the two zeros
  equal; they agree with the order of the values through `Binary64.orderKey`;
* `Binary64.fmod` is the exact remainder of a truncating division.
-/

namespace LuaBytecode

namespace Binary64

/-- Two to the 52nd: the hidden bit of a normal mantissa. -/
def hidden : Nat := 4503599627370496

/-- Sign, biased exponent (0 … 2047) and 52-bit fraction of a float. -/
def decode (x : Float) : Bool × Nat × Nat :=
  let b := x.toBits.toNat
  (b / 9223372036854775808 % 2 == 1, b / hidden % 2048, b % hidden)

/-- The bits of the float with the given sign, biased exponent and fraction. -/
def bits (neg : Bool) (exp frac : Nat) : UInt64 :=
  UInt64.ofNat ((if neg then 9223372036854775808 else 0) + exp * hidden + frac)

/-- The float with the given sign, biased exponent and fraction. A NaN read back through
`Float.toBits` may come back with another sign and payload. -/
def encode (neg : Bool) (exp frac : Nat) : Float := Float.ofBits (bits neg exp frac)

/-- Is the value a NaN? -/
def isNaN (x : Float) : Bool :=
  let (_, e, f) := decode x
  e == 2047 && f != 0

/-- Is the value finite (neither infinite nor NaN)? -/
def isFinite (x : Float) : Bool := (decode x).2.1 != 2047

/-- Is the sign bit set? -/
def signBit (x : Float) : Bool := (decode x).1

/-- The magnitude of a finite value as `m · 2^e`. -/
def magnitude (x : Float) : Nat × Int :=
  let (_, e, f) := decode x
  if e == 0 then (f, -1074) else (f + hidden, (e : Int) - 1075)

/-- The quiet NaN with a clear sign bit. -/
def nan : Float := encode false 2047 2251799813685248

/-- Positive infinity. -/
def inf : Float := encode false 2047 0

/-- The value `⌊log₂ (num / den)⌋` for positive `num` and `den`. -/
def floorLog2 (num den : Nat) : Int :=
  let k : Int := (num.log2 : Int) - den.log2
  let below : Bool :=
    if 0 ≤ k then decide (num < den * Nat.pow 2 k.toNat)
    else decide (num * Nat.pow 2 (-k).toNat < den)
  if below then k - 1 else k

/-- The bits of the float nearest to `num / den` (for `den > 0`), ties to an even mantissa,
with the sign `neg`. Past the largest finite value the result is infinite. -/
def ofRatioBits (neg : Bool) (num den : Nat) : UInt64 :=
  if num == 0 || den == 0 then bits neg 0 0
  else
    let k := floorLog2 num den
    let e : Int := max (k - 52) (-1074)
    let (n, d) := if 0 ≤ e then (num, den * Nat.pow 2 e.toNat)
      else (num * Nat.pow 2 (-e).toNat, den)
    let q := n / d
    let r := n % d
    let q := if 2 * r > d || (2 * r == d && q % 2 == 1) then q + 1 else q
    let (q, e) := if q == 2 * hidden then (hidden, e + 1) else (q, e)
    if q < hidden then bits neg 0 q
    else
      let biased := e + 1075
      if biased ≥ 2047 then bits neg 2047 0 else bits neg biased.toNat (q - hidden)

/-- The float nearest to `num / den`, as `ofRatioBits` gives it. -/
def ofRatio (neg : Bool) (num den : Nat) : Float := Float.ofBits (ofRatioBits neg num den)

/-- The float nearest to an integer. -/
def ofInt (n : Int) : Float := ofRatio (n < 0) n.natAbs 1

/-- The integer a finite float equals, if it has no fractional part. -/
def toInt? (x : Float) : Option Int :=
  if !isFinite x then none
  else
    let (m, e) := magnitude x
    let v : Option Nat :=
      if 0 ≤ e then some (m * Nat.pow 2 e.toNat)
      else if m % Nat.pow 2 (-e).toNat == 0 then some (m / Nat.pow 2 (-e).toNat) else none
    v.map fun v => if signBit x then -(v : Int) else v

/-- Is the value finite with no fractional part? -/
def isIntegral (x : Float) : Bool := (toInt? x).isSome

/-- The value of a finite float whose exponent is `e`, as the signed numerator over `2^-e`. -/
def signedMantissa (x : Float) : Int :=
  let m := (magnitude x).1
  if signBit x then -(m : Int) else m

/-- The floor `⌊x⌋` of a finite float, exactly. -/
def floor (x : Float) : Int :=
  let e := (magnitude x).2
  if 0 ≤ e then signedMantissa x * Int.pow 2 e.toNat
  else Int.fdiv (signedMantissa x) (Int.pow 2 (-e).toNat)

/-- The ceiling `⌈x⌉` of a finite float, exactly. -/
def ceil (x : Float) : Int :=
  let e := (magnitude x).2
  if 0 ≤ e then signedMantissa x * Int.pow 2 e.toNat
  else -Int.fdiv (-signedMantissa x) (Int.pow 2 (-e).toNat)

/-- An integer that orders non-NaN floats as their values are ordered: the magnitude bits,
negated for a set sign bit. Both zeros have key 0. -/
def orderKey (x : Float) : Int :=
  let b := x.toBits.toNat
  let mag : Int := b % 9223372036854775808
  if b / 9223372036854775808 % 2 == 1 then -mag else mag

/-- Decides `x < y` for floats: false when either is a NaN. -/
def lt (x y : Float) : Bool := !isNaN x && !isNaN y && decide (orderKey x < orderKey y)

/-- Decides `x ≤ y` for floats: false when either is a NaN. -/
def le (x y : Float) : Bool := !isNaN x && !isNaN y && decide (orderKey x ≤ orderKey y)

/-- Decides `x = y` for floats: false when either is a NaN, true for the two zeros. -/
def eq (x y : Float) : Bool := !isNaN x && !isNaN y && orderKey x == orderKey y

/-- The remainder of `x / y` truncated toward zero, exactly, with the sign of `x`: NaN for a
zero or NaN divisor and for an infinite or NaN dividend, and `x` for an infinite divisor. -/
def fmod (x y : Float) : Float :=
  if isNaN x || isNaN y || !isFinite x || (isFinite y && (magnitude y).1 == 0) then nan
  else if !isFinite y then x
  else
    let (mx, ex) := magnitude x
    let (my, ey) := magnitude y
    let e := min ex ey
    let nx := mx * Nat.pow 2 (ex - e).toNat
    let ny := my * Nat.pow 2 (ey - e).toNat
    let r := nx % ny
    if 0 ≤ e then ofRatio (signBit x) (r * Nat.pow 2 e.toNat) 1
    else ofRatio (signBit x) r (Nat.pow 2 (-e).toNat)

end Binary64

end LuaBytecode
