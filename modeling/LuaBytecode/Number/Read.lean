import LuaBytecode.Number.Binary64
/-!
# Reading numerals

* `Read.isWhite` is the Unicode White_Space property, and `Read.trim` drops such characters at
  both ends of a text.
* `Read.decimal?` reads a decimal float numeral: an optional sign, then `inf`, `infinity` or
  `nan` in any case, or digits with an optional point (at least one digit on one side) and an
  optional exponent `e` or `E` with an optional sign and at least one digit. The value is the
  float nearest to the exact decimal (`Read.ofDecimal`), given by its bits, so that the sign of
  a NaN is kept.
* `Read.radix?` reads digits in a base from 2 to 36, after an optional `+`, or `-` when the
  reader is signed.
-/

namespace LuaBytecode

namespace Read

/-- The characters with the Unicode White_Space property. -/
def isWhite (c : Char) : Bool :=
  let n := c.toNat
  (9 ≤ n && n ≤ 13) || n == 32 || n == 133 || n == 160 || n == 5760 ||
    (8192 ≤ n && n ≤ 8202) || n == 8232 || n == 8233 || n == 8239 || n == 8287 || n == 12288

/-- The text without White_Space characters at either end. -/
def trim (s : String) : String :=
  String.ofList ((s.toList.dropWhile isWhite).reverse.dropWhile isWhite).reverse

/-- The value of a decimal digit. -/
def digitValue (c : Char) : Option Nat :=
  if c.isDigit then some (c.toNat - '0'.toNat) else none

/-- The bits of the float nearest to `digits · 10^exp10`, with sign `neg`. -/
def ofDecimal (neg : Bool) (digits : Nat) (exp10 : Int) : UInt64 :=
  if digits == 0 then Binary64.bits neg 0 0
  else
    let width : Int := (toString digits).length
    if exp10 + width > 310 then Binary64.bits neg 2047 0
    else if exp10 + width < -330 then Binary64.bits neg 0 0
    else if 0 ≤ exp10 then Binary64.ofRatioBits neg (digits * Nat.pow 10 exp10.toNat) 1
    else Binary64.ofRatioBits neg digits (Nat.pow 10 (-exp10).toNat)

/-- Splits a run of decimal digits off the front: its value, its length and the rest. -/
def digitRun : List Char → Nat × Nat × List Char
  | [] => (0, 0, [])
  | c :: cs =>
    match digitValue c with
    | none => (0, 0, c :: cs)
    | some d =>
      let (v, n, rest) := digitRun cs
      (d * Nat.pow 10 n + v, n + 1, rest)

/-- An optional sign: whether it was `-`, and the rest. -/
def sign : List Char → Bool × List Char
  | '-' :: cs => (true, cs)
  | '+' :: cs => (false, cs)
  | cs => (false, cs)

/-- The value of an exponent part `e±ddd`, if the whole rest is one. -/
def exponent : List Char → Option Int
  | [] => some 0
  | c :: cs =>
    if c == 'e' || c == 'E' then
      let (neg, ds) := sign cs
      let (v, n, rest) := digitRun ds
      if n == 0 || !rest.isEmpty then none else some (if neg then -(v : Int) else v)
    else none

/-- The bits of a word, in any case: `inf`, `infinity` or `nan`. -/
def word (neg : Bool) (cs : List Char) : Option UInt64 :=
  let w := String.ofList (cs.map Char.toLower)
  if w == "inf" || w == "infinity" then some (Binary64.bits neg 2047 0)
  else if w == "nan" then some (Binary64.bits neg 2047 2251799813685248)
  else none

/-- Reads a decimal float numeral, the whole text, as the bits of its nearest float. -/
def decimal? (s : String) : Option UInt64 :=
  let (neg, cs) := sign s.toList
  match word neg cs with
  | some x => some x
  | none =>
    let (iv, ni, rest) := digitRun cs
    let (fv, nf, rest) :=
      match rest with
      | '.' :: more => digitRun more
      | _ => (0, 0, rest)
    let dotted := match cs.drop ni with
      | '.' :: _ => true
      | _ => false
    let rest := if dotted && nf == 0 then (cs.drop (ni + 1)) else rest
    if ni + nf == 0 then none
    else
      match exponent rest with
      | none => none
      | some e => some (ofDecimal neg (iv * Nat.pow 10 nf + fv) (e - nf))

/-- The value of a digit in bases up to 36, either case. -/
def radixDigit (c : Char) : Option Nat :=
  if c.isDigit then some (c.toNat - '0'.toNat)
  else if 'a' ≤ c && c ≤ 'z' then some (c.toNat - 'a'.toNat + 10)
  else if 'A' ≤ c && c ≤ 'Z' then some (c.toNat - 'A'.toNat + 10)
  else none

/-- The value of digits in `base`, most significant first; none for an empty run or a digit
outside the base. -/
def radixDigits (base : Nat) (cs : List Char) : Option Nat :=
  if cs.isEmpty then none
  else cs.foldlM (fun acc c => (radixDigit c).bind fun d => if d < base then some (acc * base + d) else none) 0

/-- Reads an integer in `base`: an optional `+` (or `-` when `signed`), then digits. -/
def radix? (s : String) (base : Nat) (signed : Bool) : Option Int :=
  match s.toList with
  | '+' :: cs => (radixDigits base cs).map Int.ofNat
  | '-' :: cs => if signed then (radixDigits base cs).map fun v => -(v : Int) else none
  | cs => (radixDigits base cs).map Int.ofNat

end Read

end LuaBytecode
