import LuaBytecode.Number.Shortest
/-!
# How floats are written

The text of a float, as `tostring`, `print`, concatenation and listings write it:

* a finite value with no fractional part is written in full, every digit of its exact value,
  followed by `.0`; the sign of a negative zero is kept (`-0.0`);
* the infinities are `inf` and `-inf`, and every NaN is `NaN`;
* any other value is the shortest decimal that reads back (`Shortest.ofFloat`), written
  positionally, never with an exponent (`0.0000001`, `0.1`, `0.3333333333333333`).
-/

namespace LuaBytecode

namespace FloatText

/-- A run of `n` zeros. -/
def zeros (n : Nat) : String := String.ofList (List.replicate n '0')

/-- The positional text of `d · 10^s` for digits `d`. -/
def positional (d : Nat) (s : Int) : String :=
  let ds := toString d
  let n : Int := ds.length
  if 0 ≤ s then ds ++ zeros s.toNat
  else
    let point := n + s
    if 0 < point then
      String.ofList (ds.toList.take point.toNat) ++ "." ++ String.ofList (ds.toList.drop point.toNat)
    else "0." ++ zeros (-point).toNat ++ ds

/-- The text of a float. -/
def render (x : Float) : String :=
  let sign := if Binary64.signBit x then "-" else ""
  if Binary64.isNaN x then "NaN"
  else if !Binary64.isFinite x then sign ++ "inf"
  else
    match Binary64.toInt? x with
    | some n => sign ++ toString n.natAbs ++ ".0"
    | none =>
      let (d, s) := Shortest.ofFloat x
      sign ++ positional d s

end FloatText

end LuaBytecode
