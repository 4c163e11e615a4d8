import LuaBytecode.Number.Binary64
/-!
# The shortest decimal that reads back

A positive finite float `v = m · 2^e` stands for every real that rounds to it: the interval
from halfway to its lower neighbour to halfway to its upper neighbour, the ends included when
`m` is even (a tie reads back to the even mantissa). `Shortest.digits` walks the decimal grids
with 1, 2, … significant digits, and on each grid tests the two grid points next to `v`; the
first grid with a point inside the interval gives the answer, and of two such points the one
nearer to `v`, or the upper one when they are equally near. All of it is exact arithmetic on natural numbers.
-/

namespace LuaBytecode

namespace Shortest

/-- The value `⌊log₁₀ (num / den)⌋` for positive `num` and `den`, from a first guess by binary length. -/
def floorLog10 (num den : Nat) : Int :=
  let guess : Int := (Binary64.floorLog2 num den * 30103).fdiv 100000
  -- `10^t ≤ num / den`
  let atLeast (t : Int) : Bool :=
    if 0 ≤ t then decide (den * Nat.pow 10 t.toNat ≤ num)
    else decide (den ≤ num * Nat.pow 10 (-t).toNat)
  if atLeast (guess + 1) then
    (if atLeast (guess + 2) then guess + 2 else guess + 1)
  else if atLeast guess then guess else guess - 1

/-- Drops trailing zero digits, raising the exponent to match. -/
def trimZeros (d : Nat) (s : Int) (fuel : Nat) : Nat × Int :=
  match fuel with
  | 0 => (d, s)
  | fuel + 1 => if d != 0 && d % 10 == 0 then trimZeros (d / 10) (s + 1) fuel else (d, s)

/-- The digits `d` and exponent `s` of the shortest decimal `d · 10^s` that reads back as the
positive value `m · 2^e`, whose lower neighbour is a quarter step closer when `narrowBelow`. -/
def digits (m : Nat) (e : Int) (narrowBelow : Bool) : Nat × Int :=
  -- the value is `num / den`; one step of the mantissa is `unit / den`
  let num := m * Nat.pow 2 e.toNat
  let den := Nat.pow 2 (-e).toNat
  let unit := Nat.pow 2 e.toNat
  let inclusive := m % 2 == 0
  let t := floorLog10 num den
  -- the two grid points next to the value with `p` significant digits, and the test
  let attempt (p : Nat) : Option (Nat × Int) :=
    let s : Int := t - p + 1
    let sp := s.toNat
    let sn := (-s).toNat
    -- everything times `4 · den · 10^sn`
    let v := 4 * num * Nat.pow 10 sn
    let hi := (4 * num + 2 * unit) * Nat.pow 10 sn
    let lo := (4 * num - (if narrowBelow then unit else 2 * unit)) * Nat.pow 10 sn
    let scale := 4 * den * Nat.pow 10 sp
    let dDown := v / scale
    let inside (d : Nat) : Bool :=
      let x := d * scale
      if inclusive then lo ≤ x && x ≤ hi else lo < x && x < hi
    let down := inside dDown
    let up := inside (dDown + 1)
    if down && up then
      -- the nearer one, the upper one at an exact tie; the distances are `v - dDown·scale` and
      -- `(dDown+1)·scale - v`
      if v - dDown * scale < (dDown + 1) * scale - v then some (dDown, s) else some (dDown + 1, s)
    else if down then some (dDown, s)
    else if up then some (dDown + 1, s)
    else none
  let found := (List.range 17).findSome? fun i => attempt (i + 1)
  let (d, s) := found.getD (m, e)
  trimZeros d s 400

/-- The digits and exponent of the shortest decimal for a positive finite float. -/
def ofFloat (x : Float) : Nat × Int :=
  let (_, be, _) := Binary64.decode x
  let (m, e) := Binary64.magnitude x
  digits m e (m == Binary64.hidden && be > 1)

end Shortest

end LuaBytecode
