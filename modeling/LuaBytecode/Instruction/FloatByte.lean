/-!
# Floating-point bytes

Table constructors announce the sizes of a new table's parts in one 9-bit operand each. A size
`x` is written as a byte `eeeeexxx`, which stands for `x` itself below 8 and otherwise for
`(1xxx)₂ · 2^(eeeee - 1)`. `FloatByte.encode` rounds up to the least byte that stands for at
least `x`; `FloatByte.decode` reads a byte back.
-/

namespace LuaBytecode

namespace FloatByte

/-- Divides by 16, rounding up, while the value is at least 128, counting four per step. -/
def shrinkBy16 (x e : Nat) : Nat × Nat :=
  if 128 ≤ x then shrinkBy16 ((x + 15) / 16) (e + 4) else (x, e)
termination_by x
decreasing_by omega

/-- Halves, rounding up, while the value is at least 16, counting one per step. -/
def shrinkBy2 (x e : Nat) : Nat × Nat :=
  if 16 ≤ x then shrinkBy2 ((x + 1) / 2) (e + 1) else (x, e)
termination_by x
decreasing_by omega

/-- The least byte that stands for at least `x`. -/
def encode (x : Nat) : Nat :=
  if x < 8 then x
  else
    let (m, e) := shrinkBy16 x 0
    let (m, e) := shrinkBy2 m e
    (e + 1) * 8 + (m - 8)

/-- The size a byte stands for, computed in 32-bit words. -/
def decode (x : Nat) : Nat :=
  if x < 8 then x else (x % 8 + 8) * Nat.pow 2 (x / 8 - 1) % 4294967296

end FloatByte

end LuaBytecode
