import LuaBytecode.Instruction.FloatByte
import Mathlib
/-!
# Floating-point bytes round up to the least byte

`FloatByte.encode x` finds a mantissa `m` in `[8, 16)` and an exponent `e` with `m · 2^e` the
least multiple of `2^e` at least `x`, and the least such exponent: its first loop divides by 16
and its second by 2, rounding up each time. Two invariants carry both loops (`RoundsUp`: `m · 2^e`
is `x` rounded up to a multiple of `2^e`; `Least`: a smaller exponent would need a mantissa of 16
or more), so what they leave is `Scaled`.

Main statement (`encode_least_byte`): below `2^31` the byte fits in 232, stands for at least `x`,
and the byte before it stands for less; `decode` is strictly increasing up to 232, so `encode`
undoes it there.
-/

namespace LuaBytecode

namespace FloatByte

/-- `m · 2^e` is `x` rounded up to a multiple of `2^e`. -/
def RoundsUp (x m e : Nat) : Prop := x ≤ m * 2 ^ e ∧ m * 2 ^ e < x + 2 ^ e

/-- No smaller exponent would do: `x` is above `15 · 2^(e - 1)`, unless `e = 0`. -/
def Least (x e : Nat) : Prop := e = 0 ∨ 15 * 2 ^ e < 2 * x

theorem roundsUp_self (x : Nat) : RoundsUp x x 0 := by
  simp [RoundsUp]

/-- Rounding `m` up to a multiple of `2^k` rounds `x` up to a multiple of `2^(e + k)`: two
roundings up compose to one. -/
theorem RoundsUp.coarsen {x m e k m' : Nat} (h : RoundsUp x m e)
    (hc : m ≤ 2 ^ k * m' ∧ 2 ^ k * m' < m + 2 ^ k) : RoundsUp x m' (e + k) := by
  obtain ⟨hlo, hhi⟩ := h
  have h1 : m * 2 ^ e ≤ 2 ^ k * m' * 2 ^ e := Nat.mul_le_mul_right _ hc.1
  have h2 : (2 ^ k * m' + 1) * 2 ^ e ≤ (m + 2 ^ k) * 2 ^ e := Nat.mul_le_mul_right _ hc.2
  have hpow : m' * 2 ^ (e + k) = 2 ^ k * m' * 2 ^ e := by
    rw [Nat.pow_add]; ring
  rw [RoundsUp, hpow, Nat.pow_add]
  rw [Nat.add_mul, Nat.add_mul, Nat.one_mul] at h2
  constructor
  · omega
  · rw [Nat.mul_comm (2 ^ e)]
    omega

/-- A step taken from a mantissa of `8 · 2^k` or more, `k ≥ 1`, lands on the least exponent. -/
theorem RoundsUp.least {x m e k : Nat} (h : RoundsUp x m e) (hk : 1 ≤ k) (hm : 8 * 2 ^ k ≤ m) :
    Least x (e + k) := by
  right
  have hk2 : 2 ≤ 2 ^ k := by
    calc 2 = 2 ^ 1 := rfl
      _ ≤ 2 ^ k := Nat.pow_le_pow_right (by decide) hk
  have hlt := h.2
  have h1 : 8 * 2 ^ k * 2 ^ e ≤ m * 2 ^ e := Nat.mul_le_mul_right _ hm
  rw [Nat.pow_add]
  nlinarith

/-- The coarse loop keeps both invariants and leaves a mantissa below 128. -/
theorem shrinkBy16_spec {x m e : Nat} (h : RoundsUp x m e) (hl : Least x e) :
    RoundsUp x (shrinkBy16 m e).1 (shrinkBy16 m e).2 ∧ Least x (shrinkBy16 m e).2 ∧
      (shrinkBy16 m e).1 < 128 := by
  fun_induction shrinkBy16 m e with
  | case1 m e hm ih =>
    -- one step divides by 16 = 2^4, rounding up
    have hc : m ≤ 2 ^ 4 * ((m + 15) / 16) ∧ 2 ^ 4 * ((m + 15) / 16) < m + 2 ^ 4 := by omega
    exact ih (h.coarsen hc) (h.least (by decide) (by omega))
  | case2 m e hm => exact ⟨h, hl, by omega⟩

/-- The fine loop keeps both invariants and leaves a mantissa below 16. -/
theorem shrinkBy2_spec {x m e : Nat} (h : RoundsUp x m e) (hl : Least x e) :
    RoundsUp x (shrinkBy2 m e).1 (shrinkBy2 m e).2 ∧ Least x (shrinkBy2 m e).2 ∧
      (shrinkBy2 m e).1 < 16 := by
  fun_induction shrinkBy2 m e with
  | case1 m e hm ih =>
    have hc : m ≤ 2 ^ 1 * ((m + 1) / 2) ∧ 2 ^ 1 * ((m + 1) / 2) < m + 2 ^ 1 := by omega
    exact ih (h.coarsen hc) (h.least (le_refl 1) (by omega))
  | case2 m e hm => exact ⟨h, hl, by omega⟩

/-- What the two loops leave: a mantissa in `[8, 16)` and the least exponent that rounds `x` up
with it. -/
structure Scaled (x m e : Nat) : Prop where
  roundsUp : RoundsUp x m e
  least : Least x e
  mantissa_ge : 8 ≤ m
  mantissa_lt : m < 16

/-- The mantissa is at least 8: at exponent 0 it is `x` itself, and at the least exponent `e > 0`,
`x` is above `7.5 · 2^e`. -/
theorem eight_le_mantissa {x m e : Nat} (hx : 8 ≤ x) (h : RoundsUp x m e) (hl : Least x e) :
    8 ≤ m := by
  rcases hl with rfl | hl
  · obtain ⟨hlo, hhi⟩ := h
    simp only [pow_zero, Nat.mul_one] at hlo hhi
    omega
  · have hlt : 15 * 2 ^ e < 2 * m * 2 ^ e := by
      calc 15 * 2 ^ e < 2 * x := hl
        _ ≤ 2 * (m * 2 ^ e) := Nat.mul_le_mul_left 2 h.1
        _ = 2 * m * 2 ^ e := (Nat.mul_assoc 2 m _).symm
    have := Nat.lt_of_mul_lt_mul_right hlt
    omega

/-- The byte `encode` writes, from the mantissa and exponent of its loops. -/
theorem encode_eq {x : Nat} (hx : 8 ≤ x) :
    ∃ m e, Scaled x m e ∧ encode x = (e + 1) * 8 + (m - 8) := by
  obtain ⟨h16, l16, -⟩ := shrinkBy16_spec (roundsUp_self x) (.inl rfl)
  obtain ⟨h2, l2, hlt⟩ := shrinkBy2_spec h16 l16
  refine ⟨_, _, ⟨h2, l2, eight_le_mantissa hx h2 l2, hlt⟩, ?_⟩
  rw [encode, if_neg (by omega)]

/-! ## Reading bytes back -/

theorem decode_of_lt {b : Nat} (hb : b < 8) : decode b = b := by
  rw [decode, if_pos hb]

/-- Below 240 a byte stands for `(1xxx)₂ · 2^(eeeee - 1)` with no wrap in 32 bits. -/
theorem decode_of_ge {b : Nat} (hb : 8 ≤ b) (hb' : b < 240) :
    decode b = (b % 8 + 8) * 2 ^ (b / 8 - 1) := by
  have hpow : 2 ^ (b / 8 - 1) ≤ 2 ^ 28 := Nat.pow_le_pow_right (by decide) (by omega)
  have hval : (b % 8 + 8) * 2 ^ (b / 8 - 1) ≤ 15 * 2 ^ 28 :=
    Nat.mul_le_mul (by omega) hpow
  rw [decode, if_neg (by omega), Nat.pow_eq]
  exact Nat.mod_eq_of_lt (by omega)

/-- The byte of mantissa `m` and exponent `e` stands for `m · 2^e`. -/
theorem decode_byte {m e : Nat} (hm : 8 ≤ m) (hm' : m < 16) (he : e ≤ 28) :
    decode ((e + 1) * 8 + (m - 8)) = m * 2 ^ e := by
  rw [decode_of_ge (by omega) (by omega)]
  have hmod : ((e + 1) * 8 + (m - 8)) % 8 + 8 = m := by omega
  have hdiv : ((e + 1) * 8 + (m - 8)) / 8 - 1 = e := by omega
  rw [hmod, hdiv]

/-- Each byte up to 232 stands for more than the one before it. -/
theorem decode_lt_succ {y : Nat} (hy : y < 232) : decode y < decode (y + 1) := by
  rcases Nat.lt_or_ge y 7 with h | h
  · rw [decode_of_lt (by omega), decode_of_lt (by omega)]
    omega
  rcases Nat.lt_or_ge y 8 with h8 | h8
  · -- `y = 7`: the first byte with an exponent stands for 8
    rw [decode_of_lt h8, decode_of_ge (by omega) (by omega)]
    have : y = 7 := by omega
    subst this
    decide
  rw [decode_of_ge h8 (by omega), decode_of_ge (by omega) (by omega)]
  have hp : 0 < 2 ^ (y / 8 - 1) := Nat.two_pow_pos _
  rcases Nat.lt_or_ge (y % 8) 7 with hr | hr
  · -- the mantissa grows by one at the same exponent
    have hmod : (y + 1) % 8 = y % 8 + 1 := by omega
    have hdiv : (y + 1) / 8 = y / 8 := by omega
    rw [hmod, hdiv]
    exact Nat.mul_lt_mul_of_pos_right (by omega) hp
  · -- mantissa 15 at exponent `k` is followed by mantissa 8 at exponent `k + 1`
    have hmod : (y + 1) % 8 = 0 := by omega
    have hdiv : (y + 1) / 8 - 1 = (y / 8 - 1) + 1 := by omega
    have hr7 : y % 8 = 7 := by omega
    rw [hmod, hdiv, hr7, Nat.pow_succ]
    omega

/-- `decode` is strictly increasing on the bytes up to 232. -/
theorem decode_strictMonoOn : StrictMonoOn decode (Set.Iic 232) :=
  strictMonoOn_Iic_of_lt_succ fun y hy => by
    rw [Order.succ_eq_add_one]
    exact decode_lt_succ hy

/-! ## The least byte -/

/-- Up to `2^31` the exponent is at most 28. -/
theorem Scaled.exponent_le {x m e : Nat} (h : Scaled x m e) (hx : x ≤ 2 ^ 31) : e ≤ 28 := by
  rcases h.least with rfl | hl
  · omega
  · by_contra he
    have : 2 ^ 29 ≤ 2 ^ e := Nat.pow_le_pow_right (by decide) (by omega)
    omega

/-- At exponent 28 only the mantissa 8 stays within `2^31`. -/
theorem Scaled.mantissa_eq_of_exponent {x m : Nat} (h : Scaled x m 28) (hx : x ≤ 2 ^ 31) :
    m = 8 := by
  have := h.roundsUp.2
  have := h.mantissa_ge
  omega

/-- Up to `2^31` the byte fits in 232, so in the 9-bit operands of `newtable`. -/
theorem encode_le {x : Nat} (hx : x ≤ 2 ^ 31) : encode x ≤ 232 := by
  rcases Nat.lt_or_ge x 8 with h | h
  · rw [encode, if_pos h]
    omega
  obtain ⟨m, e, hs, he⟩ := encode_eq h
  have hm := hs.mantissa_lt
  rw [he]
  rcases Nat.lt_or_ge e 28 with h28 | h28
  · omega
  · obtain rfl : e = 28 := by have := hs.exponent_le hx; omega
    rw [hs.mantissa_eq_of_exponent hx]

/-- The byte stands for at least `x`. -/
theorem le_decode_encode {x : Nat} (hx : x ≤ 2 ^ 31) : x ≤ decode (encode x) := by
  rcases Nat.lt_or_ge x 8 with h | h
  · rw [encode, if_pos h, decode_of_lt h]
  obtain ⟨m, e, hs, he⟩ := encode_eq h
  rw [he, decode_byte hs.mantissa_ge hs.mantissa_lt (hs.exponent_le hx)]
  exact hs.roundsUp.1

/-- The byte before it stands for less than `x`. -/
theorem decode_pred_encode_lt {x : Nat} (hx : x ≤ 2 ^ 31) (hpos : 0 < encode x) :
    decode (encode x - 1) < x := by
  rcases Nat.lt_or_ge x 8 with h | h
  · rw [encode, if_pos h] at hpos ⊢
    rw [decode_of_lt (by omega)]
    omega
  obtain ⟨m, e, hs, he⟩ := encode_eq h
  have he28 := hs.exponent_le hx
  have hm := hs.mantissa_lt
  have hround := hs.roundsUp.2
  rw [he]
  rcases Nat.lt_or_ge 8 m with h8 | h8
  · -- a smaller mantissa at the same exponent falls short of `x`
    rw [show (e + 1) * 8 + (m - 8) - 1 = (e + 1) * 8 + ((m - 1) - 8) by omega,
      decode_byte (by omega) (by omega) he28, Nat.sub_one_mul]
    omega
  obtain rfl : m = 8 := by have := hs.mantissa_ge; omega
  rcases Nat.eq_zero_or_pos e with rfl | he1
  · rw [decode_of_lt (by omega)]
    omega
  · -- mantissa 15 at the exponent below falls short of `x`, since that exponent is too small
    have hl : 15 * 2 ^ e < 2 * x := hs.least.resolve_left (by omega)
    rw [show (e + 1) * 8 + (8 - 8) - 1 = e * 8 + 7 by omega,
      decode_of_ge (by omega) (by omega)]
    rw [show e = (e - 1) + 1 by omega, Nat.pow_succ] at hl
    rw [show (e * 8 + 7) % 8 + 8 = 15 by omega, show (e * 8 + 7) / 8 - 1 = e - 1 by omega]
    omega

/-- Up to 232, `encode` undoes `decode`: `decode` is strictly increasing there, so the least
byte standing for at least `decode y` is `y`. -/
theorem encode_decode {y : Nat} (hy : y ≤ 232) : encode (decode y) = y := by
  have hmono := decode_strictMonoOn
  have hx : decode y ≤ 2 ^ 31 := by
    calc decode y ≤ decode 232 := hmono.monotoneOn hy (le_refl 232) hy
      _ = 2 ^ 31 := by decide
  have hb := encode_le hx
  have hge : y ≤ encode (decode y) :=
    (hmono.le_iff_le hy hb).1 (le_decode_encode hx)
  by_contra hne
  have hlt := decode_pred_encode_lt hx (by omega)
  have hle : decode y ≤ decode (encode (decode y) - 1) :=
    hmono.monotoneOn hy (show encode (decode y) - 1 ≤ 232 by omega) (by omega)
  omega

/-- Floating-point bytes: below `2^31` the byte fits in 232, stands for at least `x`, and the
byte before it stands for less; `decode` is strictly increasing up to 232, and `encode` undoes
it there. -/
theorem encode_least_byte (x : Nat) (hx : x < 2 ^ 31) :
    encode x ≤ 232 ∧ x ≤ decode (encode x) ∧ (0 < encode x → decode (encode x - 1) < x) ∧
      StrictMonoOn decode (Set.Iic 232) ∧ ∀ y ≤ 232, encode (decode y) = y :=
  ⟨encode_le hx.le, le_decode_encode hx.le, decode_pred_encode_lt hx.le, decode_strictMonoOn,
    fun _ hy => encode_decode hy⟩

/-- The largest size below `2^31` gets the byte 232. -/
theorem encode_least_byte_largest :
    2 ^ 31 - 1 < 2 ^ 31 ∧ encode (2 ^ 31 - 1) ≤ 232 :=
  ⟨by decide, (encode_least_byte (2 ^ 31 - 1) (by decide)).1⟩

end FloatByte

end LuaBytecode
