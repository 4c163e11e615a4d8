import LuaBytecode.Machine.Arith
import Mathlib
/-!
# Integer floor division

Integer `//` and `%` round the quotient toward minus infinity. `Arith.floorDiv` computes the
truncated quotient `m / n` and moves it down by one where truncation rounded up: the remainder is
not zero and the signs of `m` and `n` differ (`RoundedUp`); `Arith.floorMod` moves the truncated
remainder by `n` in the same case. A divisor of `-1` is taken apart, since `MIN / -1` is the one
quotient out of range.

Main statement (`floor_division_exact`): for `n ≠ 0` the quotient is `⌊m / n⌋` wrapped into 64 bits,
exact but for `MIN // -1`; the remainder is `m - n ⌊m / n⌋` and lies between 0 and `n` on the side of
`n` (`FloorDivision`); with overflow checks on, neither function stops (`floorDivChecked`,
`floorModChecked`); and `onInts` fails exactly on a zero divisor.
-/

namespace LuaBytecode

namespace Arith

/-! ## Floor division on the integers -/

/-- Truncation rounded `a / b` up: the remainder is not zero and the signs differ. -/
def RoundedUp (a b : Int) : Prop := a.tmod b ≠ 0 ∧ (a < 0 ↔ ¬ b < 0)

/-- `q` is `⌊a / b⌋` once `a = b q + r` with `r` between 0 and `b`, on the side of `b`. -/
theorem floor_div_eq {a b q r : Int} (h : a = b * q + r)
    (hr : (0 < b ∧ 0 ≤ r ∧ r < b) ∨ (b < 0 ∧ b < r ∧ r ≤ 0)) :
    ⌊(a : ℚ) / b⌋ = q := by
  rw [Int.floor_eq_iff]
  rcases hr with ⟨hb, h0, h1⟩ | ⟨hb, h0, h1⟩
  · have hb' : (0 : ℚ) < b := by exact_mod_cast hb
    rw [le_div_iff₀ hb', div_lt_iff₀ hb']
    have hlo : q * b ≤ a := by rw [h, Int.mul_comm]; omega
    have hhi : a < (q + 1) * b := by rw [h, Int.add_mul, Int.one_mul, Int.mul_comm]; omega
    exact ⟨by exact_mod_cast hlo, by exact_mod_cast hhi⟩
  · have hb' : (b : ℚ) < 0 := by exact_mod_cast hb
    rw [le_div_iff_of_neg hb', div_lt_iff_of_neg hb']
    have hlo : a ≤ q * b := by rw [h, Int.mul_comm]; omega
    have hhi : (q + 1) * b < a := by rw [h, Int.add_mul, Int.one_mul, Int.mul_comm]; omega
    exact ⟨by exact_mod_cast hlo, by exact_mod_cast hhi⟩

/-- The remainder `a - b ⌊a / b⌋` lies between 0 and `b`, on the side of `b`. -/
theorem sub_mul_floor_bounds (a b : Int) :
    (0 < b → 0 ≤ a - b * ⌊(a : ℚ) / b⌋ ∧ a - b * ⌊(a : ℚ) / b⌋ < b) ∧
    (b < 0 → b < a - b * ⌊(a : ℚ) / b⌋ ∧ a - b * ⌊(a : ℚ) / b⌋ ≤ 0) := by
  have hle := Int.floor_le ((a : ℚ) / b)
  have hlt := Int.lt_floor_add_one ((a : ℚ) / b)
  refine ⟨fun hb => ?_, fun hb => ?_⟩
  · have hb' : (0 : ℚ) < b := by exact_mod_cast hb
    rw [le_div_iff₀ hb'] at hle
    rw [div_lt_iff₀ hb'] at hlt
    have h1 : ⌊(a : ℚ) / b⌋ * b ≤ a := by exact_mod_cast hle
    have h2 : a < (⌊(a : ℚ) / b⌋ + 1) * b := by exact_mod_cast hlt
    constructor <;> nlinarith
  · have hb' : (b : ℚ) < 0 := by exact_mod_cast hb
    rw [le_div_iff_of_neg hb'] at hle
    rw [div_lt_iff_of_neg hb'] at hlt
    have h1 : a ≤ ⌊(a : ℚ) / b⌋ * b := by exact_mod_cast hle
    have h2 : (⌊(a : ℚ) / b⌋ + 1) * b < a := by exact_mod_cast hlt
    constructor <;> nlinarith

/-- The truncated remainder has the sign of the dividend and is smaller than the divisor. -/
theorem tmod_bounds (a b : Int) (hb : b ≠ 0) :
    (0 ≤ a → 0 ≤ a.tmod b) ∧ (a ≤ 0 → a.tmod b ≤ 0) ∧ (a.tmod b).natAbs < b.natAbs := by
  refine ⟨Int.tmod_nonneg b, fun ha => ?_, ?_⟩
  · have := Int.tmod_nonneg b (Int.neg_nonneg_of_nonpos ha)
    rw [Int.neg_tmod] at this
    omega
  · rw [Int.natAbs_tmod]
    exact Nat.mod_lt _ (by omega)

theorem floor_of_roundedUp {a b : Int} (hb : b ≠ 0) (h : RoundedUp a b) :
    ⌊(a : ℚ) / b⌋ = a.tdiv b - 1 := by
  obtain ⟨hpos, hneg, hlt⟩ := tmod_bounds a b hb
  have hsum := Int.tmod_add_tdiv_mul a b
  unfold RoundedUp at h
  apply floor_div_eq (r := a.tmod b + b)
  · rw [Int.mul_sub, Int.mul_comm]; omega
  · omega

theorem floor_of_not_roundedUp {a b : Int} (hb : b ≠ 0) (h : ¬ RoundedUp a b) :
    ⌊(a : ℚ) / b⌋ = a.tdiv b := by
  obtain ⟨hpos, hneg, hlt⟩ := tmod_bounds a b hb
  have hsum := Int.tmod_add_tdiv_mul a b
  unfold RoundedUp at h
  apply floor_div_eq (r := a.tmod b)
  · rw [Int.mul_comm]; omega
  · omega

/-- Where the remainder is not zero it has the dividend's sign, so the remainder's sign decides
as well as the dividend's. -/
theorem roundedUp_iff_tmod {a b : Int} (hb : b ≠ 0) :
    RoundedUp a b ↔ a.tmod b ≠ 0 ∧ (a.tmod b < 0 ↔ ¬ b < 0) := by
  obtain ⟨hpos, hneg, -⟩ := tmod_bounds a b hb
  unfold RoundedUp
  omega

/-- Truncation rounds up only past a divisor of magnitude two or more, so the quotient is at most
half the dividend. -/
theorem natAbs_tdiv_le_of_roundedUp {a b : Int} (h : RoundedUp a b) :
    2 * (a.tdiv b).natAbs ≤ a.natAbs := by
  have hb : b.natAbs ≠ 1 := by
    intro h1
    apply h.1
    rw [← Int.natAbs_eq_zero, Int.natAbs_tmod, h1, Nat.mod_one]
  rw [Int.natAbs_tdiv]
  rcases Nat.eq_zero_or_pos b.natAbs with h0 | h0
  · have : a.natAbs.div 0 = 0 := Nat.div_zero _
    rw [h0, this]
    omega
  · calc 2 * (a.natAbs / b.natAbs) ≤ 2 * (a.natAbs / 2) :=
          Nat.mul_le_mul_left 2 (Nat.div_le_div_left (by omega) (by decide))
      _ ≤ a.natAbs := Nat.mul_div_le a.natAbs 2

/-! ## The 64-bit operations -/

/-- The sign bit of `m ^^^ n` is set exactly when the signs of `m` and `n` differ. -/
theorem xor_neg_iff (m n : Int64) : m ^^^ n < 0 ↔ (m.toInt < 0 ↔ ¬ n.toInt < 0) := by
  have sign (x : Int64) : x < 0 ↔ x.toBitVec.msb = true := by
    rw [Int64.lt_iff_toBitVec_slt]
    exact BitVec.slt_zero_iff_msb_cond
  have toInt_neg (x : Int64) : x.toInt < 0 ↔ x < 0 := by
    rw [Int64.lt_iff_toInt_lt, Int64.toInt_zero]
  rw [toInt_neg, toInt_neg, sign, sign, sign, Int64.toBitVec_xor, BitVec.msb_xor]
  cases m.toBitVec.msb <;> cases n.toBitVec.msb <;> simp

theorem toInt_ne_zero {n : Int64} (hn : n ≠ 0) : n.toInt ≠ 0 := by
  rwa [← Int64.toInt_zero, Ne, Int64.toInt_inj]

/-- The test `floorDiv` makes is `RoundedUp`. -/
theorem floorDiv_test_iff (m n : Int64) :
    (m % n != 0 && (m ^^^ n) < 0) = true ↔ RoundedUp m.toInt n.toInt := by
  rw [RoundedUp, ← xor_neg_iff, ← Int64.toInt_mod, ← Int64.toInt_zero, Ne, Int64.toInt_inj]
  simp

/-- The test `floorMod` makes on the truncated remainder is `RoundedUp` too. -/
theorem floorMod_test_iff (m n : Int64) (hn : n ≠ 0) :
    (m % n != 0 && (m % n ^^^ n) < 0) = true ↔ RoundedUp m.toInt n.toInt := by
  have hn' := toInt_ne_zero hn
  rw [roundedUp_iff_tmod hn', ← Int64.toInt_mod, ← xor_neg_iff, ← Int64.toInt_zero, Ne,
    Int64.toInt_inj]
  simp

/-- The corrected quotient `tdiv - 1` stays in range: truncation rounds up only past a divisor of
magnitude two or more. -/
theorem tdiv_sub_one_fits {m n : Int64} (h : RoundedUp m.toInt n.toInt) :
    -2 ^ 63 ≤ m.toInt.tdiv n.toInt - 1 := by
  have hm := m.le_toInt
  have hm' := m.toInt_lt
  have hhalf := natAbs_tdiv_le_of_roundedUp h
  omega

/-- The corrected remainder `tmod + n` lies strictly between 0 and `n`. -/
theorem tmod_add_fits {m n : Int64} (hn : n.toInt ≠ 0) (h : RoundedUp m.toInt n.toInt) :
    -2 ^ 63 ≤ m.toInt.tmod n.toInt + n.toInt ∧ m.toInt.tmod n.toInt + n.toInt < 2 ^ 63 := by
  obtain ⟨hpos, hneg, hlt⟩ := tmod_bounds m.toInt n.toInt hn
  have := n.le_toInt
  have := n.toInt_lt
  unfold RoundedUp at h
  omega

theorem toInt_neg_one : (-1 : Int64).toInt = -1 := rfl

theorem floor_div_neg_one (a : Int) : ⌊(a : ℚ) / ((-1 : Int) : ℚ)⌋ = -a :=
  floor_div_eq (r := 0) (by ring) (.inr ⟨by decide, by decide, le_refl 0⟩)

/-- Dividing by `-1` negates, wrapping `MIN` to itself. -/
theorem toInt_floorDiv_neg_one (m : Int64) :
    (floorDiv m (-1)).toInt = (⌊(m.toInt : ℚ) / (-1 : Int64).toInt⌋).bmod (2 ^ 64) := by
  have h : floorDiv m (-1) = -m := rfl
  rw [h, Int64.toInt_neg, toInt_neg_one, floor_div_neg_one]

/-- Away from the divisor `-1` the quotient is exact. -/
theorem toInt_floorDiv {m n : Int64} (hn : n ≠ 0) (h1 : n ≠ -1) :
    (floorDiv m n).toInt = ⌊(m.toInt : ℚ) / n.toInt⌋ := by
  have hn' := toInt_ne_zero hn
  have hq : (m / n).toInt = m.toInt.tdiv n.toInt := Int64.toInt_div_of_ne_right m n h1
  rw [floorDiv, if_neg (by simpa using h1)]
  split
  next h =>
    have hr := (floorDiv_test_iff m n).1 h
    have hlo := tdiv_sub_one_fits hr
    have hhi := (m / n).toInt_lt
    rw [floor_of_roundedUp hn' hr, Int64.toInt_sub, hq, Int64.toInt_one]
    apply Int.bmod_eq_of_le <;> omega
  next h =>
    rw [floor_of_not_roundedUp hn' (mt (floorDiv_test_iff m n).2 h), hq]

theorem toInt_floorMod {m n : Int64} (hn : n ≠ 0) :
    (floorMod m n).toInt = m.toInt - n.toInt * ⌊(m.toInt : ℚ) / n.toInt⌋ := by
  by_cases h1 : n = -1
  · subst h1
    have h0 : floorMod m (-1) = 0 := rfl
    rw [h0, toInt_neg_one, floor_div_neg_one]
    simp
  have hn' := toInt_ne_zero hn
  have hsum := Int.tmod_add_tdiv_mul m.toInt n.toInt
  rw [floorMod, if_neg (by simpa using h1)]
  dsimp only
  split
  next h =>
    have hr := (floorMod_test_iff m n hn).1 h
    obtain ⟨hlo, hhi⟩ := tmod_add_fits hn' hr
    rw [floor_of_roundedUp hn' hr, Int64.toInt_add, Int64.toInt_mod, Int.bmod_eq_of_le (by omega)
      (by omega), Int.mul_sub, Int.mul_comm]
    omega
  next h =>
    rw [floor_of_not_roundedUp hn' (mt (floorMod_test_iff m n hn).2 h), Int64.toInt_mod,
      Int.mul_comm]
    omega

/-- The quotient is `⌊m / n⌋` taken modulo 2^64. -/
theorem floorDiv_eq_ofInt {m n : Int64} (hn : n ≠ 0) :
    floorDiv m n = Int64.ofInt ⌊(m.toInt : ℚ) / n.toInt⌋ := by
  apply Int64.toInt_inj.1
  rw [Int64.toInt_ofInt]
  by_cases h1 : n = -1
  · subst h1
    exact toInt_floorDiv_neg_one m
  · rw [← toInt_floorDiv hn h1]
    exact (Int64.toInt_bmod _).symm

/-- The quotient is exact but for `MIN // -1`, which wraps. -/
theorem toInt_floorDiv_eq_iff {m n : Int64} (hn : n ≠ 0) :
    (floorDiv m n).toInt = ⌊(m.toInt : ℚ) / n.toInt⌋ ↔ ¬ (m = Int64.minValue ∧ n = -1) := by
  by_cases h1 : n = -1
  · subst h1
    have hm := m.le_toInt
    have hm' := m.toInt_lt
    have hmin : m = Int64.minValue ↔ m.toInt = -2 ^ 63 := by
      rw [← Int64.toInt_inj, Int64.toInt_minValue]
    rw [toInt_floorDiv_neg_one, toInt_neg_one, floor_div_neg_one, and_iff_left rfl, hmin]
    constructor
    · intro h hmin
      rw [hmin] at h
      exact absurd h (by decide)
    · intro h
      exact Int.bmod_eq_of_le (by omega) (by omega)
  · simp only [toInt_floorDiv hn h1, h1, and_false, not_false_eq_true]

/-! ## What `//` and `%` promise -/

/-- `q` and `r` are the floor quotient and remainder of `m` by `n`: `q` is `⌊m / n⌋` taken modulo
2^64, and `r = m - n ⌊m / n⌋`, which lies between 0 and `n` on the side of `n`. -/
structure FloorDivision (m n q r : Int64) : Prop where
  quotient : q = Int64.ofInt ⌊(m.toInt : ℚ) / n.toInt⌋
  remainder : r.toInt = m.toInt - n.toInt * ⌊(m.toInt : ℚ) / n.toInt⌋
  remainder_of_pos : 0 < n.toInt → 0 ≤ r.toInt ∧ r.toInt < n.toInt
  remainder_of_neg : n.toInt < 0 → n.toInt < r.toInt ∧ r.toInt ≤ 0

theorem floorDivision {m n : Int64} (hn : n ≠ 0) :
    FloorDivision m n (floorDiv m n) (floorMod m n) where
  quotient := floorDiv_eq_ofInt hn
  remainder := toInt_floorMod hn
  remainder_of_pos h := toInt_floorMod hn ▸ (sub_mul_floor_bounds _ _).1 h
  remainder_of_neg h := toInt_floorMod hn ▸ (sub_mul_floor_bounds _ _).2 h

/-! ## With overflow checks

Checked, an operator whose exact result leaves the 64-bit range stops the program; here that is
`none`. Division and remainder also stop on a zero divisor, and both stop on `MIN / -1`, the one
quotient out of range. -/

/-- `x / y`, checked. -/
def checkedDiv (x y : Int64) : Option Int64 :=
  if y = 0 ∨ (x = Int64.minValue ∧ y = -1) then none else some (x / y)

/-- `x % y`, checked: it stops where `x / y` does. -/
def checkedRem (x y : Int64) : Option Int64 :=
  if y = 0 ∨ (x = Int64.minValue ∧ y = -1) then none else some (x % y)

/-- `x - y`, checked. -/
def checkedSub (x y : Int64) : Option Int64 :=
  if BitVec.ssubOverflow x.toBitVec y.toBitVec then none else some (x - y)

/-- `x + y`, checked. -/
def checkedAdd (x y : Int64) : Option Int64 :=
  if BitVec.saddOverflow x.toBitVec y.toBitVec then none else some (x + y)

/-- `floorDiv` with its operators checked; the negation for the divisor `-1` wraps on purpose. -/
def floorDivChecked (m n : Int64) : Option Int64 :=
  if n == -1 then some (-m)
  else do
    let q ← checkedDiv m n
    let r ← checkedRem m n
    if r != 0 && (m ^^^ n) < 0 then checkedSub q 1 else pure q

/-- `floorMod` with its operators checked. -/
def floorModChecked (m n : Int64) : Option Int64 :=
  if n == -1 then some 0
  else do
    let r ← checkedRem m n
    if r != 0 && (r ^^^ n) < 0 then checkedAdd r n else pure r

theorem checkedDiv_eq {x y : Int64} (hy : y ≠ 0) (h1 : y ≠ -1) : checkedDiv x y = some (x / y) := by
  simp [checkedDiv, hy, h1]

theorem checkedRem_eq {x y : Int64} (hy : y ≠ 0) (h1 : y ≠ -1) : checkedRem x y = some (x % y) := by
  simp [checkedRem, hy, h1]

theorem checkedSub_eq {x y : Int64} (hlo : -2 ^ 63 ≤ x.toInt - y.toInt)
    (hhi : x.toInt - y.toInt < 2 ^ 63) : checkedSub x y = some (x - y) := by
  simp only [checkedSub, BitVec.ssubOverflow, Int64.toInt_toBitVec]
  rw [if_neg (by simp; omega)]

theorem checkedAdd_eq {x y : Int64} (hlo : -2 ^ 63 ≤ x.toInt + y.toInt)
    (hhi : x.toInt + y.toInt < 2 ^ 63) : checkedAdd x y = some (x + y) := by
  simp only [checkedAdd, BitVec.saddOverflow, Int64.toInt_toBitVec]
  rw [if_neg (by simp; omega)]

/-- Checked, `floorDiv` never stops: truncated division by anything but `-1` is in range, and the
quotient is moved down only where it is at most half the dividend. -/
theorem floorDivChecked_eq {m n : Int64} (hn : n ≠ 0) : floorDivChecked m n = some (floorDiv m n) := by
  by_cases h1 : n = -1
  · subst h1
    rfl
  rw [floorDivChecked, floorDiv, if_neg (by simpa using h1), if_neg (by simpa using h1),
    checkedDiv_eq hn h1, checkedRem_eq hn h1]
  dsimp only [Option.bind_eq_bind, Option.bind_some]
  split
  next h =>
    have hlo := tdiv_sub_one_fits ((floorDiv_test_iff m n).1 h)
    have hhi := (m / n).toInt_lt
    rw [← Int64.toInt_div_of_ne_right m n h1] at hlo
    exact checkedSub_eq (by rwa [Int64.toInt_one]) (by rw [Int64.toInt_one]; omega)
  next h => rfl

/-- Checked, `floorMod` never stops: the corrected remainder lies between 0 and `n`. -/
theorem floorModChecked_eq {m n : Int64} (hn : n ≠ 0) : floorModChecked m n = some (floorMod m n) := by
  by_cases h1 : n = -1
  · subst h1
    rfl
  have hn' := toInt_ne_zero hn
  rw [floorModChecked, floorMod, if_neg (by simpa using h1), if_neg (by simpa using h1),
    checkedRem_eq hn h1]
  dsimp only [Option.bind_eq_bind, Option.bind_some]
  split
  next h =>
    obtain ⟨hlo, hhi⟩ := tmod_add_fits hn' ((floorMod_test_iff m n hn).1 h)
    rw [← Int64.toInt_mod] at hlo hhi
    exact checkedAdd_eq hlo hhi
  next h => rfl

/-! ## Integer `//` and `%` -/

/-- Integer floor division: a zero divisor is the one error; otherwise the quotient is `⌊m / n⌋`
taken modulo 2^64, exact but for `MIN // -1`, the remainder is `m - n ⌊m / n⌋` on the side of `n`,
and neither function stops when its operators are checked for overflow. -/
theorem floor_division_exact (m n : Int64) :
    onInts .idiv m n =
      (if n = 0 then .error (.runtime "attempt to perform 'n//0'") else .ok (floorDiv m n)) ∧
    onInts .mod m n =
      (if n = 0 then .error (.runtime "attempt to perform 'n%0'") else .ok (floorMod m n)) ∧
    (n ≠ 0 →
      FloorDivision m n (floorDiv m n) (floorMod m n) ∧
      ((floorDiv m n).toInt = ⌊(m.toInt : ℚ) / n.toInt⌋ ↔ ¬ (m = Int64.minValue ∧ n = -1)) ∧
      floorDivChecked m n = some (floorDiv m n) ∧
      floorModChecked m n = some (floorMod m n)) := by
  refine ⟨?_, ?_, fun hn => ⟨floorDivision hn, toInt_floorDiv_eq_iff hn, floorDivChecked_eq hn,
    floorModChecked_eq hn⟩⟩
  · by_cases hn : n = 0 <;> simp [onInts, hn]
  · by_cases hn : n = 0 <;> simp [onInts, hn]

/-- `MIN // -1` is the one quotient that is not exact. -/
theorem floor_division_wraps_min :
    (-1 : Int64) ≠ 0 ∧
      (floorDiv Int64.minValue (-1)).toInt ≠ ⌊(Int64.minValue.toInt : ℚ) / (-1 : Int64).toInt⌋ :=
  ⟨by decide, fun h => ((floor_division_exact _ _).2.2 (by decide)).2.1.1 h ⟨rfl, rfl⟩⟩

example : floorDiv Int64.minValue (-1) = Int64.minValue := by decide
example : floorDiv (-7) 2 = -4 ∧ floorMod (-7) 2 = 1 := by decide

end Arith

end LuaBytecode
