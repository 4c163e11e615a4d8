import LuaBytecode.Proofs.Machine.Execution
/-!
# Integer `for` loops count their progression

An integer `for` loop from `i` to the limit `l` by a step `s ≠ 0` counts its iterations in
advance, in unsigned 64-bit arithmetic, and keeps the count in the limit's register
(`Loop.iterations`); each `forloop` then adds the step to the index and counts down. This module
says what such a loop runs through:

* `Loop.lt_iterations_iff`: the count covers exactly the `k` whose value `i + k·s` has not passed
  the limit (`Loop.Reaches`), as long as `k < 2 ^ 64 - 1`. The unsigned distance between start and
  limit and the stride `-(s + 1) + 1` of a descending loop are exact (`toNat_sub_toUInt64`,
  `toNat_stride`), and the count stops at `2 ^ 64 - 1` (`toNat_capSucc`), so the one loop with
  `2 ^ 64` values, from the lowest 64-bit integer to the highest by 1 (or back by -1), misses its
  last one;
* `Loop.toInt_progression`: a value of the progression that has not passed the limit lies
  between start and limit, so the wrapping additions of the index never show;
* `VM.forPrep_int`, `VM.forLoop_next`, `VM.forLoop_stop`: `forprep` sets up `Loop.Control` for
  `k = 0`, and the `k`-th `forloop` binds `i + k·s` and goes on while `k` is below the count,
  setting up `Loop.Control` for `k + 1`. `VM.forLoop_binds_progression` puts them together.

A float limit is rounded toward the loop's range and clamped first (`Loop.clampLimit`); a NaN
limit becomes the lowest integer for an ascending loop, which still runs once from there
(`Loop.nan_limit_runs_from_min`).
-/

namespace LuaBytecode

namespace Loop

/-! ## Unsigned arithmetic on 64-bit integers -/

/-- The unsigned reading of a 64-bit integer: negative ones are `2 ^ 64` higher. -/
theorem toNat_toUInt64 (x : Int64) :
    (x.toUInt64.toNat : Int) = if x.toInt < 0 then x.toInt + 2 ^ 64 else x.toInt := by
  have h := BitVec.toInt_eq_toNat_cond x.toBitVec
  have hn : x.toUInt64.toNat = x.toBitVec.toNat := (Int64.toNat_toBitVec x).symm
  have hlt := x.toBitVec.isLt
  rw [show x.toInt = x.toBitVec.toInt from rfl, h, hn]
  push_cast at hlt ⊢
  split <;> split <;> omega

/-- The unsigned distance from `b` up to `a` is exact. -/
theorem toNat_sub_toUInt64 {a b : Int64} (h : b.toInt ≤ a.toInt) :
    ((a.toUInt64 - b.toUInt64).toNat : Int) = a.toInt - b.toInt := by
  have ha := toNat_toUInt64 a
  have hb := toNat_toUInt64 b
  have ha' := a.toUInt64.toNat_lt
  have hb' := b.toUInt64.toNat_lt
  have := a.toInt_lt
  have := b.le_toInt
  rw [UInt64.toNat_sub]
  push_cast at ha' hb' ⊢
  split at ha <;> split at hb <;> omega

/-- Adding one to a count, stopping at the largest unsigned 64-bit integer. -/
theorem toNat_capSucc (x : UInt64) :
    (if x == 18446744073709551615 then x else x + 1).toNat = min (x.toNat + 1) (2 ^ 64 - 1) := by
  have hx := x.toNat_lt
  split
  · rename_i h
    have : x.toNat = 2 ^ 64 - 1 := by
      rw [beq_iff_eq] at h
      subst h
      rfl
    omega
  · rename_i h
    have hne : x.toNat ≠ 2 ^ 64 - 1 := fun he =>
      h (by rw [beq_iff_eq]; exact UInt64.toNat_inj.mp (by rw [he]; rfl))
    rw [UInt64.toNat_add, UInt64.toNat_one]
    omega

/-- The stride of a descending loop, `-(s + 1) + 1` in unsigned arithmetic, is `-s`: neither
step overflows, also for the lowest 64-bit integer. -/
theorem toNat_stride {s : Int64} (hs : s.toInt < 0) :
    (((-(s + 1)).toUInt64 + 1).toNat : Int) = -s.toInt := by
  have hlo := s.le_toInt
  have h₁ : (s + 1).toInt = s.toInt + 1 := by
    rw [Int64.toInt_add, show (1 : Int64).toInt = 1 from rfl]
    exact Int.bmod_eq_of_le (by omega) (by omega)
  have h₂ : (-(s + 1)).toInt = -(s.toInt + 1) := by
    rw [Int64.toInt_neg, h₁]
    exact Int.bmod_eq_of_le (by omega) (by omega)
  have h₃ := toNat_toUInt64 (-(s + 1))
  rw [if_neg (by omega), h₂] at h₃
  have hlt := (-(s + 1)).toUInt64.toNat_lt
  rw [UInt64.toNat_add, UInt64.toNat_one]
  push_cast at hlt ⊢
  omega

/-! ## The iterations of a loop -/

/-- The `k`-th value `i + k·s` of the progression from `i` by `s` has not passed the limit `l`:
it is at most `l` going up, at least `l` going down. -/
def Reaches (i l s : Int) (k : Nat) : Prop := if 0 < s then i + k * s ≤ l else l ≤ i + k * s

instance (i l s : Int) (k : Nat) : Decidable (Reaches i l s k) :=
  inferInstanceAs (Decidable (if 0 < s then i + k * s ≤ l else l ≤ i + k * s))

/-- A count `q + 1`, for `q` the quotient of a distance `d` by a stride `t`, capped at
`2 ^ 64 - 1`, covers exactly the `k` with `k·t ≤ d` below the cap. -/
theorem lt_min_div_iff {d t k : Nat} (ht : 0 < t) :
    k < min (d / t + 1) (2 ^ 64 - 1) ↔ k * t ≤ d ∧ k < 2 ^ 64 - 1 := by
  rw [Nat.lt_min, Nat.lt_succ_iff, Nat.le_div_iff_mul_le ht]

/-- `k·t ≤ d` for the exact distance `d` and stride `t` of a loop is `k·s` not passing the
limit. -/
theorem mul_le_iff {k t d : Nat} {dist stride : Int} {P : Prop} (hd : (d : Int) = dist)
    (ht : (t : Int) = stride) (hx : k * stride ≤ dist ↔ P) : k * t ≤ d ↔ P := by
  rw [← hx, ← hd, ← ht]
  exact_mod_cast Iff.rfl

/-- An integer loop from `i` to `l` by a step `s ≠ 0` runs once for each `k` whose value
`i + k·s` has not passed the limit, up to `2 ^ 64 - 1` times. -/
theorem lt_iterations_iff {i l s : Int64} (hs : s ≠ 0) (k : Nat) :
    k < (iterations i l s).toNat ↔ Reaches i.toInt l.toInt s.toInt k ∧ k < 2 ^ 64 - 1 := by
  have h₀ : (0 : Int64).toInt = 0 := rfl
  have hs' : s.toInt ≠ 0 := fun h => hs (Int64.toInt_inj.mp (by rw [h, h₀]))
  have hk : (0 : Int) ≤ k := Int.natCast_nonneg k
  unfold iterations Reaches
  by_cases hpos : s > 0
  · -- ascending: the distance from `i` up to `l`, by the stride `s`
    have hpos' : 0 < s.toInt := by
      rw [gt_iff_lt, Int64.lt_iff_toInt_lt, h₀] at hpos
      exact hpos
    have hks : 0 ≤ (k : Int) * s.toInt := Int.mul_nonneg hk hpos'.le
    rw [if_pos hpos, if_pos hpos']
    by_cases hil : i > l
    · have hil' : l.toInt < i.toInt := Int64.lt_iff_toInt_lt.mp hil
      rw [if_pos hil]
      simp only [UInt64.toNat_zero, Nat.not_lt_zero, false_iff, not_and]
      intro h
      omega
    · have hil' : i.toInt ≤ l.toInt := Int.not_lt.mp (mt Int64.lt_iff_toInt_lt.mpr hil)
      have ht := toNat_toUInt64 s
      rw [if_neg (by omega)] at ht
      rw [if_neg hil, toNat_capSucc, UInt64.toNat_div, lt_min_div_iff (by omega)]
      exact and_congr_left' (mul_le_iff (toNat_sub_toUInt64 hil') ht (by constructor <;> intro <;> omega))
  · -- descending: the distance from `l` up to `i`, by the stride `-s`
    have hneg : s.toInt < 0 := by
      rw [gt_iff_lt, Int64.lt_iff_toInt_lt, h₀] at hpos
      omega
    have hks : (k : Int) * s.toInt ≤ 0 := Int.mul_nonpos_of_nonneg_of_nonpos hk hneg.le
    rw [if_neg hpos, if_neg (show ¬(0 < s.toInt) by omega)]
    by_cases hil : i < l
    · have hil' : i.toInt < l.toInt := Int64.lt_iff_toInt_lt.mp hil
      rw [if_pos hil]
      simp only [UInt64.toNat_zero, Nat.not_lt_zero, false_iff, not_and]
      intro h
      omega
    · have hil' : l.toInt ≤ i.toInt := Int.not_lt.mp (mt Int64.lt_iff_toInt_lt.mpr hil)
      have ht := toNat_stride hneg
      rw [if_neg hil, toNat_capSucc, UInt64.toNat_div, lt_min_div_iff (by omega)]
      refine and_congr_left' (mul_le_iff (toNat_sub_toUInt64 hil') ht ?_)
      rw [Int.mul_neg]
      constructor <;> intro <;> omega

/-- The loop over the whole 64-bit range by 1 has `2 ^ 64` values but counts `2 ^ 64 - 1`. -/
example : (iterations (-9223372036854775808) 9223372036854775807 1).toNat = 2 ^ 64 - 1 := by
  decide

/-- A value of the progression that has not passed the limit lies between the start and the
limit, both 64-bit integers, so the 64-bit value with its bits is the exact one. -/
theorem toInt_progression {i l s : Int64} {k : Nat} (h : Reaches i.toInt l.toInt s.toInt k) :
    (Int64.ofInt (i.toInt + k * s.toInt)).toInt = i.toInt + k * s.toInt := by
  have hk : (0 : Int) ≤ k := Int.natCast_nonneg k
  have := i.le_toInt
  have := i.toInt_lt
  have := l.le_toInt
  have := l.toInt_lt
  unfold Reaches at h
  split at h
  · have : 0 ≤ (k : Int) * s.toInt := Int.mul_nonneg hk (by omega)
    exact Int64.toInt_ofInt_of_le (by omega) (by omega)
  · have : (k : Int) * s.toInt ≤ 0 := Int.mul_nonpos_of_nonneg_of_nonpos hk (by omega)
    exact Int64.toInt_ofInt_of_le (by omega) (by omega)

/-- A NaN limit makes an ascending loop run only when it starts at the lowest 64-bit integer,
and then once. -/
theorem nan_limit_runs_from_min {i s : Int64} {f : Float} (hf : Binary64.isNaN f = true)
    (hs : s > 0) (k : Nat) :
    k < (iterations i (clampLimit f true) s).toNat ↔ k = 0 ∧ i.toInt = -2 ^ 63 := by
  have h₀ : (0 : Int64).toInt = 0 := rfl
  have hpos : 0 < s.toInt := by
    rw [gt_iff_lt, Int64.lt_iff_toInt_lt, h₀] at hs
    exact hs
  have hlo : (clampLimit f true).toInt = -2 ^ 63 := by
    simp only [clampLimit, hf, if_true]
    rfl
  rw [lt_iterations_iff (fun h => by subst h; exact absurd hpos (Int.lt_irrefl _)), Reaches,
    if_pos hpos, hlo]
  have := i.le_toInt
  constructor
  · rintro ⟨h, -⟩
    rcases Nat.eq_zero_or_pos k with rfl | hk
    · exact ⟨rfl, by omega⟩
    · have : (s.toInt : Int) ≤ k * s.toInt :=
        le_mul_of_one_le_left hpos.le (by exact_mod_cast hk)
      omega
  · rintro ⟨rfl, hi⟩
    exact ⟨by omega, by norm_num⟩

/-! ## The loop's registers -/

/-- The registers of a loop from `i` to `l` by `s` before its `k`-th `forloop`: the index holds
`i + (k - 1)·s`, the limit's register the iterations left, and the step register `s`. -/
structure Control (f : Frame) (a : Nat) (i l s : Int64) (k : Nat) : Prop where
  index : f.reg a = .int (Int64.ofInt (i.toInt + ((k : Int) - 1) * s.toInt))
  count : f.reg (a + 1) = .int (UInt64.ofNat ((iterations i l s).toNat - k)).toInt64
  step : f.reg (a + 2) = .int s
  le : k ≤ (iterations i l s).toNat

end Loop

namespace VM

open Loop

variable {m : Machine} {a k : Nat} {i l s : Int64}

/-- One `forloop` on integer registers: it stops on a count of zero, and otherwise counts down,
adds the step to the index and binds the result. -/
theorem forLoop_int {x c : Int64} (hx : m.frame.reg a = .int x) (hc : m.frame.reg (a + 1) = .int c)
    (hs : m.frame.reg (a + 2) = .int s) :
    (forLoop a).run m =
      if c.toUInt64 = 0 then .ok false m
      else .ok true { m with frame := ((m.frame.setReg (a + 1) (.int (c.toUInt64 - 1).toInt64)).setReg
        a (.int (x + s))).setReg (a + 3) (.int (x + s)) } := by
  by_cases h₀ : c.toUInt64 = 0
  · simp [forLoop, reg, frame, hx, hc, hs, h₀]
  · simp [forLoop, reg, frame, setReg, modifyFrame, hx, hc, hs, h₀]

/-- `forprep` on an integer start and step and a limit that is an integer, or a float rounded
to one, puts the start less one step in the index and the count in the limit's register: the
loop's registers for its first `forloop`. -/
theorem forPrep_int (hi : m.frame.reg a = .int i)
    (hl : m.frame.reg (a + 1) = .int l ∨ ∃ f, m.frame.reg (a + 1) = .float f ∧ l = clampLimit f (s > 0))
    (hs : m.frame.reg (a + 2) = .int s) (h₀ : s ≠ 0) :
    ∃ m', (forPrep a).run m = .ok () m' ∧ Machine.Rest m m' ∧ Control m'.frame a i l s 0 := by
  have hrun : (forPrep a).run m = .ok ()
      { m with frame := (m.frame.setReg a (.int (i - s))).setReg (a + 1) (.int (iterations i l s).toInt64) } := by
    rcases hl with hl | ⟨f, hf, rfl⟩
    · simp [forPrep, reg, frame, setReg, modifyFrame, hi, hl, hs, h₀, Value.toNumber?]
    · simp [forPrep, reg, frame, setReg, modifyFrame, hi, hf, hs, h₀, Value.toNumber?]
  refine ⟨_, hrun, ((Machine.Rest.refl m).setReg a _).setReg (a + 1) _, ?_, ?_, ?_, Nat.zero_le _⟩
  · simp only [Frame.reg_setReg, if_neg (Nat.succ_ne_self a).symm]
    rw [Int64.ofInt_add, Int64.ofInt_toInt]
    simp [Int64.sub_eq_add_neg, Int64.ofInt_neg, Int64.ofInt_toInt]
  · simp
  · simp only [Frame.reg_setReg, if_neg (show a + 2 ≠ a + 1 by omega), if_neg (show a + 2 ≠ a by omega)]
    exact hs

/-- The last `forloop` of a loop, on the registers for `k` equal to the count, stops it. -/
theorem forLoop_stop (hC : Control m.frame a i l s k) (hk : k = (iterations i l s).toNat) :
    (forLoop a).run m = .ok false m := by
  rw [forLoop_int hC.index hC.count hC.step, if_pos]
  rw [UInt64.toUInt64_toInt64, hk, Nat.sub_self]
  rfl

/-- A `forloop` on the registers for `k` below the count binds `i + k·s` and leaves the
registers for `k + 1`. -/
theorem forLoop_next (hC : Control m.frame a i l s k) (hk : k < (iterations i l s).toNat) :
    ∃ m', (forLoop a).run m = .ok true m' ∧ Machine.Rest m m' ∧ Control m'.frame a i l s (k + 1) ∧
      m'.frame.reg (a + 3) = .int (Int64.ofInt (i.toInt + k * s.toInt)) := by
  have hleft : (UInt64.ofNat ((iterations i l s).toNat - k)).toNat = (iterations i l s).toNat - k :=
    UInt64.toNat_ofNat_of_lt' (by have := (iterations i l s).toNat_lt; unfold UInt64.size; omega)
  have hne : UInt64.ofNat ((iterations i l s).toNat - k) ≠ 0 := fun h => by
    rw [h, UInt64.toNat_zero] at hleft
    omega
  have hnext : Int64.ofInt (i.toInt + ((k : Int) - 1) * s.toInt) + s =
      Int64.ofInt (i.toInt + k * s.toInt) := by
    rw [← Int64.ofInt_toInt s, ← Int64.ofInt_add, Int64.ofInt_toInt]
    congr 1
    ring
  have hcount : UInt64.ofNat ((iterations i l s).toNat - k) - 1 =
      UInt64.ofNat ((iterations i l s).toNat - (k + 1)) := by
    apply UInt64.toNat_inj.mp
    have := (iterations i l s).toNat_lt
    rw [UInt64.toNat_sub, hleft, UInt64.toNat_one, UInt64.toNat_ofNat_of_lt' (by unfold UInt64.size; omega)]
    omega
  rw [forLoop_int hC.index hC.count hC.step, if_neg (by rw [UInt64.toUInt64_toInt64]; exact hne),
    UInt64.toUInt64_toInt64, hcount, hnext]
  refine ⟨_, rfl, (((Machine.Rest.refl m).setReg _ _).setReg _ _).setReg _ _, ⟨?_, ?_, ?_, hk⟩, ?_⟩
  · simp only [Frame.reg_setReg, if_neg (show a ≠ a + 3 by omega), if_true]
    push_cast
    rw [Int.add_sub_cancel]
  · simp only [Frame.reg_setReg, if_neg (show a + 1 ≠ a + 3 by omega),
      if_neg (show a + 1 ≠ a by omega), if_true]
  · simp only [Frame.reg_setReg, if_neg (show a + 2 ≠ a + 3 by omega),
      if_neg (show a + 2 ≠ a by omega), if_neg (show a + 2 ≠ a + 1 by omega)]
    exact hC.step
  · simp only [Frame.reg_setReg, if_true]

/-- The `k`-th `forloop` of an integer loop goes on exactly when `i + k·s` has not passed the
limit (below the cap of `2 ^ 64 - 1` iterations), and then binds that value, exactly, and leaves
the registers for the next one; otherwise it stops the loop and changes nothing. -/
theorem forLoop_binds_progression (hs : s ≠ 0) (hC : Control m.frame a i l s k) :
    if Reaches i.toInt l.toInt s.toInt k ∧ k < 2 ^ 64 - 1 then
      ∃ m', (forLoop a).run m = .ok true m' ∧ Control m'.frame a i l s (k + 1) ∧
        ∃ v : Int64, m'.frame.reg (a + 3) = .int v ∧ v.toInt = i.toInt + k * s.toInt
    else (forLoop a).run m = .ok false m := by
  split
  · rename_i h
    have hk := (lt_iterations_iff hs k).mpr h
    obtain ⟨m', hrun, -, hC', hv⟩ := forLoop_next hC hk
    exact ⟨m', hrun, hC', _, hv, toInt_progression h.1⟩
  · rename_i h
    exact forLoop_stop hC (by have := hC.le; have := mt (lt_iterations_iff hs k).mp h; omega)

end VM

end LuaBytecode
