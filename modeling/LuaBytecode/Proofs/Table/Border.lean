import LuaBytecode.Proofs.Table.Write
/-!
# The length of a table is a border

`Table.length` looks at the array part alone: it is the last position there that holds a value.
It is still a border of the whole table, a position `n` where `t[n]` holds a value (or `n = 0`)
and `t[n + 1]` is nil, because the hash part of a normal table never holds the key just past the
array part (`Table.Normal`): a write that extends the array part pulls that key over, or drops
its slot when it holds nil.

* `borderBelow_le`, `getD_borderBelow_pred`, `getD_of_borderBelow_le`: `borderBelow n` is the
  last position up to `n` that holds a value, and the positions after it up to `n` hold nil;
* `get_int_of_le`, `get_pastKey`: an integer key of the array part reads its position, and the
  key just past the array part reads nil on a normal table;
* `length_is_border`: the length, as the 64-bit integer the machine reports, is a border of every
  table a program builds.
-/

namespace LuaBytecode

namespace Table

variable {t : Table} {j : Nat}

/-! ## The last position holding a value -/

theorem borderBelow_le (t : Table) : ∀ n, t.borderBelow n ≤ n
  | 0 => Nat.le_refl 0
  | n + 1 => by
    unfold borderBelow
    split
    · exact Nat.le_succ_of_le (borderBelow_le t n)
    · exact Nat.le_refl _

/-- A border below `n` other than 0 is a position that holds a value. -/
theorem getD_borderBelow_pred : ∀ {n : Nat}, 0 < t.borderBelow n →
    t.array.getD (t.borderBelow n - 1) .nil ≠ .nil
  | 0, h => absurd h (Nat.lt_irrefl 0)
  | n + 1, h => by
    unfold borderBelow at h ⊢
    split
    · rename_i hnil
      rw [if_pos hnil] at h
      exact getD_borderBelow_pred h
    · rename_i hv
      rw [Nat.add_sub_cancel]
      exact fun he => hv (Value.isNil_iff.mpr he)

/-- The positions after the border below `n`, up to `n`, hold nil. -/
theorem getD_of_borderBelow_le : ∀ {n : Nat}, t.borderBelow n ≤ j → j < n →
    t.array.getD j .nil = .nil
  | 0, _, hj => absurd hj (Nat.not_lt_zero j)
  | n + 1, hb, hj => by
    unfold borderBelow at hb
    split at hb
    · rename_i hnil
      rcases Nat.lt_succ_iff_lt_or_eq.mp hj with hlt | rfl
      · exact getD_of_borderBelow_le hb hlt
      · exact Value.isNil_iff.mp hnil
    · omega

/-! ## Reading integer keys -/

/-- An integer key `m` with `1 ≤ m ≤ size` reads position `m - 1` of the array part. -/
theorem get_int_of_le {m : Int64} (h₁ : 1 ≤ m.toInt) (h₂ : m.toInt ≤ t.array.size) :
    t.get (.int m) = t.array.getD (m.toInt - 1).toNat .nil := by
  rw [get_eq_valueAt]
  simp [Key.ofValue?, valueAt, keySlot?, h₁, h₂]

/-- On a normal table the key just past the array part reads nil: it has no array slot, and
the hash part does not hold it. -/
theorem get_pastKey (hN : t.Normal) {m : Int64} (hm : m.toInt = t.array.size + 1) :
    t.get (.int m) = .nil := by
  have hs : t.keySlot? (.int m) = none := by simp [keySlot?, hm]
  rw [get_eq_valueAt]
  simp [Key.ofValue?, valueAt_of_keySlot_none hs, hashGet_of_not_mem (hN.int_not_mem hm)]

/-! ## The length is a border -/

/-- The length of every table a program builds, as the 64-bit integer the machine reports, is
a border: it is not negative, it is 0 or its key holds a value, and the next key holds nil.
The table must have fewer entries than there are positive 64-bit integers, as every table in
memory has; without that the length and the key after it would not be 64-bit integers. -/
theorem length_is_border (ht : t.Reachable) (hF : t.Fits) :
    let n : Int64 := Int64.ofNat t.length
    0 ≤ n.toInt ∧ (n = 0 ∨ t.get (.int n) ≠ .nil) ∧ t.get (.int (n + 1)) = .nil := by
  intro n
  have hle : t.length ≤ t.array.size := borderBelow_le t _
  have hsz : t.array.size < 2 ^ 63 - 1 := by unfold Fits at hF; omega
  have hn : n.toInt = t.length := Int64.toInt_ofNat_of_lt (by omega)
  have hn₁ : (n + 1).toInt = t.length + 1 := by
    rw [Int64.toInt_add, hn, show (1 : Int64).toInt = 1 from rfl]
    exact Int.bmod_eq_of_le (by omega) (by omega)
  refine ⟨by omega, ?_, ?_⟩
  · rcases Nat.eq_zero_or_pos t.length with h₀ | hpos
    · left
      simp [n, h₀]
    · right
      rw [get_int_of_le (by omega) (by omega), show (n.toInt - 1).toNat = t.length - 1 by omega]
      exact getD_borderBelow_pred hpos
  · rcases Nat.lt_or_eq_of_le hle with hlt | heq
    -- a nil position inside the array part follows the border
    · rw [get_int_of_le (by omega) (by omega), show ((n + 1).toInt - 1).toNat = t.length by omega]
      exact getD_of_borderBelow_le (Nat.le_refl _) hlt
    -- the border is the end of the array part: the next key is the one just past it
    · exact get_pastKey ht.normal (by omega)

/-- Writing 1, 2 and 3 under the keys 1, 2 and 3 and then nil under 3 leaves a table of length 2,
a border: 2 holds a value and 3 reads nil. -/
theorem length_is_border_cleared :
    let t₁ := Table.empty.write (.int 1) (.int 1) (.int 1)
    let t₂ := t₁.write (.int 2) (.int 2) (.int 2)
    let t := (t₂.write (.int 3) (.int 3) (.int 3)).write (.int 3) (.int 3) .nil
    t.Reachable ∧ t.Fits ∧ t.length = 2 ∧
      (0 ≤ (Int64.ofNat t.length).toInt ∧
        (Int64.ofNat t.length = 0 ∨ t.get (.int (Int64.ofNat t.length)) ≠ .nil) ∧
        t.get (.int (Int64.ofNat t.length + 1)) = .nil) := by
  intro t₁ t₂ t
  have h₁ : t₁.Reachable := .set (k := .int 1) (v := .int 1) .empty rfl
  have h₂ : t₂.Reachable := .set (k := .int 2) (v := .int 2) h₁ rfl
  have h₃ : (t₂.write (.int 3) (.int 3) (.int 3)).Reachable := .set (k := .int 3) (v := .int 3) h₂ rfl
  have ht : t.Reachable := .set (k := .int 3) (v := .nil) h₃ rfl
  have hF : t.Fits := by unfold Fits; decide +kernel
  exact ⟨ht, hF, by decide +kernel, length_is_border ht hF⟩

end Table

end LuaBytecode
