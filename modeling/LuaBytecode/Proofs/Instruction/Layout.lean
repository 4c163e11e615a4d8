import LuaBytecode.Proofs.Instruction.Demand
import Mathlib
/-!
# The instruction layout

The fields of a word overlap (Bx spans C and B, Ax spans A, C and B), so what a builder puts in
and what a setter replaces has to be read through the whole word. Every builder's operands read
back within their widths (`Instruction.word_abc` and its companions in `Proofs.Instruction.Fields`,
with `sbx_asbx` here). The two setters the compiler applies to emitted jumps rewrite only their
own bits (`SameOutside`): `setA` bits 6–13 (`word_setA`, `sameOutside_setA`) and `setSbx` bits
14–31 (`sameOutside_setSbx`), so they commute (`setA_setSbx`). An RK operand carries a constant
index up to 255 in its low byte under the bit that marks it, and a register up to 255 never has
that bit.

Main statement: `fields_round_trip`.
-/

namespace LuaBytecode

namespace Instruction

/-- `i'` differs from `i` at most in bits `lo` to `hi - 1`. -/
def SameOutside (lo hi : Nat) (i i' : Instruction) : Prop :=
  ∀ j, j < lo ∨ hi ≤ j → i'.word.toNat.testBit j = i.word.toNat.testBit j

/-- Two words agree outside bits `lo` to `hi - 1` when they agree below `lo` and from `hi` up. -/
theorem sameOutside_of_word {lo hi : Nat} {i i' : Instruction}
    (hlo : i'.word.toNat % 2 ^ lo = i.word.toNat % 2 ^ lo)
    (hhi : i'.word.toNat / 2 ^ hi = i.word.toNat / 2 ^ hi) : SameOutside lo hi i i' := by
  intro j hj
  rcases hj with hj | hj
  · have below (x : Nat) : x.testBit j = (x % 2 ^ lo).testBit j := by
      simp [Nat.testBit_mod_two_pow, hj]
    rw [below, hlo, ← below]
  · have above (x : Nat) : x.testBit j = (x / 2 ^ hi).testBit (j - hi) := by
      rw [Nat.testBit_div_two_pow, Nat.sub_add_cancel hj]
    rw [above, hhi, ← above]

/-- Replacing A rewrites bits 6–13 and nothing else. -/
theorem word_setA (i : Instruction) (a : Nat) :
    (i.setA a).word.toNat = i.word.toNat % 64 + a % 256 * 64 + i.word.toNat / 16384 * 16384 := by
  have hw : i.word.toNat < 4294967296 := i.word.toNat_lt
  have hx := Nat.mod_lt a (by decide : 256 > 0)
  simp only [setA, UInt32.toNat_ofNat', Instruction.a]
  generalize a % 256 = x at hx ⊢
  omega

theorem sameOutside_setA (i : Instruction) (a : Nat) : SameOutside 6 14 i (i.setA a) := by
  apply sameOutside_of_word <;> rw [word_setA] <;> omega

theorem sameOutside_setSbx (i : Instruction) (sbx : Int) : SameOutside 14 32 i (i.setSbx sbx) := by
  have hw : i.word.toNat < 4294967296 := i.word.toNat_lt
  apply sameOutside_of_word <;> rw [word_setSbx] <;> omega

theorem a_setA (i : Instruction) {a : Nat} (ha : a ≤ maxA) : (i.setA a).a = a := by
  simp only [Instruction.a, word_setA, maxA] at *
  omega

theorem b_setA (i : Instruction) (a : Nat) : (i.setA a).b = i.b := by
  simp only [Instruction.b, word_setA]
  omega

theorem c_setA (i : Instruction) (a : Nat) : (i.setA a).c = i.c := by
  simp only [Instruction.c, word_setA]
  omega

/-- Words are equal when they read as the same number. -/
theorem eq_of_word_toNat {i i' : Instruction} (h : i.word.toNat = i'.word.toNat) : i = i' := by
  cases i
  cases i'
  simp only [Instruction.mk.injEq]
  exact UInt32.toNat_inj.1 h

/-- The two setters commute: they write disjoint bits. -/
theorem setA_setSbx (i : Instruction) (a : Nat) (sbx : Int) :
    (i.setA a).setSbx sbx = (i.setSbx sbx).setA a := by
  have hw : i.word.toNat < 4294967296 := i.word.toNat_lt
  apply eq_of_word_toNat
  rw [word_setSbx, word_setA, word_setA, word_setSbx]
  omega

/-- A displacement within the field's range reads back from the word built for it. -/
theorem sbx_asbx (op : Opcode) (a : Nat) {sbx : Int} (hlo : -sbxBias ≤ sbx)
    (hhi : sbx ≤ sbxBias + 1) : (asbx op a sbx).sbx = sbx := by
  rw [asbx, sbx_abx op a (by simp only [maxBx, sbxBias] at *; omega)]
  omega

/-! ## RK operands -/

theorem isConst_constOperand {k : Nat} (hk : k ≤ 255) : isConst (constOperand k) = true := by
  simp only [isConst, constOperand, beq_iff_eq]
  omega

theorem constIndex_constOperand {k : Nat} (hk : k ≤ 255) : constIndex (constOperand k) = k := by
  simp only [constIndex, constOperand]
  omega

theorem isConst_of_le {r : Nat} (hr : r ≤ 255) : isConst r = false := by
  simp only [isConst, beq_eq_false_iff_ne]
  omega

/-! ## The layout as a whole -/

/-- The layout of instruction words: the operands of each builder read back within their
widths; `setA` rewrites only bits 6–13 and `setSbx` only bits 14–31, keeping the other fields,
so applied in either order they give one word with both new fields; an RK operand carries every
constant index up to 255, and no register up to 255 reads as a constant. -/
theorem fields_round_trip (op : Opcode) (i : Instruction) (a b c bx x k r : Nat) (sbx : Int)
    (ha : a ≤ maxA) (hb : b ≤ maxBC) (hc : c ≤ maxBC) (hbx : bx ≤ maxBx) (hx : x ≤ maxAx)
    (hsbx : -sbxBias ≤ sbx ∧ sbx ≤ sbxBias + 1) (hk : k ≤ 255) (hr : r ≤ 255) :
    ((abc op a b c).opcode = op ∧ (abc op a b c).a = a ∧ (abc op a b c).b = b ∧
      (abc op a b c).c = c) ∧
    ((abx op a bx).opcode = op ∧ (abx op a bx).a = a ∧ (abx op a bx).bx = bx) ∧
    ((asbx op a sbx).opcode = op ∧ (asbx op a sbx).a = a ∧ (asbx op a sbx).sbx = sbx) ∧
    ((ax op x).opcode = op ∧ (ax op x).axArg = x) ∧
    (SameOutside 6 14 i (i.setA a) ∧ (i.setA a).a = a ∧ (i.setA a).opcode = i.opcode ∧
      (i.setA a).b = i.b ∧ (i.setA a).c = i.c ∧ (i.setA a).bx = i.bx ∧
      (i.setA a).sbx = i.sbx) ∧
    (SameOutside 14 32 i (i.setSbx sbx) ∧ (i.setSbx sbx).sbx = sbx ∧
      (i.setSbx sbx).opcode = i.opcode ∧ (i.setSbx sbx).a = i.a) ∧
    ((i.setA a).setSbx sbx = (i.setSbx sbx).setA a ∧ ((i.setA a).setSbx sbx).a = a ∧
      ((i.setA a).setSbx sbx).sbx = sbx) ∧
    (isConst (constOperand k) = true ∧ constIndex (constOperand k) = k ∧ isConst r = false) := by
  obtain ⟨hlo, hhi⟩ := hsbx
  refine ⟨⟨opcode_abc op a b c, a_abc op a b c ha, b_abc op a b c hb, c_abc op a b c hc⟩,
    ⟨opcode_abx op a bx, a_abx op bx ha, bx_abx op a hbx⟩,
    ⟨opcode_asbx op a sbx, a_asbx op sbx ha, sbx_asbx op a hlo hhi⟩,
    ⟨opcode_ax op x, axArg_ax op hx⟩,
    ⟨sameOutside_setA i a, a_setA i ha, opcode_setA i a, b_setA i a, c_setA i a, bx_setA i a,
      sbx_setA i a⟩,
    ⟨sameOutside_setSbx i sbx, sbx_setSbx i hlo hhi, opcode_setSbx i sbx, a_setSbx i sbx⟩,
    ⟨setA_setSbx i a sbx, ?_, sbx_setSbx _ hlo hhi⟩,
    ⟨isConst_constOperand hk, constIndex_constOperand hk, isConst_of_le hr⟩⟩
  -- the displacement written last leaves the A written first
  rw [a_setSbx, a_setA i ha]

/-- A jump built with displacement -6, given the largest displacement and then A = 4, keeps both. -/
theorem fields_round_trip_jump :
    (4 : Nat) ≤ maxA ∧ -sbxBias ≤ sbxBias ∧
      (((asbx .jmp 0 (-6)).setSbx sbxBias).setA 4).a = 4 ∧
      (((asbx .jmp 0 (-6)).setSbx sbxBias).setA 4).sbx = sbxBias := by
  obtain ⟨-, -, -, -, -, -, ⟨hcomm, ha, hs⟩, -⟩ :=
    fields_round_trip .jmp (asbx .jmp 0 (-6)) 4 0 0 0 0 0 0 sbxBias (by decide) (by decide)
      (by decide) (by decide) (by decide) ⟨by decide, by decide⟩ (by decide) (by decide)
  rw [← hcomm]
  exact ⟨by decide, by decide, ha, hs⟩

end Instruction

end LuaBytecode
