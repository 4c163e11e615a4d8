import Mathlib
import LuaBytecode.Number.Binary64
/-!
# A float is determined by its bits

Table keys keep a float that is not an integer by its bits (`Key.float`), and give it back as
`Float.ofBits` of those bits when a traversal reports the key. That the key can be looked up
again rests on `ofBits_toBits`: reading a float's bits back gives the same float.

In Lean's logical model a `Float` is a bit pattern whose only NaN is the canonical one, and
`Float.ofBits` reads bits through `UnpackedFloat.unpack` and writes them again with
`UnpackedFloat.pack`. The proof follows the four shapes `unpack` tells apart:

* `fields_eq`: a word is its sign bit, 11 exponent bits and 52 fraction bits put back together;
* `pack_subnormal`, `pack_normal`: a finite value read from a subnormal or a normal word is
  written back with the exponent field and fraction it was read from;
* `pack_unpack`: every valid word survives `unpack` then `pack` (infinities and zeros directly,
  NaN because a valid word holds the canonical one);
* `ofBits_toBits`: hence `Float.ofBits x.toBits = x` for every float.
-/

namespace LuaBytecode

namespace Binary64

open Float.Model Float.Model.UnpackedFloat

theorem toBitVec_ofBitVec (s : BitVec 1) : (Sign.ofBitVec s).toBitVec = s := by
  have hs : s = 0#1 ∨ s = 1#1 := by
    have := s.isLt
    rcases (by omega : s.toNat = 0 ∨ s.toNat = 1) with h | h
    · exact .inl (BitVec.eq_of_toNat_eq h)
    · exact .inr (BitVec.eq_of_toNat_eq h)
  rcases hs with rfl | rfl <;> rfl

/-- A word is its three fields put back together. -/
theorem fields_eq (b : BitVec Format.binary64.numBits) :
    packComponents .binary64 (Sign.ofBitVec (unpackSign b)) (unpackExponent b)
      (unpackMantissa b) = b := by
  unfold packComponents
  rw [toBitVec_ofBitVec]
  apply BitVec.eq_of_getLsbD_eq
  intro i hi
  change i < 64 at hi
  simp only [unpackSign, unpackExponent, unpackMantissa, BitVec.getLsbD_append,
    BitVec.getLsbD_cast, BitVec.getLsbD_extractLsb]
  -- the fraction is bits 0 to 51, the exponent bits 52 to 62 and the sign bit 63
  rcases (by omega : i < 52 ∨ 52 ≤ i ∧ i < 63 ∨ i = 63) with h | ⟨h₁, h₂⟩ | rfl
  · simp [h]
  · rw [if_neg (by omega), if_pos (by omega), Nat.add_sub_cancel' h₁]
    simp [show i - 52 < 11 by omega]
  · simp
    exact BitVec.getLsbD_eq_getElem hi

theorem toNat_one_append (m : BitVec 52) : (1#1 ++ m).toNat = 2 ^ 52 + m.toNat := by
  rw [BitVec.toNat_append, ← Nat.shiftLeft_add_eq_or_of_lt m.isLt]
  simp [Nat.shiftLeft_eq]

/-- A subnormal value is written back with a zero exponent field and its fraction. -/
theorem pack_subnormal (s : Sign) (m : BitVec 52) {e : Int} (he : e = -1074)
    (hm : 0 < m.toNat) :
    UnpackedFloat.pack .binary64 (.finite s m.toNat e hm) = packComponents .binary64 s 0#11 m := by
  subst he
  have hlog : m.toNat.log2 < 52 := (Nat.log2_lt (by omega)).mpr m.isLt
  unfold UnpackedFloat.pack
  simp only
  rw [if_neg (by decide), if_neg (by simp [Format.mantissaBits]; omega), BitVec.ofNat_toNat,
    BitVec.setWidth_eq]

/-- A normal value is written back with its biased exponent and its fraction, the implicit bit
dropped. -/
theorem pack_normal (s : Sign) (e : BitVec 11) (m : BitVec 52) (he : e.toNat < 2047) {k : Nat}
    {x : Int} (hk : k = 2 ^ 52 + m.toNat) (hx : x = e.toNat - 1075) (hm : 0 < k) :
    UnpackedFloat.pack .binary64 (.finite s k x hm) = packComponents .binary64 s e m := by
  subst hk hx
  have hlt := m.isLt
  have hlog : (2 ^ 52 + m.toNat).log2 = 52 :=
    Nat.log2_eq_iff (by omega) |>.mpr ⟨by omega, by omega⟩
  unfold UnpackedFloat.pack
  simp only
  have hbiased : ((e.toNat : Int) - 1075 + 1023 + 52).toNat = e.toNat := by omega
  rw [if_neg (by simp [Format.exponentBias]; omega), if_pos (by rw [hlog]; rfl)]
  congr 1
  · show BitVec.ofNat 11 ((e.toNat : Int) - 1075 + 1023 + 52).toNat = e
    rw [hbiased, BitVec.ofNat_toNat, BitVec.setWidth_eq]
  · apply BitVec.eq_of_toNat_eq
    simp; omega

/-- Valid bits read as a float and written back are the same bits: a NaN is the one value with
many encodings, and valid bits hold the canonical one. -/
theorem pack_unpack {b : BitVec Format.binary64.numBits} (hv : Format.binary64.Valid b) :
    UnpackedFloat.pack .binary64 (UnpackedFloat.unpack .binary64 b) = b := by
  have hb := fields_eq b
  have hlt := (unpackExponent b).isLt
  unfold UnpackedFloat.unpack
  simp only
  split
  · rename_i hE
    split
    · -- an infinity
      rename_i hM
      refine Eq.trans ?_ hb
      rw [hE, hM]
      rfl
    · exact (hv.eq_packedNaN hE ‹_›).symm
  · rename_i hE
    split
    · rename_i hZ
      split
      · -- a zero
        rename_i hM
        refine Eq.trans ?_ hb
        rw [hZ, hM]
        rfl
      · rename_i hM
        have hpos : 0 < (unpackMantissa b).toNat :=
          Nat.pos_of_ne_zero fun h => hM (BitVec.eq_of_toNat_eq (by simpa using h))
        refine Eq.trans ?_ hb
        rw [pack_subnormal _ _ ?_ hpos, hZ]
        rw [hZ]; rfl
    · have hne : (unpackExponent b).toNat ≠ 2047 := fun h => hE (BitVec.eq_of_toNat_eq h)
      change _ < 2048 at hlt
      refine Eq.trans (pack_normal _ _ _ (by omega) (toNat_one_append _) ?_ _) hb
      simp [Format.exponentBias]

/-- Reading a float's bits back gives the float. -/
theorem ofBits_toBits (x : Float) : Float.ofBits x.toBits = x := by
  obtain ⟨⟨bits, hv⟩⟩ := x
  simp only [Float.ofBits, Float.toBits, Float.Model.ofBits, Float.Model.pack, pack_unpack hv]

end Binary64

end LuaBytecode
