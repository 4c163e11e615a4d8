import LuaBytecode.Instruction.Word
/-!
# Reading back the fields of built instructions

The ABC lemmas are in `LuaBytecode.Instruction.Word`; here are their companions for the other
layouts (`opcode_abx`, `a_abx`, `bx_abx`, `sbx_abx`, `opcode_asbx`, `a_asbx`, `opcode_ax`,
`axArg_ax`) and for the two setters the compiler applies to jumps it has already emitted
(`opcode_setSbx`, `a_setSbx`, `sbx_setSbx`, `opcode_setA`). Every statement is arithmetic on the word once it is read as a natural number
(`word_abx`, `word_ax`, `word_setSbx`), which `omega` then settles.
-/

namespace LuaBytecode

namespace Instruction

theorem word_abx (op : Opcode) (a bx : Nat) :
    (abx op a bx).word.toNat = op.index + a % 256 * 64 + bx % 262144 * 16384 := by
  have := op.index_lt
  simp only [abx, UInt32.toNat_ofNat']
  apply Nat.mod_eq_of_lt
  omega

theorem word_ax (op : Opcode) (x : Nat) :
    (ax op x).word.toNat = op.index + x % 67108864 * 64 := by
  have := op.index_lt
  simp only [ax, UInt32.toNat_ofNat']
  apply Nat.mod_eq_of_lt
  omega

theorem opcode_of_word {i : Instruction} {op : Opcode} (h : i.word.toNat % 64 = op.index) :
    i.opcode = op := by
  simp only [opcode, h]
  exact op.ofIndex_index

@[simp] theorem opcode_abx (op : Opcode) (a bx : Nat) : (abx op a bx).opcode = op := by
  have := op.index_lt
  apply opcode_of_word
  rw [word_abx]
  omega

theorem a_abx (op : Opcode) {a : Nat} (bx : Nat) (ha : a ≤ maxA) : (abx op a bx).a = a := by
  have := op.index_lt
  simp only [Instruction.a, word_abx, maxA] at *
  omega

theorem bx_abx (op : Opcode) (a : Nat) {bx : Nat} (hb : bx ≤ maxBx) : (abx op a bx).bx = bx := by
  have := op.index_lt
  simp only [Instruction.bx, word_abx, maxBx] at *
  omega

@[simp] theorem opcode_asbx (op : Opcode) (a : Nat) (sbx : Int) : (asbx op a sbx).opcode = op :=
  opcode_abx op a _

theorem a_asbx (op : Opcode) {a : Nat} (sbx : Int) (ha : a ≤ maxA) : (asbx op a sbx).a = a :=
  a_abx op _ ha

@[simp] theorem opcode_ax (op : Opcode) (x : Nat) : (ax op x).opcode = op := by
  have := op.index_lt
  apply opcode_of_word
  rw [word_ax]
  omega

@[simp] theorem opcode_abc' (op : Opcode) (a b c : Nat) : (abc op a b c).opcode = op :=
  opcode_abc op a b c

/-- Replacing sBx rewrites bits 14–31 and nothing below them. -/
theorem word_setSbx (i : Instruction) (sbx : Int) :
    (i.setSbx sbx).word.toNat =
      i.word.toNat % 16384 + (sbx + sbxBias).toNat % 262144 * 16384 := by
  have hw : i.word.toNat < 4294967296 := i.word.toNat_lt
  have hx := Nat.mod_lt (sbx + sbxBias).toNat (by decide : 262144 > 0)
  simp only [setSbx, UInt32.toNat_ofNat', Instruction.bx]
  generalize (sbx + sbxBias).toNat % 262144 = x at hx ⊢
  omega

@[simp] theorem opcode_setSbx (i : Instruction) (sbx : Int) : (i.setSbx sbx).opcode = i.opcode := by
  simp only [opcode, word_setSbx]
  congr 1
  omega

theorem a_setSbx (i : Instruction) (sbx : Int) : (i.setSbx sbx).a = i.a := by
  simp only [Instruction.a, word_setSbx]
  omega

/-- A displacement within the field's range reads back. -/
theorem sbx_setSbx (i : Instruction) {sbx : Int} (hlo : -sbxBias ≤ sbx) (hhi : sbx ≤ sbxBias + 1) :
    (i.setSbx sbx).sbx = sbx := by
  have hw : i.word.toNat < 4294967296 := i.word.toNat_lt
  simp only [Instruction.sbx, Instruction.bx, word_setSbx, sbxBias] at *
  omega

theorem sbx_abx (op : Opcode) (a : Nat) {bx : Nat} (hb : bx ≤ maxBx) :
    (abx op a bx).sbx = (bx : Int) - sbxBias := by
  rw [Instruction.sbx, bx_abx op a hb]

theorem axArg_ax (op : Opcode) {x : Nat} (hx : x ≤ maxAx) : (ax op x).axArg = x := by
  have := op.index_lt
  simp only [Instruction.axArg, word_ax, maxAx] at *
  omega

@[simp] theorem opcode_setA (i : Instruction) (a : Nat) : (i.setA a).opcode = i.opcode := by
  have hw : i.word.toNat < 4294967296 := i.word.toNat_lt
  have hx := Nat.mod_lt a (by decide : 256 > 0)
  simp only [opcode, setA, UInt32.toNat_ofNat', Instruction.a]
  congr 1
  generalize a % 256 = x at hx ⊢
  omega

end Instruction

end LuaBytecode
