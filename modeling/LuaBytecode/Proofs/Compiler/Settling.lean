import LuaBytecode.Proofs.Compiler.CodeShape
import LuaBytecode.Proofs.Compiler.Simulation
/-!
# Code that stays as written

The compiler writes a jump before it knows the target and patches it later; until then the
jump's position is pending. Apart from such patches, code once written is never changed, so a
later state of the function being compiled agrees with an earlier one wherever the earlier one
had nothing left to patch; a patch changes a jump's operands and never its opcode.

* `FuncState.Settles fs fs'`: the code of `fs` is a prefix of that of `fs'` at every position
  `fs` had settled, with the same opcodes everywhere, no position of `fs` becomes pending again,
  and the constants of `fs` are a prefix of those of `fs'`. Every compiler step settles, since it
  patches only jumps it wrote itself or jumps still pending (`Settles.patch`, `Settles.setA`);
* `Compiler.Placed p fs start`: the prototype `p` holds the code of `fs` from `start` on, except
  at the jumps still pending, and all of its constants. The prototype a chunk compiles to is
  placed for every state on the way (`Placed.earlier`), since the finished function has no
  pending jump.
-/

namespace LuaBytecode

namespace FuncState

variable {fs fs' fs₀ fs₁ fs₂ fs₃ : FuncState} {q : Nat}

/-- The settled code of `fs` stays in `fs'`, every opcode of `fs` stays, no position of `fs`
becomes pending again, and the constants of `fs` are a prefix of those of `fs'`. -/
structure Settles (fs fs' : FuncState) : Prop where
  size : fs.code.size ≤ fs'.code.size
  code : ∀ q < fs.code.size, q ∉ fs.pending → fs'.code[q]? = fs.code[q]?
  opcode : ∀ q < fs.code.size,
    (fs'.code[q]?).map Instruction.opcode = (fs.code[q]?).map Instruction.opcode
  pending : ∀ q < fs.code.size, q ∈ fs'.pending → q ∈ fs.pending
  constants : fs.constants.toList <+: fs'.constants.toList

@[simp] theorem addConstant_fst_pending (fs : FuncState) (k : Constant) :
    (fs.addConstant k).1.pending = fs.pending := by
  unfold addConstant; split <;> rfl

namespace Settles

@[refl] theorem refl (fs : FuncState) : Settles fs fs :=
  ⟨Nat.le_refl _, fun _ _ _ => rfl, fun _ _ => rfl, fun _ _ => id, List.prefix_refl _⟩

theorem trans (h₁ : Settles fs₁ fs₂) (h₂ : Settles fs₂ fs₃) : Settles fs₁ fs₃ where
  size := Nat.le_trans h₁.size h₂.size
  code q hq hp := by
    have hq₂ : q < fs₂.code.size := Nat.lt_of_lt_of_le hq h₁.size
    rw [h₂.code q hq₂ (fun h => hp (h₁.pending q hq h)), h₁.code q hq hp]
  opcode q hq := (h₂.opcode q (Nat.lt_of_lt_of_le hq h₁.size)).trans (h₁.opcode q hq)
  pending q hq h := h₁.pending q hq (h₂.pending q (Nat.lt_of_lt_of_le hq h₁.size) h)
  constants := h₁.constants.trans h₂.constants

/-- A step that leaves the code, the pending jumps and the constants alone. -/
theorem of_eq (hc : fs'.code = fs.code) (hp : fs'.pending = fs.pending)
    (hk : fs'.constants = fs.constants) : Settles fs fs' where
  size := by rw [hc]
  code q _ _ := by rw [hc]
  opcode q _ := by rw [hc]
  pending q _ := by rw [hp]; exact id
  constants := by rw [hk]

theorem emit' (fs : FuncState) (i : Instruction) (line : Nat) : Settles fs (fs.emit' i line) where
  size := by simp
  code q hq _ := by simp [Array.getElem?_push, Nat.ne_of_lt hq]
  opcode q hq := by simp [Array.getElem?_push, Nat.ne_of_lt hq]
  pending _ _ := id
  constants := List.prefix_refl _

/-- A jump written to be patched is pending at a new position. -/
theorem pending_push (fs : FuncState) (i : Instruction) (line : Nat) :
    Settles fs { fs.emit' i line with pending := fs.code.size :: fs.pending } where
  size := (emit' fs i line).size
  code := (emit' fs i line).code
  opcode := (emit' fs i line).opcode
  pending q hq := by simp [Nat.ne_of_lt hq]
  constants := List.prefix_refl _

theorem addConstant (fs : FuncState) (k : Constant) : Settles fs (fs.addConstant k).1 :=
  ⟨by simp, fun q _ _ => by simp, fun q _ => by simp, fun _ _ => by simp,
    (Compiler.FuncState.addConstant_spec
      (show fs.addConstant k = ((fs.addConstant k).1, (fs.addConstant k).2) from rfl)).2.1⟩

/-- Changing only the operands of the instruction at `j`, which `fs₀` had not settled. -/
theorem modify {j : Nat} {f : Instruction → Instruction} {pending : List Nat} (h : Settles fs₀ fs₁)
    (hj : fs₀.code.size ≤ j ∨ j ∈ fs₀.pending) (hf : ∀ i, (f i).opcode = i.opcode)
    (hp : ∀ q ∈ pending, q ∈ fs₁.pending) :
    Settles fs₀ { fs₁ with code := fs₁.code.modify j f, pending } where
  size := by simpa using h.size
  code q hq hnp := by
    have hne : j ≠ q := by
      rintro rfl
      rcases hj with hj | hj
      · omega
      · exact hnp hj
    rw [Array.getElem?_modify, if_neg hne, h.code q hq hnp]
  opcode q hq := by
    rw [Array.getElem?_modify, ← h.opcode q hq]
    split
    · cases fs₁.code[q]? <;> simp [hf]
    · rfl
  pending q hq hq' := h.pending q hq (hp q hq')
  constants := h.constants

/-- Patching a jump written after `fs₀`, or pending in it, settles from `fs₀`. -/
theorem patch {j t : Nat} (h : Settles fs₀ fs₁) (hj : fs₀.code.size ≤ j ∨ j ∈ fs₀.pending)
    (hp : fs₁.patchJump j t = .ok fs₂) : Settles fs₀ fs₂ := by
  obtain ⟨-, rfl⟩ := patchJump_eq hp
  exact h.modify hj (fun i => Instruction.opcode_setSbx i _) fun q hq => (List.mem_filter.mp hq).1

/-- Setting operand A of a jump written after `fs₀`, or pending in it, settles from `fs₀`. -/
theorem setA {j a : Nat} (h : Settles fs₀ fs₁) (hj : fs₀.code.size ≤ j ∨ j ∈ fs₀.pending)
    (hp : fs₁.setJumpA j a = .ok fs₂) : Settles fs₀ fs₂ := by
  obtain ⟨-, rfl⟩ := setJumpA_ok hp
  exact h.modify hj (fun i => Instruction.opcode_setA i _) fun _ => id

end Settles

end FuncState

namespace Compiler

variable {p : Proto} {fs fs' : FuncState} {start q : Nat}

/-- A pool that extends `cs` holds each constant of `cs` at its index. -/
theorem constant_of_extends {cs : Array Constant} {k : Nat} {x : Constant}
    (h : cs.toList <+: p.constants.toList) (hk : cs[k]? = some x) : p.constants[k]? = some x := by
  rw [← Array.getElem?_toList] at hk ⊢
  obtain ⟨hlt, hx⟩ := List.getElem?_eq_some_iff.mp hk
  rw [List.prefix_iff_getElem?.mp h k hlt, hx]

/-- The prototype `p` holds the code of `fs` from position `start` on, except at the jumps still
pending, and all of its constants. -/
structure Placed (p : Proto) (fs : FuncState) (start : Nat) : Prop where
  code : ∀ q, start ≤ q → q < fs.code.size → q ∉ fs.pending → p.code[q]? = fs.code[q]?
  constants : fs.constants.toList <+: p.constants.toList

namespace Placed

theorem instr {i : Instruction} (h : Placed p fs start) (hq : start ≤ q) (hp : q ∉ fs.pending)
    (hi : fs.code[q]? = some i) : p.code[q]? = some i := by
  have hlt : q < fs.code.size := (Array.getElem?_eq_some_iff.mp hi).1
  rw [h.code q hq hlt hp, hi]

theorem constant {k : Nat} {x : Constant} (h : Placed p fs start)
    (hk : fs.constants[k]? = some x) : p.constants[k]? = some x :=
  constant_of_extends h.constants hk

/-- What a later state placed is placed for an earlier state too, from any later start. -/
theorem earlier {s : Nat} (h : Placed p fs' start) (hs : fs.Settles fs') (hle : start ≤ s) :
    Placed p fs s where
  code q hq hlt hp := by
    rw [h.code q (Nat.le_trans hle hq) (Nat.lt_of_lt_of_le hlt hs.size)
      (fun hq' => hp (hs.pending q hlt hq')), hs.code q hlt hp]
  constants := hs.constants.trans h.constants

/-- A jump patched to `t`, and settled since, is in place with the displacement to `t`. -/
theorem patched {fs₀ fs₁ : FuncState} {j t : Nat} (h : Placed p fs' start) (hs : fs₁.Settles fs')
    (hp : fs₀.patchJump j t = .ok fs₁) (hj : start ≤ j)
    (hop : (fs₀.code[j]?).map Instruction.opcode = some .jmp) :
    ∃ i, p.code[j]? = some i ∧ i.opcode = .jmp ∧ (j : Int) + 1 + i.sbx = t := by
  obtain ⟨hfit, rfl⟩ := FuncState.patchJump_eq hp
  obtain ⟨i, hi, hio⟩ := Option.map_eq_some_iff.mp hop
  refine ⟨i.setSbx ((t : Int) - j - 1), (h.earlier hs hj).instr (Nat.le_refl _) (by simp) ?_,
    by rw [Instruction.opcode_setSbx, hio], ?_⟩
  · rw [Array.getElem?_modify, if_pos rfl, hi]
    rfl
  · rw [Instruction.sbx_setSbx _ (by simp only [Instruction.sbxBias]; omega) (by simp only [Instruction.sbxBias]; omega)]
    omega

/-- A jump patched to `t`, and settled since, is in place as it was written, with the
displacement to `t`. -/
theorem patched_as {fs₀ fs₁ : FuncState} {j t : Nat} {i₀ : Instruction} (h : Placed p fs' start)
    (hs : fs₁.Settles fs') (hp : fs₀.patchJump j t = .ok fs₁) (hj : start ≤ j)
    (hi₀ : fs₀.code[j]? = some i₀) : p.code[j]? = some (i₀.setSbx ((t : Int) - j - 1)) := by
  obtain ⟨-, rfl⟩ := FuncState.patchJump_eq hp
  refine (h.earlier hs hj).instr (Nat.le_refl _) (by simp) ?_
  rw [Array.getElem?_modify, if_pos rfl, hi₀]
  rfl

/-- Code placed from `start` on is placed before a patch of a jump ahead of `start`. -/
theorem of_patch {fs₀ : FuncState} {j t : Nat} (h : Placed p fs' start)
    (hp : fs₀.patchJump j t = .ok fs') (hj : j < start) : Placed p fs₀ start := by
  obtain ⟨-, rfl⟩ := FuncState.patchJump_eq hp
  refine ⟨fun q hq hlt hnp => ?_, h.constants⟩
  have hne : j ≠ q := by omega
  rw [h.code q hq (by simpa using hlt) (fun hq' => hnp (List.mem_filter.mp hq').1),
    Array.getElem?_modify, if_neg hne]

/-- A finished function is placed: it holds all of its code. -/
theorem finish {lastLine : Nat} (hf : fs.finish lastLine = .ok p) : Placed p fs 0 := by
  unfold FuncState.finish at hf
  split at hf
  · cases hf
  · cases hf
    exact ⟨fun _ _ _ _ => rfl, List.prefix_refl _⟩

end Placed

end Compiler

end LuaBytecode
