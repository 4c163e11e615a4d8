import LuaBytecode.Proofs.Machine.Execution
import LuaBytecode.Proofs.Compiler.Reference
import LuaBytecode.Proofs.Compiler.Operands
/-!
# Compiled code runs as its meaning says

The code an expression compiles to, once loaded into the running function, computes the
expression's meaning. This module states that for one part of a node (`Computes`) and proves
it for each instruction shape of `Compiler.Emit` from what the parts of the node compute; the
recursion over the tree that puts the shapes together is in `Compiler.Operators`.

* `Loaded p fs start`: the running prototype `p` holds the code of `fs` from `start` on, and
  its constants; `Grows c c'`: a step keeps every constant at its index;
* `Env σ isLocal fs f`: every name `isLocal` admits is an active local whose register in `f`
  holds the value `σ` gives it;
* `Computes call σ isLocal compile ref`: evaluating into any register `a` above the locals,
  the code of `compile` runs from its first instruction to its end with the value of `ref` in
  `a` and the registers below `a` as they were, or fails as `ref` does;
* `ReadsAs σ isLocal op ref`: when the classification `op` of a part yields an operand read in
  place, `ref` is a value and the operand reads it.
-/

namespace LuaBytecode

namespace Compiler

open Instruction

variable {call : VM.Call} {σ : String → Value} {isLocal : String → Bool}

/-! ## Constants and loaded code -/

/-- The constants of `c` stay at their indices in `c'`. -/
def Grows (c c' : Compiler) : Prop := c.fs.constants.toList <+: c'.fs.constants.toList

namespace Grows

variable {c c₁ c₂ c₃ : Compiler}

@[refl] theorem refl (c : Compiler) : Grows c c := List.prefix_refl _

theorem trans (h₁ : Grows c₁ c₂) (h₂ : Grows c₂ c₃) : Grows c₁ c₃ := List.IsPrefix.trans h₁ h₂

theorem of_eq (h : c₂.fs.constants = c₁.fs.constants) : Grows c₁ c₂ := by
  rw [Grows, h]

end Grows

/-- A constant is found at the index the pool gives it, and the pool keeps what it had. -/
theorem FuncState.addConstant_spec {fs fs' : FuncState} {k : Constant} {idx : Nat}
    (h : fs.addConstant k = (fs', idx)) :
    fs'.constants[idx]? = some k ∧ fs.constants.toList <+: fs'.constants.toList ∧
      fs'.code = fs.code ∧ fs'.actives = fs.actives ∧ fs'.usedRegs = fs.usedRegs := by
  unfold FuncState.addConstant at h
  split at h
  · rename_i i hi
    cases h
    refine ⟨?_, List.prefix_refl _, rfl, rfl, rfl⟩
    cases hc : fs.constants with
    | mk l =>
      rw [hc, List.idxOf?_toArray] at hi
      obtain ⟨hlt, hl, -⟩ := List.idxOf?_eq_some_iff.mp hi
      simp [hlt, hl]
  · cases h
    exact ⟨by simp, by simp, rfl, rfl, rfl⟩

/-- The running prototype `p` holds the code of `fs` from position `start` on, and all of its
constants. -/
structure Loaded (p : Proto) (fs : FuncState) (start : Nat) : Prop where
  code : ∀ q, start ≤ q → q < fs.code.size → p.code[q]? = fs.code[q]?
  constants : fs.constants.toList <+: p.constants.toList

namespace Loaded

variable {p : Proto} {fs : FuncState} {start : Nat}

theorem instr {q : Nat} {i : Instruction} (h : Loaded p fs start) (hq : start ≤ q)
    (hi : fs.code[q]? = some i) : p.code[q]? = some i := by
  have hlt : q < fs.code.size := (Array.getElem?_eq_some_iff.mp hi).1
  rw [h.code q hq hlt, hi]

theorem constant {k : Nat} {x : Constant} (h : Loaded p fs start) (hk : fs.constants[k]? = some x) :
    p.constants[k]? = some x := by
  rw [← Array.getElem?_toList] at hk ⊢
  obtain ⟨hlt, hx⟩ := List.getElem?_eq_some_iff.mp hk
  rw [List.prefix_iff_getElem?.mp h.constants k hlt, hx]

/-- What a later step keeps of the code and the constants is loaded too. -/
theorem earlier {a s : Nat} {c₁ c' : Compiler} (h : Loaded p c'.fs start) (he : Emits a c₁ c')
    (hg : Grows c₁ c') (hs : start ≤ s) : Loaded p c₁.fs s where
  code q hq hlt := by
    rw [h.code q (Nat.le_trans hs hq) (Nat.lt_of_lt_of_le hlt he.size_le), he.old q hlt]
  constants := List.IsPrefix.trans hg h.constants

end Loaded

/-! ## Names and registers -/

/-- Every name `isLocal` admits is an active local whose register in `f` holds the value `σ`
gives it. -/
def Env (σ : String → Value) (isLocal : String → Bool) (fs : FuncState) (f : Frame) : Prop :=
  ∀ s, isLocal s = true → ∃ r, fs.slotOf s = some r ∧ f.reg r = σ s

/-- The names stay where they are when the locals and their registers do. -/
theorem Env.keep {fs fs' : FuncState} {f f' : Frame} (h : Env σ isLocal fs f)
    (hs : fs'.slotOf = fs.slotOf) (hr : ∀ r ∈ fs.slots, f'.reg r = f.reg r) :
    Env σ isLocal fs' f' := by
  intro s hl
  obtain ⟨r, hr₁, hr₂⟩ := h s hl
  exact ⟨r, hs ▸ hr₁, (hr r (FuncState.slotOf_mem hr₁)).trans hr₂⟩

/-- Operand `x` of an instruction of `p` reads `v` in frame `f`: a constant of the pool, or a
register. -/
def Reads (p : Proto) (f : Frame) (x : Nat) (v : Value) : Prop :=
  if isConst x then p.constants[constIndex x]?.map Constant.toValue = some v else f.reg x = v

namespace Reads

variable {p : Proto} {f f' : Frame} {x : Nat} {v : Value}

theorem rk {m : Machine} (h : Reads p m.frame x v) : (VM.rk p x).run m = .ok v m := by
  unfold Reads at h
  split at h
  · rename_i hc
    obtain ⟨k, hk, rfl⟩ := Option.map_eq_some_iff.mp h
    simp [VM.rk, hc, VM.constant, hk]
  · rename_i hc
    simp [VM.rk, hc, VM.reg, VM.frame]
    rw [← h]

theorem reg (hx : x < 256) : Reads p f x (f.reg x) := by
  have : isConst x = false := by
    simp only [isConst, Nat.div_eq_of_lt hx]
    rfl
  simp [Reads, this]

theorem const {idx : Nat} {k : Constant} (hidx : idx < 256) (hk : p.constants[idx]? = some k) :
    Reads p f (Instruction.constOperand idx) k.toValue := by
  have hc : isConst (Instruction.constOperand idx) = true := by
    simp only [isConst, Instruction.constOperand, beq_iff_eq]
    omega
  have hi : constIndex (Instruction.constOperand idx) = idx := by
    simp only [constIndex, Instruction.constOperand]
    omega
  simp [Reads, hc, hi, hk]

/-- A register operand reads the same while its register does. -/
theorem keep (h : Reads p f x v) (hx : isConst x = false → f'.reg x = f.reg x) :
    Reads p f' x v := by
  unfold Reads at h ⊢
  split
  · rename_i hc
    rwa [if_pos hc] at h
  · rename_i hc
    rw [if_neg hc] at h
    rw [hx (by simpa using hc), h]

end Reads

/-! ## What a part computes -/

/-- The code ended at `stop` with `v` in register `a`, the registers below `a` as they were in
`m`, and nothing else of `m` changed. -/
def Lands (a stop : Nat) (m : Machine) (v : Value) (m' : Machine) : Prop :=
  m'.frame.pc = stop ∧ m'.frame.reg a = v ∧ (∀ r < a, m'.frame.reg r = m.frame.reg r) ∧
    m.Rest m'

/-- `compile` evaluates what `ref` computes into any register `a` above the locals: it keeps
the constants, and from the first instruction of its code the machine runs to the end of it
with the value of `ref` in `a` and the registers below `a` as they were, or fails as `ref`
does. -/
def Computes (call : VM.Call) (σ : String → Value) (isLocal : String → Bool)
    (compile : Nat → CompileM Unit) (ref : VM Value) : Prop :=
  ∀ a c c', a < c.fs.usedRegs → (∀ r ∈ c.fs.slots, r < a) → (compile a).run c = .ok ((), c') →
    Grows c c' ∧ ∀ lc m, Loaded lc.proto c'.fs c.fs.code.size → m.Runs lc →
      m.frame.pc = c.fs.code.size → Env σ isLocal c.fs m.frame →
      VM.Ends call m ref.outcome (Lands a c'.fs.code.size m)

/-- When the classification `op` of a part yields an operand read in place, the part's meaning
`ref` is a value, which the operand reads wherever the names hold their values and the pool
holds the constants classified so far. -/
def ReadsAs (σ : String → Value) (isLocal : String → Bool) (op : CompileM Operand)
    (ref : VM Value) : Prop :=
  ∀ c c' o, op.run c = .ok (o, c') → Grows c c' ∧ ∀ x, o.rk? = some x →
    ∃ v, ref = pure v ∧ ∀ p (f : Frame), c'.fs.constants.toList <+: p.constants.toList →
      Env σ isLocal c.fs f → Reads p f x v

end Compiler

end LuaBytecode
