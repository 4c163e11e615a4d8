import LuaBytecode.Compiler.Code
/-!
# Running compiler steps

A compiler step is a `CompileM` action, and a run of it from state `c` that succeeds with value
`x` in state `c'` is `act.run c = .ok (x, c')`. This module opens the plumbing once, so that
later proofs peel successful runs apart and never unfold the monad:

* `run_bind_ok` splits a successful run of `x >>= f` into runs of `x` and of `f`,
  `run_bind_of_ok` runs on from a successful `x`, and `run_guard` passes a guard that throws;
* `run_onFs`, `run_updateFs`, `run_modifyFs`, `run_readFs` say what the steps on the current
  function's state do;
* for each primitive of `FuncState` that can fail (`allocReg`, `freeReg`, `freeRegs`,
  `resetRegs`, the instruction builders, `patchJump`, ...) an inversion lemma says what a
  success requires and what it changes;
* `@[simp]` lemmas give each field of the state after an emission or a register step.

A step that fails has no successor state, so every statement below is about successful runs;
that a failure is impossible is never assumed.
-/

namespace LuaBytecode

namespace Compiler

variable {α β : Type} {c c' : Compiler}

/-! ## The monad -/

theorem run_bind_ok {x : CompileM α} {f : α → CompileM β} {b : β}
    (h : (x >>= f).run c = .ok (b, c')) :
    ∃ a c₁, x.run c = .ok (a, c₁) ∧ (f a).run c₁ = .ok (b, c') := by
  simp only [StateT.run_bind] at h
  cases hx : x.run c with
  | error e => rw [hx] at h; cases h
  | ok p => rw [hx] at h; exact ⟨p.1, p.2, rfl, h⟩

theorem run_bind_of_ok {x : CompileM α} {f : α → CompileM β} {a : α} {c₁ : Compiler}
    (hx : x.run c = .ok (a, c₁)) : (x >>= f).run c = (f a).run c₁ := by
  simp only [StateT.run_bind, hx]
  rfl

theorem run_pure_ok {x y : α} (h : (pure x : CompileM α).run c = .ok (y, c')) :
    y = x ∧ c = c' := by
  cases h
  exact ⟨rfl, rfl⟩

theorem run_throw_ne {e : Fault} {y : α} : (throw e : CompileM α).run c ≠ .ok (y, c') := by
  rintro ⟨⟩

/-- A guard that throws on failure passes only when its condition holds. In a `do` block, what
follows the guard is a join point `k`. -/
theorem run_guard {b : Bool} {e : Fault} {k : Unit → CompileM α} {x : α}
    (h : (if b = true then k () else throw e >>= k).run c = .ok (x, c')) :
    b = true ∧ (k ()).run c = .ok (x, c') := by
  cases b with
  | true => exact ⟨rfl, h⟩
  | false =>
    obtain ⟨_, _, h₁, -⟩ := run_bind_ok h
    exact absurd h₁ run_throw_ne

theorem run_onFs {f : FuncState → Except Fault (FuncState × α)} {x : α}
    (h : (onFs f).run c = .ok (x, c')) : ∃ fs', f c.fs = .ok (fs', x) ∧ c' = { c with fs := fs' } := by
  simp only [onFs, StateT.run_bind, StateT.run_get, pure_bind] at h
  cases hf : f c.fs with
  | error e => rw [hf] at h; cases h
  | ok p => rw [hf] at h; cases h; exact ⟨p.1, rfl, rfl⟩

theorem run_updateFs {f : FuncState → Except Fault FuncState}
    (h : (updateFs f).run c = .ok ((), c')) : ∃ fs', f c.fs = .ok fs' ∧ c' = { c with fs := fs' } := by
  obtain ⟨fs', hf, rfl⟩ := run_onFs h
  cases hf' : f c.fs with
  | error e => rw [hf'] at hf; cases hf
  | ok g => rw [hf'] at hf; cases hf; exact ⟨_, rfl, rfl⟩

theorem run_modifyFs {f : FuncState → FuncState} {u : Unit}
    (h : (modifyFs f).run c = .ok (u, c')) : c' = { c with fs := f c.fs } := by
  cases h
  rfl

theorem run_readFs {f : FuncState → α} {x : α} (h : (readFs f).run c = .ok (x, c')) :
    x = f c.fs ∧ c = c' := by
  cases h
  exact ⟨rfl, rfl⟩

end Compiler

/-! ## Runs on concrete inputs

A run on a concrete chunk is evaluated once by the kernel, as an `Option`; these lemmas carry
what the evaluation shows over to the result the run names. -/

/-- A computation that succeeds has a result. -/
theorem exists_ok_of_isOk {ε α : Type} {x : Except ε α} (h : x.isOk = true) :
    ∃ a, x = .ok a := by
  cases x with
  | error e => cases h
  | ok a => exact ⟨a, rfl⟩

/-- What an evaluation reads off a successful computation holds of its result. -/
theorem eq_of_toOption_map {ε α β : Type} {x : Except ε α} {a : α} (h : x = .ok a) {f : α → β}
    {b : β} (hf : x.toOption.map f = some b) : f a = b := by
  subst h
  exact Option.some.inj hf

/-- A successful bind of fallible steps of a function's state: both steps succeeded. -/
theorem except_bind_ok {α β : Type} {x : Except Fault α} {f : α → Except Fault β} {b : β}
    (h : (x >>= f) = .ok b) : ∃ a, x = .ok a ∧ f a = .ok b := by
  cases hx : x with
  | error e => rw [hx] at h; cases h
  | ok a => rw [hx] at h; exact ⟨a, rfl, h⟩

namespace FuncState

variable {fs fs' : FuncState}

/-! ## Fields after a step -/

@[simp] theorem emit'_code (fs : FuncState) (i : Instruction) (line : Nat) :
    (fs.emit' i line).code = fs.code.push i := rfl

@[simp] theorem emit'_usedRegs (fs : FuncState) (i : Instruction) (line : Nat) :
    (fs.emit' i line).usedRegs = fs.usedRegs := rfl

@[simp] theorem emit'_actives (fs : FuncState) (i : Instruction) (line : Nat) :
    (fs.emit' i line).actives = fs.actives := rfl

@[simp] theorem emit'_protos (fs : FuncState) (i : Instruction) (line : Nat) :
    (fs.emit' i line).protos = fs.protos := rfl

@[simp] theorem emit'_depth (fs : FuncState) (i : Instruction) (line : Nat) :
    (fs.emit' i line).depth = fs.depth := rfl

@[simp] theorem emit'_upvalues (fs : FuncState) (i : Instruction) (line : Nat) :
    (fs.emit' i line).upvalues = fs.upvalues := rfl

@[simp] theorem emit'_isVararg (fs : FuncState) (i : Instruction) (line : Nat) :
    (fs.emit' i line).isVararg = fs.isVararg := rfl

@[simp] theorem addConstant_fst_code (fs : FuncState) (k : Constant) :
    (fs.addConstant k).1.code = fs.code := by
  unfold addConstant; split <;> rfl

@[simp] theorem addConstant_fst_usedRegs (fs : FuncState) (k : Constant) :
    (fs.addConstant k).1.usedRegs = fs.usedRegs := by
  unfold addConstant; split <;> rfl

@[simp] theorem addConstant_fst_actives (fs : FuncState) (k : Constant) :
    (fs.addConstant k).1.actives = fs.actives := by
  unfold addConstant; split <;> rfl

@[simp] theorem addConstant_fst_protos (fs : FuncState) (k : Constant) :
    (fs.addConstant k).1.protos = fs.protos := by
  unfold addConstant; split <;> rfl

@[simp] theorem addConstant_fst_depth (fs : FuncState) (k : Constant) :
    (fs.addConstant k).1.depth = fs.depth := by
  unfold addConstant; split <;> rfl

@[simp] theorem addConstant_fst_upvalues (fs : FuncState) (k : Constant) :
    (fs.addConstant k).1.upvalues = fs.upvalues := by
  unfold addConstant; split <;> rfl

/-! ## Registers -/

theorem allocReg_ok {line r : Nat} (h : fs.allocReg line = .ok (fs', r)) :
    fs.usedRegs < maxRegisters ∧ r = fs.usedRegs ∧
      fs' = { fs with usedRegs := fs.usedRegs + 1, maxRegs := max fs.maxRegs (fs.usedRegs + 1) } := by
  unfold allocReg at h
  split at h
  · cases h
  · cases h
    exact ⟨by omega, rfl, rfl⟩

theorem freeReg_ok (h : fs.freeReg = .ok fs') :
    fs.activeRegCount < fs.usedRegs ∧ fs' = { fs with usedRegs := fs.usedRegs - 1 } := by
  unfold freeReg at h
  split at h
  · cases h
    exact ⟨by assumption, rfl⟩
  · cases h

/-- Giving back `n` registers one at a time lowers the top by `n`, never below zero. -/
theorem freeRegs_ok {n : Nat} (h : fs.freeRegs n = .ok fs') :
    n ≤ fs.usedRegs ∧ fs' = { fs with usedRegs := fs.usedRegs - n } := by
  induction n generalizing fs with
  | zero => cases h; exact ⟨Nat.zero_le _, rfl⟩
  | succ n ih =>
    simp only [freeRegs] at h
    cases h₁ : fs.freeReg with
    | error e => rw [h₁] at h; cases h
    | ok fs₁ =>
      rw [h₁] at h
      obtain ⟨hlt, rfl⟩ := freeReg_ok h₁
      obtain ⟨hn, rfl⟩ := ih h
      dsimp only at hn ⊢
      exact ⟨by omega, by congr 1; omega⟩

theorem resetRegs_ok {mark : Nat} (h : fs.resetRegs mark = .ok fs') :
    mark ≤ fs.usedRegs ∧ fs' = { fs with usedRegs := mark } := by
  unfold resetRegs at h
  split at h
  · cases h
    exact ⟨by assumption, rfl⟩
  · cases h

/-! ## Building and emitting instructions -/

theorem buildABC_ok {op : Opcode} {a b c : Nat} {i : Instruction} (h : buildABC op a b c = .ok i) :
    (a ≤ Instruction.maxA ∧ b ≤ Instruction.maxBC ∧ c ≤ Instruction.maxBC) ∧
      i = Instruction.abc op a b c := by
  unfold buildABC at h
  split at h
  · cases h
    exact ⟨by assumption, rfl⟩
  · cases h

theorem buildABx_ok {op : Opcode} {a bx : Nat} {i : Instruction} (h : buildABx op a bx = .ok i) :
    (a ≤ Instruction.maxA ∧ bx ≤ Instruction.maxBx) ∧ i = Instruction.abx op a bx := by
  unfold buildABx at h
  split at h
  · cases h
    exact ⟨by assumption, rfl⟩
  · cases h

theorem buildAx_ok {op : Opcode} {x : Nat} {i : Instruction} (h : buildAx op x = .ok i) :
    x ≤ Instruction.maxAx ∧ i = Instruction.ax op x := by
  unfold buildAx at h
  split at h
  · cases h
    exact ⟨by assumption, rfl⟩
  · cases h

theorem emitABC_ok {op : Opcode} {a b c line : Nat} (h : fs.emitABC op a b c line = .ok fs') :
    (a ≤ Instruction.maxA ∧ b ≤ Instruction.maxBC ∧ c ≤ Instruction.maxBC) ∧
      fs' = fs.emit' (Instruction.abc op a b c) line := by
  simp only [emitABC] at h
  cases hb : buildABC op a b c with
  | error e => rw [hb] at h; cases h
  | ok i =>
    rw [hb] at h
    cases h
    obtain ⟨hfit, rfl⟩ := buildABC_ok hb
    exact ⟨hfit, rfl⟩

theorem emitABx_ok {op : Opcode} {a bx line : Nat} (h : fs.emitABx op a bx line = .ok fs') :
    (a ≤ Instruction.maxA ∧ bx ≤ Instruction.maxBx) ∧
      fs' = fs.emit' (Instruction.abx op a bx) line := by
  simp only [emitABx] at h
  cases hb : buildABx op a bx with
  | error e => rw [hb] at h; cases h
  | ok i =>
    rw [hb] at h
    cases h
    obtain ⟨hfit, rfl⟩ := buildABx_ok hb
    exact ⟨hfit, rfl⟩

/-- An emitted AsBx instruction is the ABx instruction of its biased displacement. -/
theorem emitAsBx_ok {op : Opcode} {a line : Nat} {sbx : Int}
    (h : fs.emitAsBx op a sbx line = .ok fs') :
    a ≤ Instruction.maxA ∧ ∃ bx, fs' = fs.emit' (Instruction.abx op a bx) line := by
  simp only [emitAsBx, buildAsBx] at h
  cases hb : buildABx op a (word32 (sbx + Instruction.sbxBias)) with
  | error e => rw [hb] at h; cases h
  | ok i =>
    rw [hb] at h
    cases h
    obtain ⟨hfit, rfl⟩ := buildABx_ok hb
    exact ⟨hfit.1, _, rfl⟩

theorem emitAx_ok {op : Opcode} {x line : Nat} (h : fs.emitAx op x line = .ok fs') :
    fs' = fs.emit' (Instruction.ax op x) line := by
  simp only [emitAx] at h
  cases hb : buildAx op x with
  | error e => rw [hb] at h; cases h
  | ok i =>
    rw [hb] at h
    cases h
    rw [(buildAx_ok hb).2]

theorem emitJump_ok {op : Opcode} {a line pc : Nat} (h : fs.emitJump op a line = .ok (fs', pc)) :
    pc = fs.code.size ∧ a ≤ Instruction.maxA ∧
      ∃ bx, fs' = { fs.emit' (Instruction.abx op a bx) line with pending := fs.code.size :: fs.pending } := by
  simp only [emitJump] at h
  cases he : fs.emitAsBx op a 0 line with
  | error e => rw [he] at h; cases h
  | ok g =>
    rw [he] at h
    cases h
    obtain ⟨ha, bx, rfl⟩ := emitAsBx_ok he
    exact ⟨rfl, ha, bx, rfl⟩

theorem patchJump_ok {pc target : Nat} (h : fs.patchJump pc target = .ok fs') :
    ∃ sbx : Int, fs' = { fs with
      code := fs.code.modify pc (·.setSbx sbx)
      pending := fs.pending.filter (· != pc) } := by
  unfold patchJump at h
  dsimp only at h
  split at h
  · cases h
  · cases h
    exact ⟨_, rfl⟩

theorem setJumpA_ok {pc a : Nat} (h : fs.setJumpA pc a = .ok fs') :
    a ≤ Instruction.maxA ∧ fs' = { fs with code := fs.code.modify pc (·.setA a) } := by
  unfold setJumpA at h
  split at h
  · cases h
    exact ⟨by assumption, rfl⟩
  · cases h

end FuncState

end LuaBytecode
