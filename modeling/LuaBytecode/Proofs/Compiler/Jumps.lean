import LuaBytecode.Proofs.Compiler.OperatorTerms
/-!
# Conditions compiled as jumps

A statement tests a condition by code that ends with a jump, written with no target yet, that
is taken when the condition is false and skipped when it holds (`Compiler.branchWith`). A
comparison ends with its own test and that jump; any other condition is tested in a register,
a local's own or a temporary it is evaluated into.

* `Branch c c' j`: from `c` to `c'` the code of a condition was written: it ends with the jump at
  `j`, the one position it leaves pending, and keeps the settled code and the scopes;
* `branchWith_does`: from its first instruction, the code of an operator term as a condition
  computes the term's value and then stops at the jump when the value is falsy, or just past it
  when it is truthy, with the registers below its temporaries kept;
* `patchAll_lands`: jumps patched to a target, and settled since, go to that target from wherever
  they stand in the finished function.
-/

namespace LuaBytecode

namespace Compiler

open Instruction

variable {σ : String → Value} {isLocal : String → Bool} {call : VM.Call} {line : Nat}
  {c c' : Compiler}

/-! ## States that admit evaluations at their top -/

namespace Opens

/-- A step that keeps the registers and the locals, and leaves nothing pending past its end,
keeps a state open. -/
theorem keep (h : Opens isLocal c) (hk : Keeps c c') (hu : c'.fs.usedRegs = c.fs.usedRegs)
    (hs : ∀ q ∈ c'.fs.pending, q < c'.fs.code.size) : Opens isLocal c' where
  below r hr := hu ▸ h.below r (hk.slots ▸ hr)
  room := hu ▸ h.room
  settled := hs
  names s hs' := by rw [FuncState.slotOf_of_unmark hk.actives]; exact h.names s hs'

end Opens

/-! ## The shape of a condition's code -/

/-- From `c` to `c'` the code of a condition was written, ending with the jump at `j`: the
settled code stays, the scopes are as they were, and the jump is the one position left pending
since `c`, where every jump pending before still is. -/
structure Branch (c c' : Compiler) (j : Nat) : Prop where
  settles : c.fs.Settles c'.fs
  scopes : c'.fs.scopes = c.fs.scopes
  last : c'.fs.code.size = j + 1
  start : c.fs.code.size ≤ j
  jump : (c'.fs.code[j]?).map Instruction.opcode = some .jmp
  mem : j ∈ c'.fs.pending
  pending : ∀ q ∈ c'.fs.pending, q = j ∨ q < c.fs.code.size
  kept : ∀ q ∈ c.fs.pending, q ∈ c'.fs.pending

namespace Branch

variable {j : Nat}

/-- Nothing pending lies past the end of a condition's code. -/
theorem settled (h : Branch c c' j) : ∀ q ∈ c'.fs.pending, q < c'.fs.code.size := by
  intro q hq
  rcases h.pending q hq with rfl | hlt
  · rw [h.last]; omega
  · have := h.start; rw [h.last]; omega

/-- Giving back registers after a condition's code keeps its shape. -/
theorem regs {c₂ : Compiler} (h : Branch c c' j) (hc : c₂.fs.code = c'.fs.code)
    (hp : c₂.fs.pending = c'.fs.pending) (hk : c₂.fs.constants = c'.fs.constants)
    (hsc : c₂.fs.scopes = c'.fs.scopes) : Branch c c₂ j where
  settles := h.settles.trans (.of_eq hc hp hk)
  scopes := hsc.trans h.scopes
  last := by rw [hc]; exact h.last
  start := h.start
  jump := by rw [hc]; exact h.jump
  mem := by rw [hp]; exact h.mem
  pending q hq := h.pending q (hp ▸ hq)
  kept q hq := hp ▸ h.kept q hq

/-- A condition's code preceded by sealed code. -/
theorem sealed_trans {c₀ : Compiler} (h₀ : Sealed c₀ c) (h : Branch c c' j) : Branch c₀ c' j where
  settles := h₀.settles.trans h.settles
  scopes := h.scopes.trans h₀.scopes
  last := h.last
  start := Nat.le_trans h₀.settles.size h.start
  jump := h.jump
  mem := h.mem
  pending q hq := (h.pending q hq).imp_right fun hlt => h₀.pending q (h.settles.pending q hlt hq)
  kept q hq := h.kept q (h₀.kept q hq)

end Branch

/-! ## Comparisons as conditions -/

/-- A comparison is a binary node of one of the six comparison operators. -/
theorem eq_binop_of_isComparison {e : Expr} (h : e.isComparison = true) :
    ∃ op lhs rhs l, e = .binop op lhs rhs l ∧
      (op = .eq ∨ op = .ne ∨ op = .lt ∨ op = .le ∨ op = .gt ∨ op = .ge) := by
  cases e with
  | binop op lhs rhs l =>
    refine ⟨op, lhs, rhs, l, rfl, ?_⟩
    cases op <;> simp_all [Expr.isComparison]
  | _ => simp [Expr.isComparison] at h

/-- A comparison compiles to its operands and a test, which ends with a jump when no value is
wanted. -/
theorem compileExpr_compare {op : BinOp} {lhs rhs : Expr} {l a : Nat} {n : Int}
    (hop : op = .eq ∨ op = .ne ∨ op = .lt ∨ op = .le ∨ op = .gt ∨ op = .ge) :
    compileExpr (.binop op lhs rhs l) a n =
      compareWith op (operandsWith (classify lhs) (fun r => compileExpr lhs r 1)
        (classify rhs) (fun r => compileExpr rhs r 1) a l) a (n == 0) l := by
  rcases hop with rfl | rfl | rfl | rfl | rfl | rfl <;> rfl

/-- A comparison as a condition, with the target `a`: its operands, the test, and a jump left
pending, which the test skips when the comparison holds. -/
theorem compare_branches (call : VM.Call) {opr : BinOp} {lhsOp rhsOp : CompileM Operand}
    {compileLhs compileRhs : Nat → CompileM Unit} {o₁ o₂ : Except Fault Value} {a : Nat}
    (hop : opr = .eq ∨ opr = .ne ∨ opr = .lt ∨ opr = .le ∨ opr = .gt ∨ opr = .ge)
    (hl : EvalPart σ isLocal lhsOp compileLhs o₁) (hr : EvalPart σ isLocal rhsOp compileRhs o₂)
    (ht : Admits isLocal a c)
    (h : (compareWith opr (operandsWith lhsOp compileLhs rhsOp compileRhs a line) a true line).run c =
      .ok ((), c')) :
    Branch c c' (c'.fs.code.size - 1) ∧ c'.fs.usedRegs = c.fs.usedRegs ∧
    ∀ lc m, Placed lc.proto c'.fs c.fs.code.size → m.Runs lc → m.frame.pc = c.fs.code.size →
      Env σ isLocal c.fs m.frame →
      VM.Does m (o₁ >>= fun v => o₂ >>= fun w => (opr.compare call v w).map Value.bool)
        fun (v : Value) m' =>
          Kept a m m' ∧ m'.frame.pc = if v.isTruthy then c'.fs.code.size else c'.fs.code.size - 1 := by
  obtain ⟨⟨b, x⟩, c₁, h₁, h₂⟩ := run_bind_ok h
  obtain ⟨hs₁, he₁, hrun⟩ := operandsWith_does hl hr ht h₁
  split at h₂
  rename_i b₀ x₀ hpair
  obtain ⟨rfl, rfl⟩ := Prod.mk.inj hpair
  split at h₂
  rename_i code b' x' heq
  simp only [if_true] at h₂
  obtain ⟨u, c₂, h₃, h₄⟩ := run_bind_ok h₂
  obtain ⟨hfit, rfl⟩ := emitABC_spec h₃
  obtain ⟨j, c₃, h₅, h₆⟩ := run_bind_ok h₄
  obtain ⟨-, rfl⟩ := run_pure_ok h₆
  obtain ⟨rfl, -, bx, rfl⟩ := emitJump_spec h₅
  obtain ⟨-, hbx⟩ := compareOperands_spec heq
  have hfit' : (if (opr == .ne) = true then 1 else 0) ≤ maxA ∧ b ≤ maxBC ∧ x ≤ maxBC := by
    refine ⟨hfit.1, ?_⟩
    rcases hbx with ⟨rfl, rfl⟩ | ⟨rfl, rfl⟩
    · exact hfit.2
    · exact ⟨hfit.2.2, hfit.2.1⟩
  have hle := hs₁.settles.size
  refine ⟨⟨hs₁.settles.trans ((FuncState.Settles.emit' _ _ _).trans (.pending_push _ _ _)),
    hs₁.scopes, by simp, by simp; omega, by simp [Array.getElem_push, opcode_abx], by simp,
    fun q hq => ?_, fun q hq => List.mem_cons_of_mem _ (hs₁.kept q hq)⟩,
    he₁.usedRegs, fun lc m hpl hr' hpc henv => ?_⟩
  · -- the jump is new; everything else pending was pending before the operands
    simp only [FuncState.emit'_code, Array.size_push] at hq ⊢
    rcases List.mem_cons.mp hq with rfl | hq
    · left; simp
    · exact .inr (hs₁.pending q hq)
  -- the test stands right after the operands, and the jump after it
  have hi : lc.proto.code[c₁.fs.code.size]? =
      some (abc code (if (opr == .ne) = true then 1 else 0) b' x') := by
    refine hpl.instr hle (fun hq => ?_) (by simp [Array.getElem_push])
    simp only [FuncState.emit'_code, Array.size_push, List.mem_cons] at hq
    rcases hq with hq | hq
    · omega
    · have := hs₁.pending _ hq; omega
  refine hrun lc m (hpl.earlier ((FuncState.Settles.emit' _ _ _).trans (.pending_push _ _ _))
    (Nat.le_refl _)) hr' hpc henv fun v w m' hpc' hb hx hk hv hw => ?_
  rw [← hpc'] at hi
  refine (does_cmp call hop (hk.2.runs hr') heq hi hfit' hb hx hv hw).map fun r m'' _ e => ?_
  -- the test skips the jump exactly when the comparison holds
  have hflag : (((if (opr == .ne) = true then 1 else 0) != 0) != (opr == .ne)) = false := by
    cases (opr == .ne) <;> rfl
  rw [hflag] at e
  subst e
  refine .here ⟨hk.trans (.skip _), ?_⟩
  simp only [Machine.fetched, Frame.pc_skipIf, hpc', FuncState.emit'_code, Array.size_push]
  cases r <;> simp [Value.isTruthy]

/-! ## Conditions tested in a register -/

/-- A register operand reads what its register holds. -/
theorem Reads.eq_reg {p : Proto} {f : Frame} {x : Nat} {v : Value} (h : Reads p f x v)
    (hx : x < 256) : f.reg x = v := by
  have hc : isConst x = false := by
    simp only [isConst, Nat.div_eq_of_lt hx]
    rfl
  simpa [Reads, hc] using h

/-- The register a condition is tested in: a local is tested in its own register, anything else
is evaluated into a temporary above the registers in use, which is given back. -/
theorem testedReg_does {cond : Expr} {compileCond : Nat → Int → CompileM Unit}
    {o : Except Fault Value} {r : Nat}
    (hp : EvalPart σ isLocal (classify cond) (fun a => compileCond a 1) o) (ht : Opens isLocal c)
    (h : (testedReg cond compileCond line).run c = .ok (r, c')) :
    Sealed c c' ∧ Keeps c c' ∧ c'.fs.usedRegs = c.fs.usedRegs ∧ r < 256 ∧
    ∀ lc m, Placed lc.proto c'.fs c.fs.code.size → m.Runs lc → m.frame.pc = c.fs.code.size →
      Env σ isLocal c.fs m.frame →
      VM.Does m o fun v m' =>
        m'.frame.pc = c'.fs.code.size ∧ m'.frame.reg r = v ∧ Kept c.fs.usedRegs m m' := by
  obtain ⟨y, c₁, h₁, h₂⟩ := run_bind_ok h
  obtain ⟨hq, hfit⟩ := hp.classifies c c₁ y h₁
  obtain ⟨hs₁, hread⟩ := hp.classified c c₁ y ht h₁
  split at h₂
  · -- a local is tested in its own register, which holds its value
    obtain ⟨rfl, rfl⟩ := run_pure_ok h₂
    have hlt : r < c.fs.usedRegs := ht.below r hfit
    have hr : r < 256 := by have := ht.room; omega
    obtain ⟨v, rfl, hrd⟩ := hread r rfl
    refine ⟨hs₁, hq.toKeeps, hq.usedRegs, hr, fun lc m hpl _ hpc henv => ?_⟩
    exact .here ⟨by rw [hpc, hq.code], (hrd _ _ hpl.constants henv).eq_reg hr, .refl _ m⟩
  · -- anything else goes to a temporary
    have henv₁ {f : Frame} (henv : Env σ isLocal c.fs f) : Env σ isLocal c₁.fs f :=
      henv.keep (FuncState.slotOf_of_unmark hq.actives) fun _ _ => rfl
    have ht₁ : Opens isLocal c₁ := ht.keep hq.toKeeps hq.usedRegs hs₁.settled
    obtain ⟨tmp, c₂, h₃, h₄⟩ := run_bind_ok h₂
    obtain ⟨rfl, ht₂, hs₂⟩ := ht₁.alloc h₃
    obtain ⟨-, hu₂, hk₂, hcode₂⟩ := alloc_spec h₃
    obtain ⟨u, c₃, h₅, h₆⟩ := run_bind_ok h₄
    obtain ⟨u', c₄, h₇, h₈⟩ := run_bind_ok h₆
    obtain ⟨rfl, rfl⟩ := run_pure_ok h₈
    obtain ⟨hs₃, hrun⟩ := hp.evaluates _ c₂ c₃ ht₂ h₅
    obtain ⟨he₃, hu₃⟩ := hp.into _ c₂ c₃ ht₂.taken h₅
    obtain ⟨-, -, hk₄, -⟩ := free_spec h₇
    obtain ⟨fs', hf, rfl⟩ := run_updateFs h₇
    obtain ⟨-, rfl⟩ := FuncState.freeReg_ok hf
    have hs₄ : Sealed c₃ { c₃ with fs := { c₃.fs with usedRegs := c₃.fs.usedRegs - 1 } } :=
      .of_eq rfl rfl rfl rfl hs₃.settled
    have hcode : c₂.fs.code = c.fs.code := hcode₂.trans hq.code
    refine ⟨hs₁.trans (hs₂.trans (hs₃.trans hs₄)), hq.toKeeps.trans (hk₂.trans (he₃.toKeeps.trans hk₄)),
      by simp [hu₃, hu₂, hq.usedRegs], by have := ht.room; rw [hq.usedRegs]; omega,
      fun lc m hpl hr hpc henv => ?_⟩
    rw [← hcode] at hpl hpc
    refine (hrun lc m (hpl.earlier hs₄.settles (Nat.le_refl _)) hr hpc
      ((henv₁ henv).keep (FuncState.slotOf_of_unmark hk₂.actives) fun _ _ => rfl)).mono
      fun v m' hl => ⟨hl.1, hl.2.1, ?_⟩
    rw [← hq.usedRegs]
    exact Kept.of_lands hl

/-! ## Conditions -/

section Conditions

variable {j : Nat} (hσ : ∀ s, isLocal s = true → (σ s).isTable = false)
include hσ

/-- The code of an operator term as a condition: it computes the term's value, keeps the
registers in use, and then stops at its jump when the value is falsy, or just past it when it is
truthy. -/
theorem branchWith_does {cond : Expr} (hc : cond.isOperatorTerm isLocal = true)
    (ht : Opens isLocal c) (h : (branchWith cond fun a n => compileExpr cond a n).run c = .ok (j, c')) :
    Branch c c' j ∧ c'.fs.usedRegs = c.fs.usedRegs ∧
    ∀ lc m, Placed lc.proto c'.fs c.fs.code.size → m.Runs lc → m.frame.pc = c.fs.code.size →
      Env σ isLocal c.fs m.frame →
      VM.Does m (cond.evalOp call σ).outcome fun v m' =>
        Kept c.fs.usedRegs m m' ∧ m'.frame.pc = if v.isTruthy then j + 1 else j := by
  unfold branchWith at h
  split at h
  · -- a comparison tests itself, in a temporary it does not write
    rename_i hcmp
    obtain ⟨op, lhs, rhs, l, rfl, hop⟩ := eq_binop_of_isComparison hcmp
    rw [Expr.isOperatorTerm, Bool.and_eq_true] at hc
    obtain ⟨tmp, c₁, h₁, h₂⟩ := run_bind_ok h
    obtain ⟨rfl, ht₁, hs₁⟩ := ht.alloc h₁
    obtain ⟨-, hu₁, hk₁, hcode₁⟩ := alloc_spec h₁
    obtain ⟨u, c₂, h₃, h₄⟩ := run_bind_ok h₂
    beta_reduce at h₃
    rw [compileExpr_compare hop] at h₃
    have hlhs : EvalPart σ isLocal (classify lhs) (fun r => compileExpr lhs r 1)
        (lhs.evalOp call σ).outcome := compileExpr_evalPart hσ lhs hc.1
    have hrhs : EvalPart σ isLocal (classify rhs) (fun r => compileExpr rhs r 1)
        (rhs.evalOp call σ).outcome := compileExpr_evalPart hσ rhs hc.2
    obtain ⟨hb, hu₂, hrun⟩ := compare_branches call hop hlhs hrhs ht₁ h₃
    obtain ⟨u', c₃, h₅, h₆⟩ := run_bind_ok h₄
    obtain ⟨fs', hf, rfl⟩ := run_updateFs h₅
    obtain ⟨-, rfl⟩ := FuncState.freeReg_ok hf
    obtain ⟨n, c₄, h₇, h₈⟩ := run_bind_ok h₆
    obtain ⟨rfl, rfl⟩ := pc_spec h₇
    obtain ⟨hj, rfl⟩ := run_pure_ok h₈
    subst hj
    refine ⟨.sealed_trans hs₁ (hb.regs (by rfl) (by rfl) (by rfl) (by rfl)), by simp [hu₂, hu₁],
      fun lc m hpl hr hpc henv => ?_⟩
    rw [Expr.outcome_compare hσ hop hc.1 hc.2]
    rw [← hcode₁] at hpc
    refine (hrun lc m (hpl.earlier (.of_eq rfl rfl rfl) (by rw [hcode₁])) hr hpc
      (henv.keep (FuncState.slotOf_of_unmark hk₁.actives) fun _ _ => rfl)).mono
      fun v m' hv => ⟨hv.1, ?_⟩
    have := hb.last
    rw [hv.2]
    dsimp only
    split <;> omega
  · -- anything else is tested in a register, then jumps
    have hp : EvalPart σ isLocal (classify cond) (fun a => compileExpr cond a 1)
        (cond.evalOp call σ).outcome := compileExpr_evalPart hσ cond hc
    obtain ⟨r, c₁, h₁, h₂⟩ := run_bind_ok h
    obtain ⟨hs₁, -, hu₁, hr, hrun⟩ := testedReg_does hp ht h₁
    obtain ⟨u, c₂, h₃, h₄⟩ := run_bind_ok h₂
    obtain ⟨fs', h₃', rfl⟩ := run_updateFs h₃
    obtain ⟨hfit, rfl⟩ := FuncState.emitABC_ok h₃'
    obtain ⟨rfl, -, bx, rfl⟩ := emitJump_spec h₄
    have hle := hs₁.settles.size
    refine ⟨⟨hs₁.settles.trans ((FuncState.Settles.emit' _ _ _).trans (.pending_push _ _ _)), hs₁.scopes, by simp, by simp; omega,
      by simp [Array.getElem_push, opcode_abx], by simp, fun q hq => ?_,
      fun q hq => List.mem_cons_of_mem _ (hs₁.kept q hq)⟩, by simp [hu₁],
      fun lc m hpl hr' hpc henv => ?_⟩
    · -- the jump is new; everything else pending was pending before the condition
      rcases List.mem_cons.mp hq with rfl | hq
      · left; simp
      · exact .inr (hs₁.pending q hq)
    -- the test stands right after the register's code, and the jump after it
    have hi : lc.proto.code[c₁.fs.code.size]? = some (abc .test r 0 0) := by
      refine hpl.instr hle (fun hq => ?_) (by simp [Array.getElem_push])
      simp only [FuncState.emit'_code, Array.size_push, List.mem_cons] at hq
      rcases hq with hq | hq
      · omega
      · have := hs₁.pending _ hq; omega
    refine (hrun lc m (hpl.earlier ((FuncState.Settles.emit' _ _ _).trans (.pending_push _ _ _))
      (Nat.le_refl _)) hr' hpc henv).extend
      fun v m' _ hv => ?_
    obtain ⟨hpc', hreg, hk⟩ := hv
    rw [← hpc'] at hi
    refine .move (VM.moves_test (hk.2.runs hr') hi (opcode_abc _ _ _ _)) ⟨hk.trans (.skip _), ?_⟩
    simp only [Machine.fetched, Frame.pc_skipIf, hpc', a_abc _ _ _ _ hfit.1,
      c_abc _ _ _ _ hfit.2.2, hreg, FuncState.emit'_code, Array.size_push]
    cases v.isTruthy <;> simp

end Conditions

end Compiler

end LuaBytecode
