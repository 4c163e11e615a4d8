import LuaBytecode.Proofs.Compiler.Jumps
/-!
# Compiled operator terms keep their meaning

The end-to-end statement for the operator fragment: literals, names of locals, parentheses and
the unary and binary operators. With names that hold no tables, the code an operator term
compiles to does what its meaning `Expr.evalOp` says, as a value and as a condition
(`operator_terms_keep_meaning`):

* compiled into a register `a` above the locals, from the first instruction of the code the
  machine takes steps that call nothing to the end of the code, with the meaning in `a` and
  every register below `a` as it was, or to an instruction that fails with the meaning's error;
* compiled as a condition, the code computes the same value, keeps the registers in use, and
  ends at the jump it leaves pending when the value is falsy, or just past it when it is truthy.

The steps are those of the machine itself (`VM.Steps`), and the machine is deterministic, so the
code fails exactly when the meaning does. Both halves are assembled from `compileExpr_evalPart`,
the recursion over the tree, and `branchWith_does`, the shapes of a condition's code.
-/

namespace LuaBytecode

namespace Compiler

/-- Compiled with names that hold no tables, an operator term keeps its meaning. Into a register
`a` above the locals, its code runs from its first instruction to its end with the meaning in
`a` and the registers below `a` kept, or fails with the meaning's error. As a condition, its code
ends with a jump at `j`, the one position it leaves pending, computes the same value, keeps the
registers in use, and stops at the jump when the value is falsy and just past it when it is
truthy. -/
theorem operator_terms_keep_meaning (call : VM.Call) {σ : String → Value}
    {isLocal : String → Bool} (hσ : ∀ s, isLocal s = true → (σ s).isTable = false) {e : Expr}
    (he : e.isOperatorTerm isLocal = true) :
    (∀ a c c', Admits isLocal a c → (compileExpr e a 1).run c = .ok ((), c') →
      ∀ lc m, Placed lc.proto c'.fs c.fs.code.size → m.Runs lc →
        m.frame.pc = c.fs.code.size → Env σ isLocal c.fs m.frame →
        VM.Does m (e.evalOp call σ).outcome (Lands a c'.fs.code.size m)) ∧
    (∀ c c' j, Opens isLocal c →
      (branchWith e fun a n => compileExpr e a n).run c = .ok (j, c') →
      Branch c c' j ∧ ∀ lc m, Placed lc.proto c'.fs c.fs.code.size → m.Runs lc →
        m.frame.pc = c.fs.code.size → Env σ isLocal c.fs m.frame →
        VM.Does m (e.evalOp call σ).outcome fun v m' =>
          Kept c.fs.usedRegs m m' ∧ m'.frame.pc = if v.isTruthy then j + 1 else j) := by
  refine ⟨fun a c c' ht h => ((compileExpr_evalPart hσ e he).evaluates a c c' ht h).2,
    fun c c' j ht h => ?_⟩
  obtain ⟨hb, -, hrun⟩ := branchWith_does hσ he ht h
  exact ⟨hb, hrun⟩

/-- `x + 1`, with `x` the one local of a function, in register 0 holding `2`: compiled into the
temporary above it and run, it leaves `3` there. -/
theorem add_to_local_lands :
    ∃ c', (compileExpr (.binop .add (.name "x" 1) (.int 1 1) 1) 1 1).run
        { fs := { actives := #[⟨"x", 0, 0, false, 0⟩], usedRegs := 2 }, source := "" } =
        .ok ((), c') ∧
      ∃ n m', VM.Steps n
        { frame := { slots := #[.int 2, .nil], top := 2, running := some (.closure 0) },
          closures := #[{ cells := #[],
                          proto := { code := c'.fs.code, constants := c'.fs.constants } }] } m' ∧
        m'.frame.pc = c'.fs.code.size ∧ m'.frame.reg 1 = .int 3 ∧ m'.frame.reg 0 = .int 2 := by
  have hok : ((compileExpr (.binop .add (.name "x" 1) (.int 1 1) 1) 1 1).run
      { fs := { actives := #[⟨"x", 0, 0, false, 0⟩], usedRegs := 2 }, source := "" }).isOk =
      true := by
    decide +kernel
  revert hok
  cases hc : (compileExpr (.binop .add (.name "x" 1) (.int 1 1) 1) 1 1).run
      { fs := { actives := #[⟨"x", 0, 0, false, 0⟩], usedRegs := 2 }, source := "" } with
  | error err => simp [Except.isOk, Except.toBool]
  | ok r =>
    obtain ⟨u, c'⟩ := r
    intro _
    refine ⟨c', rfl, ?_⟩
    -- the target is the temporary above `x`, whose register holds `2`
    have hadm : Admits (· == "x") 1
        { fs := { actives := #[⟨"x", 0, 0, false, 0⟩], usedRegs := 2 }, source := "" } := by
      refine ⟨by decide, ?_, by decide, by simp, ?_⟩
      · simp [FuncState.slots]
      · intro s hs
        simp only [beq_iff_eq] at hs
        subst hs
        rfl
    have henv : Env (fun _ => .int 2) (· == "x")
        ({ fs := { actives := #[⟨"x", 0, 0, false, 0⟩], usedRegs := 2 }, source := "" } :
          Compiler).fs
        ({ slots := #[.int 2, .nil], top := 2, running := some (.closure 0) } : Frame) := by
      intro s hs
      simp only [beq_iff_eq] at hs
      subst hs
      exact ⟨0, rfl, rfl⟩
    -- the function's code is the code compiled, run from its start
    have hrun : Machine.Runs
        { frame := { slots := #[.int 2, .nil], top := 2, running := some (.closure 0) },
          closures := #[{ cells := #[],
                          proto := { code := c'.fs.code, constants := c'.fs.constants } }] }
        { cells := #[], proto := { code := c'.fs.code, constants := c'.fs.constants } } :=
      ⟨0, rfl, rfl⟩
    obtain ⟨n, m', hs, hl⟩ := (operator_terms_keep_meaning (fun _ _ => pure ()) (fun _ _ => rfl)
      (by decide)).1 1 _ c' hadm hc _ _ ⟨fun _ _ _ _ => rfl, List.prefix_refl _⟩ hrun rfl henv
    exact ⟨n, m', hs, hl.1, hl.2.1, hl.2.2.1 0 (by decide)⟩

end Compiler

end LuaBytecode
