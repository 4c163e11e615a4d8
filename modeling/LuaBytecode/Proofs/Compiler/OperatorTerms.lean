import LuaBytecode.Proofs.Compiler.OperatorChains
/-!
# Every operator term computes its meaning

The recursion over the tree that puts the nodes of `Compiler.OperatorCode` and
`Compiler.OperatorChains` together: compiled into a register above the locals, with names that
hold no tables, every operator term leaves its meaning (`Expr.evalOp`) in that register, or fails
as its meaning does, and keeps the registers below it (`compileExpr_evalPart`).

The parts of a chain of `..` or `^` lie deeper in the tree than the node's two children, so the
recursion is on the size of the term.
-/

namespace LuaBytecode

namespace Compiler

variable {σ : String → Value} {isLocal : String → Bool} {call : VM.Call}

/-- The parts of a chain are smaller than the chain. -/
theorem sizeOf_lt_of_mem_chain {op : BinOp} {e x : Expr} (hx : x ∈ e.chain op) :
    sizeOf x < sizeOf e := by
  by_cases hb : e.isBinop op = true
  · obtain ⟨lhs, rhs, l, rfl⟩ := Expr.eq_binop_of_isBinop hb
    rw [Expr.chain_binop] at hx
    rcases List.mem_cons.mp hx with rfl | hx
    · simp
      omega
    split at hx
    · have := sizeOf_lt_of_mem_chain hx
      simp
      omega
    · rw [List.mem_singleton] at hx
      subst hx
      simp
      omega
  · cases e <;> simp_all [Expr.chain, Expr.isBinop]
termination_by sizeOf e

variable (hσ : ∀ s, isLocal s = true → (σ s).isTable = false)
include hσ

/-- Every operator term is a part that computes its meaning: its classification reads the
meaning in place when it can, and its code, into any register above the locals, leaves the
meaning there. -/
theorem compileExpr_evalPart (e : Expr) (he : e.isOperatorTerm isLocal = true) :
    EvalPart σ isLocal (classify e) (fun r => compileExpr e r 1) (e.evalOp call σ).outcome := by
  refine ⟨classify_classifies e, (compileExpr_sound e).keeps 1, classify_classified e he, ?_,
    fun v hv => (Expr.evalOp_plain hσ e he).value v hv⟩
  match e, he with
  | .nil l, _ => exact emitLoadNil_evaluates
  | .bool b l, _ => exact emitLoadBool_evaluates b
  | .int v l, _ => exact emitLoadK_evaluates (.int v)
  | .float bits l, _ => exact emitLoadK_evaluates (.float bits)
  | .str s l, _ => exact emitLoadK_evaluates (.str s)
  | .name s l, he => exact compileName_evaluates he
  | .paren inner l, he =>
    rw [Expr.outcome_paren]
    exact (compileExpr_evalPart inner he).evaluates
  | .unop op inner l, he =>
    have hin : inner.isOperatorTerm isLocal = true := he
    have hp := compileExpr_evalPart inner hin
    rw [Expr.outcome_unop hσ hin]
    exact unop_evaluates hp.evaluates hp.plain
  | .binop op lhs rhs l, he =>
    have he' := he
    rw [Expr.isOperatorTerm, Bool.and_eq_true] at he'
    have hl := compileExpr_evalPart lhs he'.1
    have hr := compileExpr_evalPart rhs he'.2
    cases op
    case and =>
      have e : ((Expr.binop .and lhs rhs l).evalOp call σ).outcome =
          (lhs.evalOp call σ).outcome >>= fun x =>
            if x.isTruthy = false then .ok x else (rhs.evalOp call σ).outcome :=
        @Expr.outcome_logical call σ isLocal hσ false lhs rhs l he'.1
      rw [e]
      exact logical_evaluates hl hr.evaluates hr.into
    case or =>
      have e : ((Expr.binop .or lhs rhs l).evalOp call σ).outcome =
          (lhs.evalOp call σ).outcome >>= fun x =>
            if x.isTruthy = true then .ok x else (rhs.evalOp call σ).outcome :=
        @Expr.outcome_logical call σ isLocal hσ true lhs rhs l he'.1
      rw [e]
      exact logical_evaluates hl hr.evaluates hr.into
    case concat =>
      have hc : (fun a => compileExpr (.binop .concat lhs rhs l) a 1) = fun a =>
          concatWith (((Expr.binop .concat lhs rhs l).chain .concat).map
            fun x r => compileExpr x r 1) a l := by
        funext a
        rw [← concatParts_eq, concatParts_binop, if_pos rfl]
        rfl
      -- the parts of the chain, each a smaller operator term
      have hparts : PartsEval σ isLocal call ((Expr.binop .concat lhs rhs l).chain .concat) :=
        fun x hx => compileExpr_evalPart x (Expr.chain_operatorTerm _ he x hx)
      rw [hc, Expr.outcome_concat hσ he'.1 he'.2]
      exact concat_evaluates hparts (by simp [Expr.chain_binop])
    case pow =>
      have hc : (fun a => compileExpr (.binop .pow lhs rhs l) a 1) = fun a =>
          powWith (((Expr.binop .pow lhs rhs l).chain .pow).map
            fun x => (classify x, fun r => compileExpr x r 1)) a l := by
        funext a
        rw [← powParts_eq, powParts_binop, if_pos rfl]
        rfl
      have hparts : PartsEval σ isLocal call ((Expr.binop .pow lhs rhs l).chain .pow) :=
        fun x hx => compileExpr_evalPart x (Expr.chain_operatorTerm _ he x hx)
      rw [hc, Expr.outcome_pow hσ he'.1 he'.2]
      exact pow_evaluates hparts (Expr.two_le_length_chain (by simp [Expr.isBinop]))
    case eq | ne | lt | le | gt | ge =>
      rw [Expr.outcome_compare hσ (by simp) he'.1 he'.2]
      exact compare_evaluates (by simp) hl hr
    all_goals
      rw [Expr.outcome_arith hσ (.inl rfl) he'.1 he'.2]
      exact arith_evaluates rfl hl hr
termination_by sizeOf e
decreasing_by
  all_goals first
    | (simp; omega)
    | exact sizeOf_lt_of_mem_chain hx

end Compiler

end LuaBytecode
