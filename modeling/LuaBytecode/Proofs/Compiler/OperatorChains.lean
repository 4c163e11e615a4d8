import LuaBytecode.Proofs.Compiler.OperatorCode
/-!
# Compiled chains compute their meaning

`..` and `^` group to the right, and the compiler takes a whole chain `e₀ op e₁ op ⋯ op eₖ` at
once: its parts are evaluated from left to right (`Expr.evalAll`), then joined or raised from
the right. This module proves that the code of a chain computes that (`Evaluates`):

* `intoFresh_does`: parts evaluated into consecutive fresh registers leave their values there,
  in order;
* `concat_evaluates`: a concatenation into the top register is its parts into that register and
  the ones above, then one `concat` of them all;
* `powWith_evaluates`: a power chain reads each part as an RK operand where it can, evaluates
  the first other part into the target and later ones into temporaries, and folds the powers
  from the right, through a scratch register while the target still holds an operand a later
  step reads.
-/

namespace LuaBytecode

namespace Compiler

open Instruction

variable {σ : String → Value} {isLocal : String → Bool} {call : VM.Call} {line : Nat}

/-! ## The parts of a chain -/

theorem concatParts_eq (e : Expr) :
    concatParts e = (e.chain .concat).map fun x r => compileExpr x r 1 := by
  by_cases hb : e.isBinop .concat = true
  · obtain ⟨lhs, rhs, l, hbe⟩ := Expr.eq_binop_of_isBinop hb
    rw [hbe, concatParts_binop, if_pos rfl, Expr.chain_binop]
    split
    · rw [List.map_cons, concatParts_eq rhs]
    · rfl
  · cases e with
    | binop op lhs rhs l =>
      have hop : op ≠ .concat := by simpa [Expr.isBinop] using hb
      rw [concatParts_binop, if_neg hop, Expr.chain, if_neg hop, List.map_nil]
    | _ => rfl
termination_by sizeOf e
decreasing_by subst hbe; simp; omega

theorem powParts_eq (e : Expr) :
    powParts e = (e.chain .pow).map fun x => (classify x, fun r => compileExpr x r 1) := by
  by_cases hb : e.isBinop .pow = true
  · obtain ⟨lhs, rhs, l, hbe⟩ := Expr.eq_binop_of_isBinop hb
    rw [hbe, powParts_binop, if_pos rfl, Expr.chain_binop]
    split
    · rw [List.map_cons, powParts_eq rhs]
    · rfl
  · cases e with
    | binop op lhs rhs l =>
      have hop : op ≠ .pow := by simpa [Expr.isBinop] using hb
      rw [powParts_binop, if_neg hop, Expr.chain, if_neg hop, List.map_nil]
    | _ => rfl
termination_by sizeOf e
decreasing_by subst hbe; simp; omega

/-! ## Parts into fresh registers -/

/-- Consecutive registers from `a`: the first, then those from `a + 1`. -/
theorem range_regs_succ (f : Nat → Value) (a n : Nat) :
    (List.range (n + 1)).map (fun i => f (a + i)) = f a :: (List.range n).map fun i => f (a + 1 + i) := by
  rw [List.range_succ_eq_map, List.map_cons, List.map_map, Nat.add_zero]
  refine congrArg _ (List.map_congr_left fun i _ => ?_)
  simp only [Function.comp_apply]
  rw [Nat.add_right_comm, Nat.add_assoc]

/-- Each part of a list evaluates to the meaning of its term. -/
def PartsEval (σ : String → Value) (isLocal : String → Bool) (call : VM.Call) (es : List Expr) :
    Prop :=
  ∀ x ∈ es, EvalPart σ isLocal (classify x) (fun r => compileExpr x r 1) (x.evalOp call σ).outcome

/-- Parts into consecutive fresh registers from the top: from the first instruction of their
code the machine reaches its end with the parts' values in those registers, in order, and the
registers below them as they were, or fails as the first failing part does. -/
theorem intoFresh_does {es : List Expr} (hes : PartsEval σ isLocal call es)
    {c c' : Compiler} (ht : Opens isLocal c)
    (h : (intoFresh line (es.map fun x r => compileExpr x r 1)).run c = .ok ((), c')) :
    Sealed c c' ∧ ∀ lc m, Placed lc.proto c'.fs c.fs.code.size → m.Runs lc →
      m.frame.pc = c.fs.code.size → Env σ isLocal c.fs m.frame →
      VM.Does m (Expr.evalAll call σ es) fun vs m' => m'.frame.pc = c'.fs.code.size ∧
        Kept c.fs.usedRegs m m' ∧ vs.length = es.length ∧
        (List.range vs.length).map (fun i => m'.frame.reg (c.fs.usedRegs + i)) = vs ∧
        ∀ v ∈ vs, v.isTable = false := by
  induction es generalizing c with
  | nil =>
    obtain ⟨-, rfl⟩ := run_pure_ok h
    exact ⟨.refl ht.settled, fun lc m _ _ hpc _ => .here ⟨hpc, .refl _ m, rfl, rfl, nofun⟩⟩
  | cons x xs ih =>
    obtain ⟨r, c₁, h₁, h₂⟩ := run_bind_ok h
    obtain ⟨-, hu₁, hk₁, hcode₁⟩ := alloc_spec h₁
    obtain ⟨rfl, ht₁, hs₁⟩ := ht.alloc h₁
    obtain ⟨u, c₂, h₃, h₄⟩ := run_bind_ok h₂
    have hx := hes x List.mem_cons_self
    obtain ⟨hs₂, hrun₂⟩ := hx.evaluates _ c₁ c₂ ht₁ h₃
    have he₂ := hx.into _ c₁ c₂ ht₁.taken h₃
    obtain ⟨hs₃, hrun₃⟩ := ih (fun y hy => hes y (List.mem_cons_of_mem x hy))
      (ht₁.exprOk he₂ hs₂).opens h₄
    refine ⟨hs₁.trans (hs₂.trans hs₃), fun lc m hpl hr hpc henv => ?_⟩
    have hu₂ : c₂.fs.usedRegs = c.fs.usedRegs + 1 := he₂.usedRegs.trans hu₁
    rw [← hcode₁] at hpc
    simp only [Expr.evalAll]
    refine (hrun₂ lc m (hpl.earlier hs₃.settles (by rw [hcode₁])) hr hpc
      (henv.keep (FuncState.slotOf_of_unmark hk₁.actives) fun _ _ => rfl)).bind
      fun v m₁ hv hl => ?_
    have hk₁' : Kept c.fs.usedRegs m m₁ := .of_lands hl
    refine (hrun₃ lc m₁ (hpl.earlier (.refl _) (Nat.le_trans hs₁.settles.size hs₂.settles.size))
      (hk₁'.2.runs hr) hl.1
      (hk₁'.env henv ht.below
        (FuncState.slotOf_of_unmark (hk₁.trans he₂.toKeeps).actives))).bind
      fun vs m₂ _ hpost => ?_
    obtain ⟨hpc₂, hk₂, hlen, hregs, hplain⟩ := hpost
    refine .here ⟨hpc₂, hk₁'.trans (hk₂.mono (by omega)), by simp [hlen], ?_, ?_⟩
    · -- the first part stays in its register while the others go above it
      rw [hu₂] at hregs
      rw [List.length_cons, range_regs_succ, hregs, hk₂.1 _ (by omega), hl.2.1]
    · rintro w (_ | ⟨_, hw⟩)
      · exact hx.plain v hv
      · exact hplain w hw

/-! ## Concatenation -/

/-- A concatenation chain into the top register `a`: its parts into `a` and the registers above,
then one `concat` of them all into `a`. -/
theorem concat_evaluates {es : List Expr} (hes : PartsEval σ isLocal call es) (hne : es ≠ []) :
    Evaluates σ isLocal (fun a => concatWith (es.map fun x r => compileExpr x r 1) a line)
      (Expr.evalAll call σ es >>= fun vs => (VM.concat call vs.toArray).outcome) := by
  intro a c c' ht h
  obtain ⟨top, c₁, h₁, h₂⟩ := run_bind_ok h
  obtain ⟨rfl, rfl⟩ := run_readFs h₁
  obtain ⟨htop, h₂⟩ := run_guard h₂
  have ha : a + 1 = c.fs.usedRegs := by simpa [FuncState.isTop] using htop
  obtain ⟨x, xs, rfl⟩ := List.exists_cons_of_ne_nil hne
  simp only [List.map_cons] at h₂
  obtain ⟨u, c₂, h₃, h₄⟩ := run_bind_ok h₂
  have hx := hes x List.mem_cons_self
  obtain ⟨hs₂, hrun₂⟩ := hx.evaluates a c c₂ ht h₃
  have he₂ := hx.into a c c₂ ht.taken h₃
  obtain ⟨u, c₃, h₅, h₆⟩ := run_bind_ok h₄
  obtain ⟨hs₃, hrun₃⟩ := intoFresh_does (fun y hy => hes y (List.mem_cons_of_mem x hy))
    (ht.exprOk he₂ hs₂).opens h₅
  obtain ⟨u, c₄, h₇, h₈⟩ := run_bind_ok h₆
  obtain ⟨fs₄, hf, rfl⟩ := run_updateFs h₇
  obtain ⟨-, rfl⟩ := FuncState.freeRegs_ok hf
  obtain ⟨hfit, rfl⟩ := emitABC_spec h₈
  have hs₄ : Sealed c₃ { c₃ with fs := { c₃.fs with
      usedRegs := c₃.fs.usedRegs - (xs.map fun x r => compileExpr x r 1).length } } :=
    .of_eq rfl rfl rfl rfl hs₃.settled
  refine ⟨(hs₂.trans (hs₃.trans hs₄)).emit', fun lc m hpl hr hpc henv => ?_⟩
  have hi := hpl.last (.refl _) (Nat.le_trans hs₂.settles.size hs₃.settles.size) hs₃.settled
  simp only [Expr.evalAll, bind_assoc, pure_bind]
  refine (hrun₂ lc m (hpl.earlier ((hs₃.settles.trans hs₄.settles).trans (.emit' _ _ _))
    (Nat.le_refl _)) hr hpc henv).bind fun v m₁ hv hl => ?_
  have hk₁ : Kept a m m₁ := .of_lands hl
  refine (hrun₃ lc m₁ (hpl.earlier (hs₄.settles.trans (.emit' _ _ _)) hs₂.settles.size)
    (hk₁.2.runs hr) hl.1
    (hk₁.env henv ht.above (FuncState.slotOf_of_unmark he₂.toKeeps.actives))).bind
    fun vs m₂ _ hpost => ?_
  obtain ⟨hpc₂, hk₂, hlen, hregs, hplain⟩ := hpost
  -- the parts are in `a` and the registers above it, in order
  rw [he₂.usedRegs, ← ha] at hk₂ hregs
  have hlen' : (xs.map fun x r => compileExpr x r 1).length = vs.length := by simp [hlen]
  have hall : (List.range (vs.length + 1)).map (fun i => m₂.frame.reg (a + i)) = v :: vs := by
    rw [range_regs_succ, hregs, hk₂.1 _ (by omega), hl.2.1]
  rw [← hpc₂] at hi
  have hd := VM.does_concat ((hk₁.2.trans hk₂.2).runs hr) hi call (opcode_abc _ _ _ _)
    (by rw [b_abc _ _ _ _ hfit.2.1, c_abc _ _ _ _ hfit.2.2]; omega)
    (fun r h₁ h₂ => by
      rw [b_abc _ _ _ _ hfit.2.1] at h₁
      rw [c_abc _ _ _ _ hfit.2.2] at h₂
      have hr' : m₂.frame.reg r ∈ v :: vs := by
        rw [← hall]
        exact List.mem_map.mpr ⟨r - a, List.mem_range.mpr (by omega), by congr 1; omega⟩
      rcases List.mem_cons.mp hr' with e | e
      · rw [e]; exact hx.plain v hv
      · exact hplain _ e)
  rw [b_abc _ _ _ _ hfit.2.1, c_abc _ _ _ _ hfit.2.2, a_abc _ _ _ _ hfit.1,
    show a + (xs.map fun x r => compileExpr x r 1).length + 1 - a = vs.length + 1 by omega,
    hall] at hd
  exact hd.mono fun w m' e => e ▸ (hk₁.trans (hk₂.mono (Nat.le_succ a))).lands_write
    (by simp [hpc₂])

/-! ## Power chains -/

end Compiler

namespace VM

/-- The powers of a chain's values from index `n - 1` down to `0`, starting from `r`: what the
fold of the code computes. -/
def powFrom (call : Call) (vs : List Value) : Nat → Value → Except Fault Value
  | 0, r => .ok r
  | n + 1, r => (arith call .pow (vs.getD n .nil) r).outcome >>= powFrom call vs n

theorem powFrom_cons (call : Call) (v : Value) (vs : List Value) :
    ∀ (n : Nat) (r : Value), powFrom call (v :: vs) (n + 1) r =
      powFrom call vs n r >>= fun r' => (arith call .pow v r').outcome
  | 0, r => by
    show (arith call .pow v r).outcome >>= (fun x => Except.ok x) = (arith call .pow v r).outcome
    cases (arith call .pow v r).outcome <;> rfl
  | n + 1, r => by
    rw [powFrom, List.getD_cons_succ, powFrom, bind_assoc]
    exact Except.bind_congr_ok fun r' _ => powFrom_cons call v vs n r'

/-- The powers from the right are the fold of the code, started from the last value. -/
theorem powRight_eq_powFrom (call : Call) : ∀ vs : List Value, vs ≠ [] →
    powRight call vs = powFrom call vs (vs.length - 1) (vs.getD (vs.length - 1) .nil)
  | [v], _ => rfl
  | v :: w :: ws, _ => by
    have e : powRight call (v :: w :: ws) =
        powRight call (w :: ws) >>= fun r => (arith call .pow v r).outcome := rfl
    rw [e, powRight_eq_powFrom call (w :: ws) (List.cons_ne_nil _ _)]
    simp only [List.length_cons, Nat.add_sub_cancel]
    rw [powFrom_cons, List.getD_cons_succ]

end VM

namespace Compiler

open Instruction

/-- Where an operand of a power chain is read: a constant or a local, the target (only by the
part `k`, which was evaluated there), or a temporary from `lo` to `hi`. -/
def PowOperand (a lo hi : Nat) (inA : Option Nat) (k x : Nat) : Prop :=
  isConst x = true ∨ x < a ∨ (x = a ∧ inA = some k) ∨ (lo ≤ x ∧ x < hi)

theorem PowOperand.mono_lo {a lo lo' hi k x : Nat} {inA : Option Nat}
    (h : PowOperand a lo hi inA k x) (hlo : lo' ≤ lo) : PowOperand a lo' hi inA k x := by
  rcases h with h | h | h | ⟨h₁, h₂⟩
  · exact .inl h
  · exact .inr (.inl h)
  · exact .inr (.inr (.inl h))
  · exact .inr (.inr (.inr ⟨Nat.le_trans hlo h₁, h₂⟩))

/-- An operand of a power chain is no register at or above `hi`. -/
theorem PowOperand.ne_of_le {a lo hi k x s : Nat} {inA : Option Nat}
    (h : PowOperand a lo hi inA k x) (hlo : a < lo) (hlh : lo ≤ hi) (hs : hi ≤ s) (hs' : s < 256) :
    x ≠ s := by
  rintro rfl
  rcases h with h | h | ⟨rfl, -⟩ | ⟨-, h⟩
  · simp [isConst, Nat.div_eq_of_lt hs'] at h
  all_goals omega

/-- The operands of a power chain, from part `i` on: from the first instruction of their code
the machine reaches its end with each operand reading its part's value, from where
`PowOperand` says, or fails as the first failing part does. The target is written only by the
first part that needs a register, and only when no earlier part did. -/
theorem powOperands_does {a : Nat} {es : List Expr} (hes : PartsEval σ isLocal call es) :
    ∀ {c c' : Compiler} {i temps temps' : Nat} {inA inA' : Option Nat} {ops : List Nat},
      Admits isLocal a c →
      (powOperands a line (es.map fun x => (classify x, fun r => compileExpr x r 1)) i inA
        temps).run c = .ok ((ops, inA', temps'), c') →
      Sealed c c' ∧ c.fs.usedRegs ≤ c'.fs.usedRegs ∧ (inA.isSome → inA' = inA) ∧
      ops.length = es.length ∧ Admits isLocal a c' ∧
      ∀ lc m, Placed lc.proto c'.fs c.fs.code.size → m.Runs lc → m.frame.pc = c.fs.code.size →
        Env σ isLocal c.fs m.frame →
        VM.Does m (Expr.evalAll call σ es) fun vs m' => m'.frame.pc = c'.fs.code.size ∧
          Kept (if inA.isSome then c.fs.usedRegs else a) m m' ∧ vs.length = es.length ∧
          (∀ v ∈ vs, v.isTable = false) ∧ ∀ k < es.length,
            Reads lc.proto m'.frame (ops.getD k 0) (vs.getD k .nil) ∧
            PowOperand a c.fs.usedRegs c'.fs.usedRegs inA' (i + k) (ops.getD k 0) := by
  induction es with
  | nil =>
    intro c c' i temps temps' inA inA' ops ht h
    obtain ⟨he, rfl⟩ := run_pure_ok h
    cases he
    exact ⟨.refl ht.settled, Nat.le_refl _, fun _ => rfl, rfl, ht,
      fun lc m _ _ hpc _ => .here ⟨hpc, .refl _ m, rfl, by simp, by simp⟩⟩
  | cons x xs ih =>
    intro c c' i temps temps' inA inA' ops ht h
    have hx := hes x List.mem_cons_self
    have hxs : PartsEval σ isLocal call xs := fun y hy => hes y (List.mem_cons_of_mem x hy)
    rw [List.map_cons] at h
    obtain ⟨o, c₁, h₁, h₂⟩ := run_bind_ok h
    obtain ⟨hs₁, hq, ht₁, hread⟩ := hx.classify ht h₁
    have hu₁ : c₁.fs.usedRegs = c.fs.usedRegs := hq.usedRegs
    have henv₁ {f : Frame} (henv : Env σ isLocal c.fs f) : Env σ isLocal c₁.fs f :=
      henv.keep (FuncState.slotOf_of_unmark hq.actives) fun _ _ => rfl
    split at h₂
    · -- a constant or a local, read in place
      rename_i k hk
      obtain ⟨⟨ops₁, inA₁, temps₁⟩, c₂, h₃, h₄⟩ := run_bind_ok h₂
      obtain ⟨he, rfl⟩ := run_pure_ok h₄
      cases he
      obtain ⟨hs₂, hle, hin, hlen, ht₂, hrun⟩ := ih hxs ht₁ h₃
      obtain ⟨hka, v, hv, hrd⟩ := hread k hk
      refine ⟨hs₁.trans hs₂, hq.usedRegs ▸ hle, hin, by simp [hlen], ht₂,
        fun lc m hpl hr hpc henv => ?_⟩
      have e : Expr.evalAll call σ (x :: xs) =
          Expr.evalAll call σ xs >>= fun vs => pure (v :: vs) := by
        rw [Expr.evalAll, hv]
        rfl
      rw [e]
      rw [← hq.code] at hpl hpc
      refine (hrun lc m hpl hr hpc (henv₁ henv)).bind fun vs m' _ hpost => ?_
      obtain ⟨hpc', hk', hlen', hplain, hops⟩ := hpost
      refine .here ⟨hpc', ?_, by simp [hlen'], ?_, ?_⟩
      · rwa [hq.usedRegs] at hk'
      · rintro w (_ | ⟨_, hw⟩)
        · exact hx.plain v hv
        · exact hplain w hw
      · intro j hj
        cases j with
        | zero =>
          have hka' : isConst k = true ∨ k < (if inA.isSome then c₁.fs.usedRegs else a) := by
            rcases hka with hka | hka
            · exact .inl hka
            · exact .inr (by have := ht.taken; have := hq.usedRegs; split <;> omega)
          refine ⟨hk'.reads (hrd _ _ (hs₂.settles.constants.trans hpl.constants) henv) hka', ?_⟩
          rcases hka with hka | hka
          · exact .inl hka
          · exact .inr (.inl hka)
        | succ j =>
          obtain ⟨hrd', hpo⟩ := hops j (by simpa using hj)
          rw [hq.usedRegs, Nat.add_right_comm] at hpo
          exact ⟨hrd', hpo⟩
    · split at h₂
      · -- the first part that needs a register goes into the target
        obtain ⟨u, c₂, h₃, h₄⟩ := run_bind_ok h₂
        obtain ⟨⟨ops₁, inA₁, temps₁⟩, c₃, h₅, h₆⟩ := run_bind_ok h₄
        obtain ⟨he, rfl⟩ := run_pure_ok h₆
        cases he
        obtain ⟨hs₂, hrun₂⟩ := hx.evaluates a c₁ c₂ ht₁ h₃
        have he₂ := hx.into a c₁ c₂ ht₁.taken h₃
        obtain ⟨hs₃, hle, hin, hlen, ht₃, hrun₃⟩ := ih hxs (ht₁.exprOk he₂ hs₂) h₅
        have hu₂ : c₂.fs.usedRegs = c.fs.usedRegs := he₂.usedRegs.trans hq.usedRegs
        refine ⟨hs₁.trans (hs₂.trans hs₃), by omega, by simp, by simp [hlen], ht₃,
          fun lc m hpl hr hpc henv => ?_⟩
        rw [← hq.code] at hpc
        refine (hrun₂ lc m (hpl.earlier hs₃.settles (by rw [hq.code])) hr hpc
          (henv₁ henv)).bind fun v m₁ hv hl => ?_
        have hk₁ : Kept a m m₁ := .of_lands hl
        refine (hrun₃ lc m₁ (hpl.earlier (.refl _) (by rw [← hq.code]; exact hs₂.settles.size))
          (hk₁.2.runs hr) hl.1
          (hk₁.env (henv₁ henv) ht₁.above (FuncState.slotOf_of_unmark he₂.toKeeps.actives))).bind
          fun vs m' _ hpost => ?_
        obtain ⟨hpc', hk', hlen', hplain, hops⟩ := hpost
        refine .here ⟨hpc', ?_, by simp [hlen'], ?_, ?_⟩
        · simp only [Option.isSome_some, if_true] at hk'
          exact hk₁.trans (hk'.mono (by rw [hu₂]; exact Nat.le_of_lt ht.taken))
        · rintro w (_ | ⟨_, hw⟩)
          · exact hx.plain v hv
          · exact hplain w hw
        · intro j hj
          cases j with
          | zero =>
            simp only [Option.isSome_some, if_true] at hk'
            simp only [List.getD_cons_zero, Nat.add_zero]
            have hreg : m'.frame.reg a = v := by
              rw [hk'.1 a (by rw [hu₂]; exact ht.taken), hl.2.1]
            exact ⟨hreg ▸ .reg (by have := ht.taken; have := ht.room; omega),
              .inr (.inr (.inl ⟨rfl, hin rfl⟩))⟩
          | succ j =>
            obtain ⟨hrd', hpo⟩ := hops j (by simpa using hj)
            rw [hu₂, Nat.add_right_comm] at hpo
            exact ⟨hrd', hpo⟩
      · -- the target is taken: a fresh temporary
        obtain ⟨r, c₂, h₃, h₄⟩ := run_bind_ok h₂
        obtain ⟨rfl, har, ht₂, hs₂⟩ := ht₁.alloc h₃
        obtain ⟨-, hu₂, hk₂, hcode₂⟩ := alloc_spec h₃
        obtain ⟨u, c₃, h₅, h₆⟩ := run_bind_ok h₄
        obtain ⟨hs₃, hrun₃⟩ := hx.evaluates _ c₂ c₃ ht₂ h₅
        have he₃ := hx.into _ c₂ c₃ ht₂.taken h₅
        obtain ⟨⟨ops₁, inA₁, temps₁⟩, c₄, h₇, h₈⟩ := run_bind_ok h₆
        obtain ⟨he, rfl⟩ := run_pure_ok h₈
        cases he
        have ht₃' := ht₂.exprOk he₃ hs₃
        have ht₃ : Admits isLocal a c₃ :=
          ⟨Nat.lt_trans har ht₃'.taken, fun q hq => ht₁.above q (by
            rwa [(hk₂.trans he₃.toKeeps).slots] at hq), ht₃'.room, ht₃'.settled, ht₃'.names⟩
        obtain ⟨hs₄, hle, hin, hlen, ht₄, hrun₄⟩ := ih hxs ht₃ h₇
        have hu₃ : c₃.fs.usedRegs = c.fs.usedRegs + 1 := by
          rw [he₃.usedRegs, hu₂, hq.usedRegs]
        refine ⟨hs₁.trans (hs₂.trans (hs₃.trans hs₄)), by omega, fun _ => by simpa using hin rfl,
          by simp [hlen], ht₄, fun lc m hpl hr hpc henv => ?_⟩
        have hcode : c₂.fs.code = c.fs.code := hcode₂.trans hq.code
        rw [← hcode] at hpc
        refine (hrun₃ lc m (hpl.earlier hs₄.settles (by rw [hcode])) hr hpc
          ((henv₁ henv).keep (FuncState.slotOf_of_unmark hk₂.actives) fun _ _ => rfl)).bind
          fun v m₁ hv hl => ?_
        have hk₁ : Kept c₁.fs.usedRegs m m₁ := .of_lands hl
        refine (hrun₄ lc m₁ (hpl.earlier (.refl _) (by rw [← hcode]; exact hs₃.settles.size))
          (hk₁.2.runs hr) hl.1
          (hk₁.env (henv₁ henv) (fun q hq => Nat.lt_trans (ht₁.above q hq) har)
            (FuncState.slotOf_of_unmark (hk₂.trans he₃.toKeeps).actives))).bind
          fun vs m' _ hpost => ?_
        obtain ⟨hpc', hk', hlen', hplain, hops⟩ := hpost
        refine .here ⟨hpc', ?_, by simp [hlen'], ?_, ?_⟩
        · simp only [Option.isSome_some, if_true] at hk' ⊢
          rw [← hq.usedRegs]
          exact hk₁.trans (hk'.mono (by omega))
        · rintro w (_ | ⟨_, hw⟩)
          · exact hx.plain v hv
          · exact hplain w hw
        · intro j hj
          cases j with
          | zero =>
            simp only [Option.isSome_some, if_true] at hk'
            simp only [List.getD_cons_zero, Nat.add_zero]
            have hreg : m'.frame.reg c₁.fs.usedRegs = v := by
              rw [hk'.1 _ (by omega), hl.2.1]
            exact ⟨hreg ▸ .reg (by have := ht₃'.room; omega), .inr (.inr (.inr ⟨by omega, by omega⟩))⟩
          | succ j =>
            obtain ⟨hrd', hpo⟩ := hops j (by simpa using hj)
            rw [Nat.add_right_comm] at hpo
            exact ⟨hrd', hpo.mono_lo (by omega)⟩

/-- A value of a list of values that are no tables, or the default nil, is no table. -/
theorem getD_plain {vs : List Value} (h : ∀ v ∈ vs, v.isTable = false) (k : Nat) :
    (vs.getD k .nil).isTable = false := by
  rw [List.getD_eq_getElem?_getD]
  cases hk : vs[k]? with
  | none => rfl
  | some v => exact h v (List.mem_of_getElem? hk)

/-- One step of a power fold, for the part `n`: `pow` of its operand and the result so far, into
the target, or into the scratch register (taken at `hi` on first use) while a part before `n`
still reads the target. The operands of the parts before `n` are not where it writes. -/
theorem powStep_does {operands : Array Nat} {inA : Option Nat} {a lo hi n acc dest : Nat}
    {u : Bool} {scratch scratch₁ : Option Nat} {c c₁ c₂ : Compiler}
    (hu : u = (decide (n > 0) && match inA with | some j => decide (j < n) | none => false))
    (ht : Admits isLocal a c) (hlo : a < lo) (hlh : lo ≤ hi)
    (hsc : ∀ s, scratch = some s → s = hi)
    (hused : c.fs.usedRegs = hi + (if scratch.isSome then 1 else 0))
    (h₁ : (powDest a line u scratch).run c = .ok ((dest, scratch₁), c₁))
    (h₂ : (emitABC .pow dest (operands.getD n 0) acc line).run c₁ = .ok ((), c₂)) :
    Sealed c c₂ ∧ Admits isLocal a c₂ ∧ (∀ s, scratch₁ = some s → s = hi) ∧
      c₂.fs.usedRegs = hi + (if scratch₁.isSome then 1 else 0) ∧
      c₂.fs.code.size = c.fs.code.size + 1 ∧ (n = 0 → dest = a) ∧
      a ≤ dest ∧ dest < 256 ∧
      (∀ k < n, PowOperand a lo hi inA k (operands.getD k 0) → operands.getD k 0 ≠ dest) ∧
      ∀ lc m, Placed lc.proto c₂.fs c.fs.code.size → m.Runs lc → m.frame.pc = c.fs.code.size →
        ∀ {x y : Value}, Reads lc.proto m.frame (operands.getD n 0) x →
          Reads lc.proto m.frame acc y → x.isTable = false → y.isTable = false →
          VM.Does m (VM.arith call .pow x y).outcome fun w m' => m' = m.write dest w := by
  -- where the step writes, and the compiler state after it
  have hdest : Sealed c c₁ ∧ Admits isLocal a c₁ ∧ (∀ s, scratch₁ = some s → s = hi) ∧
      c₁.fs.usedRegs = hi + (if scratch₁.isSome then 1 else 0) ∧ c₁.fs.code = c.fs.code ∧
      (u = false ∧ dest = a ∨ u = true ∧ dest = hi) := by
    unfold powDest at h₁
    cases u with
    | false =>
      simp only [Bool.false_eq_true, if_false] at h₁
      obtain ⟨he, rfl⟩ := run_pure_ok h₁
      cases he
      exact ⟨.refl ht.settled, ht, hsc, hused, rfl, .inl ⟨rfl, rfl⟩⟩
    | true =>
      simp only [if_true] at h₁
      cases scratch with
      | some s =>
        obtain ⟨he, rfl⟩ := run_pure_ok h₁
        cases he
        exact ⟨.refl ht.settled, ht, hsc, hused, rfl, .inr ⟨rfl, hsc _ rfl⟩⟩
      | none =>
        obtain ⟨s, c₀, h₃, h₄⟩ := run_bind_ok h₁
        obtain ⟨he, rfl⟩ := run_pure_ok h₄
        cases he
        obtain ⟨rfl, has, ht₀, hs₀⟩ := ht.alloc h₃
        obtain ⟨-, hu₀, hk₀, hcode₀⟩ := alloc_spec h₃
        simp only [Option.isSome_none, Bool.false_eq_true, if_false, Nat.add_zero] at hused
        refine ⟨hs₀, ht₀.lower (Nat.le_of_lt has) (fun q hq => ht.above q (hk₀.slots ▸ hq)),
          fun s e => by cases e; exact hused, by simp [hu₀, hused], hcode₀, .inr ⟨rfl, hused⟩⟩
  obtain ⟨hs₁, ht₁, hsc₁, hused₁, hcode₁, hwhere⟩ := hdest
  obtain ⟨hfit, rfl⟩ := emitABC_spec h₂
  have hd256 : dest < 256 := by simp only [maxA] at hfit; omega
  refine ⟨hs₁.emit', ht₁.emit', hsc₁, by simpa using hused₁, by simp [hcode₁], ?_, ?_, hd256, ?_, ?_⟩
  · rintro rfl
    rcases hwhere with ⟨-, h⟩ | ⟨hu', -⟩
    · exact h
    · simp [hu] at hu'
  · rcases hwhere with ⟨-, hda⟩ | ⟨-, hdh⟩
    · exact Nat.le_of_eq hda.symm
    · omega
  · intro k hk hpo e
    rcases hwhere with ⟨hu', hda⟩ | ⟨-, hdh⟩
    · -- the target is written only when no part before `n` reads it
      have ha : a < 256 := by have := ht.taken; have := ht.room; omega
      rw [e, hda] at hpo
      rcases hpo with h | h | ⟨-, hin⟩ | ⟨h, -⟩
      · simp [isConst, Nat.div_eq_of_lt ha] at h
      · exact Nat.lt_irrefl a h
      · subst hin
        simp [hu, show n > 0 by omega, hk] at hu'
      · omega
    · exact hpo.ne_of_le hlo hlh (Nat.le_refl hi) (hdh ▸ hd256) (e.trans hdh)
  · intro lc m hpl hr hpc x y hx hy hxp hyp
    have hi := hpl.last (.refl _) (by rw [hcode₁]) ht₁.settled
    rw [hcode₁, ← hpc] at hi
    have hd := VM.does_arith hr hi call (by rw [opcode_abc]; simp)
      (by rw [b_abc _ _ _ _ hfit.2.1]; exact hx.fetched)
      (by rw [c_abc _ _ _ _ hfit.2.2]; exact hy.fetched) hxp hyp
    rw [opcode_abc, a_abc _ _ _ _ hfit.1] at hd
    exact hd

/-- The fold of a power chain from part `n` down to part `0`, with the result so far `r` in
`acc`: from the first instruction of its code the machine reaches its end with the powers
from the right of the parts' values in the target, keeping the registers below it, or fails
as the first failing power does. -/
theorem powFold_does {operands : Array Nat} {inA : Option Nat} {a lo hi : Nat} (hlo : a < lo)
    (hlh : lo ≤ hi) :
    ∀ n {acc : Nat} {scratch scratch' : Option Nat} {c c' : Compiler},
      Admits isLocal a c → (∀ s, scratch = some s → s = hi) →
      c.fs.usedRegs = hi + (if scratch.isSome then 1 else 0) →
      (powFold operands inA a line (List.range (n + 1)).reverse acc scratch).run c =
        .ok (scratch', c') →
      Sealed c c' ∧ c'.fs.usedRegs = hi + (if scratch'.isSome then 1 else 0) ∧
      ∀ lc m (vs : List Value) (r : Value), Placed lc.proto c'.fs c.fs.code.size → m.Runs lc →
        m.frame.pc = c.fs.code.size → (∀ v ∈ vs, v.isTable = false) →
        (∀ k ≤ n, Reads lc.proto m.frame (operands.getD k 0) (vs.getD k .nil) ∧
          PowOperand a lo hi inA k (operands.getD k 0)) →
        Reads lc.proto m.frame acc r → r.isTable = false →
        VM.Does m (VM.powFrom call vs (n + 1) r) fun v m' =>
          m'.frame.pc = c'.fs.code.size ∧ m'.frame.reg a = v ∧ Kept a m m' := by
  intro n
  induction n with
  | zero =>
    intro acc scratch scratch' c c' ht hsc hused h
    obtain ⟨⟨dest, scratch₁⟩, c₁, h₁, h₂⟩ := run_bind_ok h
    obtain ⟨u, c₂, h₃, h₄⟩ := run_bind_ok h₂
    obtain ⟨rfl, rfl⟩ := run_pure_ok h₄
    obtain ⟨hs, -, -, hused', hsize, hdest, ha, -, -, hrun⟩ :=
      powStep_does (n := 0) rfl ht hlo hlh hsc hused h₁ h₃
    obtain rfl := hdest rfl
    refine ⟨hs, hused', fun lc m vs r hpl hr hpc hvs hops hacc hrp => ?_⟩
    simp only [VM.powFrom]
    refine (hrun lc m hpl hr hpc (hops 0 (Nat.le_refl 0)).1 hacc (getD_plain hvs 0) hrp).bind
      fun w m' _ e => .here ⟨?_, ?_, ?_⟩
    · subst e
      simp [hpc, hsize]
    · subst e
      simp
    · exact e ▸ .write ha
  | succ n ih =>
    intro acc scratch scratch' c c' ht hsc hused h
    rw [List.range_succ, List.reverse_append] at h
    obtain ⟨⟨dest, scratch₁⟩, c₁, h₁, h₂⟩ := run_bind_ok h
    obtain ⟨u, c₂, h₃, h₄⟩ := run_bind_ok h₂
    obtain ⟨hs₂, ht₂, hsc₂, hused₂, hsize, -, ha, hd256, hne, hrun⟩ :=
      powStep_does (n := n + 1) rfl ht hlo hlh hsc hused h₁ h₃
    obtain ⟨hs₃, hused₃, hrun₃⟩ := ih ht₂ hsc₂ hused₂ h₄
    refine ⟨hs₂.trans hs₃, hused₃, fun lc m vs r hpl hr hpc hvs hops hacc hrp => ?_⟩
    have hstep := hrun lc m (hpl.earlier hs₃.settles (Nat.le_refl _)) hr hpc
      (hops (n + 1) (Nat.le_refl _)).1 hacc (getD_plain hvs (n + 1)) hrp
    simp only [VM.powFrom]
    refine hstep.bind fun w m₁ hw e => ?_
    subst e
    -- the parts still to come read their operands, which the step did not write
    have hops₁ : ∀ k ≤ n, Reads lc.proto (m.write dest w).frame (operands.getD k 0) (vs.getD k .nil) ∧
        PowOperand a lo hi inA k (operands.getD k 0) := by
      intro k hk
      obtain ⟨hrd, hpo⟩ := hops k (by omega)
      refine ⟨hrd.keep fun _ => ?_, hpo⟩
      rw [Machine.write_reg, if_neg (hne k (by omega) hpo)]
    refine (hrun₃ lc (m.write dest w) vs w (hpl.earlier (.refl _) hs₂.settles.size)
      (Machine.Rest.write.runs hr) (by simp [hpc, hsize]) hvs hops₁ ?_
      ((VM.arith_plain (getD_plain hvs (n + 1)) hrp).value w hw)).mono
      fun v m' h => ⟨h.1, h.2.1, (Kept.write ha).trans h.2.2⟩
    have hw' : (m.write dest w).frame.reg dest = w := by simp
    have hrd := Reads.reg (p := lc.proto) (f := (m.write dest w).frame) hd256
    rwa [hw'] at hrd

/-- A chain's operand as the fold reads it, from the array of operands. -/
theorem getD_toArray (ops : List Nat) (k : Nat) : ops.toArray.getD k 0 = ops.getD k 0 := by
  simp [Array.getD_eq_getD_getElem?, List.getD_eq_getElem?_getD]

/-- A power chain into `a`: the operands of its parts from the left, then the fold from the
right, which ends in the target; the temporaries and the scratch register are given back. -/
theorem pow_evaluates {es : List Expr} (hes : PartsEval σ isLocal call es) (hlen : 2 ≤ es.length) :
    Evaluates σ isLocal
      (fun a => powWith (es.map fun x => (classify x, fun r => compileExpr x r 1)) a line)
      (Expr.evalAll call σ es >>= VM.powRight call) := by
  intro a c c' ht h
  obtain ⟨⟨ops, inA, temps⟩, c₁, h₁, h₂⟩ := run_bind_ok h
  obtain ⟨hs₁, hle, -, hlen₁, ht₁, hrun₁⟩ := powOperands_does hes ht h₁
  obtain ⟨scratch, c₂, h₃, h₄⟩ := run_bind_ok h₂
  -- the fold starts from the last part and steps down through the others
  have hn : ops.toArray.size - 1 = es.length - 2 + 1 := by simp [hlen₁]; omega
  rw [hn] at h₃
  obtain ⟨hs₂, -, hrun₂⟩ := powFold_does ht.taken hle (es.length - 2) ht₁ (by intro s e; cases e) (by simp) h₃
  obtain ⟨fs₃, hf, rfl⟩ := run_updateFs h₄
  obtain ⟨-, rfl⟩ := FuncState.freeRegs_ok hf
  have hs₃ : Sealed c₂ { c₂ with fs := { c₂.fs with
      usedRegs := c₂.fs.usedRegs - (temps + if scratch.isSome then 1 else 0) } } :=
    .of_eq rfl rfl rfl rfl hs₂.settled
  refine ⟨hs₁.trans (hs₂.trans hs₃), fun lc m hpl hr hpc henv => ?_⟩
  refine (hrun₁ lc m (hpl.earlier (hs₂.settles.trans hs₃.settles) (Nat.le_refl _)) hr hpc
    henv).bind fun vs m₁ _ hpost => ?_
  obtain ⟨hpc₁, hk₁, hlen', hplain, hops⟩ := hpost
  simp only [Option.isSome_none, Bool.false_eq_true, if_false] at hk₁
  have hne : vs ≠ [] := by
    rintro rfl
    simp at hlen'
    omega
  rw [VM.powRight_eq_powFrom call vs hne, show vs.length - 1 = es.length - 2 + 1 by omega]
  refine (hrun₂ lc m₁ vs _ (hpl.earlier hs₃.settles hs₁.settles.size) (hk₁.2.runs hr) hpc₁ hplain
    (fun k hk => ?_) ?_ (getD_plain hplain _)).mono
    fun v m' h => (hk₁.trans h.2.2).lands h.1 h.2.1
  · obtain ⟨hrd, hpo⟩ := hops k (by omega)
    rw [Nat.zero_add] at hpo
    rw [getD_toArray]
    exact ⟨hrd, hpo⟩
  · rw [getD_toArray]
    exact (hops _ (by omega)).1

end Compiler

end LuaBytecode
