import LuaBytecode.Proofs.Compiler.Shapes
/-!
# Expression shapes keep to their target

Each shape of `Compiler.Emit` that evaluates into a target `a` keeps to it (`ExprOk a`): it
gives back every register it takes, and each instruction it emits writes from `a` up and reads
below `a` only locals. What each shape is given for the parts of its node is assumed to do the
same (`Into`, `Classifies`); the recursive proof over the tree supplies that.

* `operandsWith_spec`, `compareWith_exprOk`, `logicalWith_exprOk`: binary operators, each
  operand read in place or evaluated into `a` or into a temporary above it;
* `concatWith_exprOk`, `powWith_exprOk`: chains, whose parts go to fresh registers;
* `callWith_exprOk`, `methodWith_spec`: calls, whose callee and arguments take the registers
  above `a`, which the call gives back;
* `entryWith_exprOk`, `indexWith_exprOk`, `compileName_exprOk`: table entries, indexing, names.

Temporaries are always taken above every register in use, so they lie above `a` and anything
that reads them reads above `a`.
-/

namespace LuaBytecode

namespace Compiler

open Instruction

variable {α : Type} {a line : Nat} {c c' : Compiler}

/-- A temporary taken, evaluated into and given back, before the rest `k` of a shape. -/
theorem temp_exprOk {compile : Nat → CompileM Unit} {k : Nat → CompileM α} {x : α}
    (hin : Into compile) (ha : a ≤ c.fs.usedRegs)
    (h : (do let r ← alloc line; compile r; free; k r).run c = .ok (x, c')) :
    ∃ c₁, ExprOk a c c₁ ∧ (k c.fs.usedRegs).run c₁ = .ok (x, c') := by
  obtain ⟨r, c₁, h₁, h₂⟩ := run_bind_ok h
  obtain ⟨rfl, hu₁, hk₁, hcode₁⟩ := alloc_spec h₁
  obtain ⟨u, c₂, h₃, h₄⟩ := run_bind_ok h₂
  have hc₂ := hin _ c₁ c₂ (by omega) h₃
  obtain ⟨u', c₃, h₅, h₆⟩ := run_bind_ok h₄
  obtain ⟨-, hu₃, hk₃, hcode₃⟩ := free_spec h₅
  have hu₂ := hc₂.usedRegs
  refine ⟨c₃, ⟨(Step.of_keeps hk₁ hcode₁).trans ((hc₂.toStep.mono ha).trans
    (Step.of_keeps hk₃ hcode₃)), by omega⟩, h₆⟩

/-- A fresh register taken and evaluated into, before the rest `k` of a shape: it stays taken. -/
theorem fresh_into {compile : Nat → CompileM Unit} {k : Nat → CompileM α} {x : α}
    (hin : Into compile) (h : (do let r ← alloc line; compile r; k r).run c = .ok (x, c')) :
    ∃ c₁, Step c.fs.usedRegs c c₁ ∧ c₁.fs.usedRegs = c.fs.usedRegs + 1 ∧
      (k c.fs.usedRegs).run c₁ = .ok (x, c') := by
  obtain ⟨r, c₁, h₁, h₂⟩ := run_bind_ok h
  obtain ⟨rfl, hu₁, hk₁, hcode₁⟩ := alloc_spec h₁
  obtain ⟨u, c₂, h₃, h₄⟩ := run_bind_ok h₂
  have hc₂ := hin _ c₁ c₂ (by omega) h₃
  exact ⟨c₂, (Step.of_keeps hk₁ hcode₁).trans hc₂.toStep, hc₂.usedRegs.trans hu₁, h₄⟩

/-- A string constant loaded into a register keeps to it. -/
theorem loadK_into (k : Constant) : Into fun r => updateFs (·.emitLoadK r k line) :=
  fun _ _ _ _ h => emitLoadK_exprOk h (Nat.le_refl _)

/-! ## Operands of binary instructions -/

theorem rkOrTemp_spec {op : CompileM Operand} {compile : Nat → CompileM Unit} {x t : Nat}
    (hop : Classifies op) (hin : Into compile) (ha : a ≤ c.fs.usedRegs)
    (h : (rkOrTemp op compile line).run c = .ok ((x, t), c')) :
    Step a c c' ∧ c'.fs.usedRegs = c.fs.usedRegs + t ∧ RKFits c.fs.slots a x := by
  obtain ⟨o, c₁, h₁, h₂⟩ := run_bind_ok h
  obtain ⟨hq, hfit⟩ := hop c c₁ o h₁
  split at h₂
  · rename_i rk hrk
    obtain ⟨he, rfl⟩ := run_pure_ok h₂
    cases he
    exact ⟨hq.step a, hq.usedRegs, .of_operand hfit hrk⟩
  · -- a temporary, taken above every register in use
    obtain ⟨tmp, c₂, h₃, h₄⟩ := run_bind_ok h₂
    obtain ⟨rfl, hu₂, hk₂, hc₂⟩ := alloc_spec h₃
    obtain ⟨u, c₃, h₅, h₆⟩ := run_bind_ok h₄
    obtain ⟨he, rfl⟩ := run_pure_ok h₆
    cases he
    have hq₁ := hq.usedRegs
    have hc₃ := hin _ c₂ c₃ (by omega) h₅
    refine ⟨(hq.step a).trans ((Step.of_keeps hk₂ hc₂).trans (hc₃.toStep.mono (by omega))),
      by rw [hc₃.usedRegs, hu₂, hq₁], .of_le (by omega)⟩

theorem rkOrTarget_spec {op : CompileM Operand} {compile : Nat → CompileM Unit} {x : Nat}
    {inA : Bool} (hop : Classifies op) (hin : Into compile) (ha : a < c.fs.usedRegs)
    (h : (rkOrTarget op compile a).run c = .ok ((x, inA), c')) :
    ExprOk a c c' ∧ RKFits c.fs.slots a x := by
  obtain ⟨o, c₁, h₁, h₂⟩ := run_bind_ok h
  obtain ⟨hq, hfit⟩ := hop c c₁ o h₁
  split at h₂
  · rename_i rk hrk
    obtain ⟨he, rfl⟩ := run_pure_ok h₂
    cases he
    exact ⟨hq.exprOk a, .of_operand hfit hrk⟩
  · obtain ⟨u, c₂, h₃, h₄⟩ := run_bind_ok h₂
    obtain ⟨he, rfl⟩ := run_pure_ok h₄
    cases he
    exact ⟨(hq.exprOk a).trans (hin a c₁ c₂ (hq.usedRegs ▸ ha) h₃), .of_le (Nat.le_refl _)⟩

theorem rkOrInto_spec {op : CompileM Operand} {compile : Nat → CompileM Unit} {x : Nat}
    {taken : Bool} (hop : Classifies op) (hin : Into compile) (ha : a < c.fs.usedRegs)
    (h : (rkOrInto op compile a line taken).run c = .ok (x, c')) :
    ExprOk a c c' ∧ RKFits c.fs.slots a x := by
  obtain ⟨o, c₁, h₁, h₂⟩ := run_bind_ok h
  obtain ⟨hq, hfit⟩ := hop c c₁ o h₁
  have ha₁ : a < c₁.fs.usedRegs := hq.usedRegs ▸ ha
  suffices hc : ExprOk a c₁ c' ∧ RKFits c₁.fs.slots a x from
    ⟨(hq.exprOk a).trans hc.1, hq.slots ▸ hc.2⟩
  split at h₂
  · rename_i rk hrk
    obtain ⟨he, rfl⟩ := run_pure_ok h₂
    cases he
    exact ⟨.refl _ _, .of_operand (hq.slots ▸ hfit) hrk⟩
  · split at h₂
    · -- `a` is taken: into a temporary
      obtain ⟨c₂, hc₂, h₃⟩ := temp_exprOk (a := a) hin (Nat.le_of_lt ha₁) h₂
      obtain ⟨he, rfl⟩ := run_pure_ok h₃
      cases he
      exact ⟨hc₂, .of_le (Nat.le_of_lt ha₁)⟩
    · obtain ⟨u, c₂, h₃, h₄⟩ := run_bind_ok h₂
      obtain ⟨he, rfl⟩ := run_pure_ok h₄
      cases he
      exact ⟨hin a c₁ c₂ ha₁ h₃, .of_le (Nat.le_refl _)⟩

/-- The two operands of a binary instruction into `a`: each read in place, or evaluated into
`a` or into a temporary above it. -/
theorem operandsWith_spec {lhsOp rhsOp : CompileM Operand}
    {compileLhs compileRhs : Nat → CompileM Unit} {b x : Nat} (hlop : Classifies lhsOp)
    (hl : Into compileLhs) (hrop : Classifies rhsOp) (hr : Into compileRhs)
    (ha : a < c.fs.usedRegs)
    (h : (operandsWith lhsOp compileLhs rhsOp compileRhs a line).run c = .ok ((b, x), c')) :
    ExprOk a c c' ∧ RKFits c.fs.slots a b ∧ RKFits c.fs.slots a x := by
  obtain ⟨⟨b', inA⟩, c₁, h₁, h₂⟩ := run_bind_ok h
  obtain ⟨hc₁, hb⟩ := rkOrTarget_spec hlop hl ha h₁
  obtain ⟨x', c₂, h₃, h₄⟩ := run_bind_ok h₂
  obtain ⟨hc₂, hx⟩ := rkOrInto_spec hrop hr (hc₁.usedRegs ▸ ha) h₃
  obtain ⟨he, rfl⟩ := run_pure_ok h₄
  cases he
  exact ⟨hc₁.trans hc₂, hb, hc₁.slots ▸ hx⟩

/-- A comparison's instruction is `eq`, `lt` or `le`, on the two operands in either order. -/
theorem compareOperands_spec {op : BinOp} {b x : Nat} {code : Opcode} {b' x' : Nat}
    (h : compareOperands op b x = (code, b', x')) :
    (code = .eq ∨ code = .lt ∨ code = .le) ∧ ((b' = b ∧ x' = x) ∨ (b' = x ∧ x' = b)) := by
  cases op <;> simp only [compareOperands, Prod.mk.injEq] at h <;> grind

/-- A comparison into `a`, as a condition or as a value, given operands that fit. -/
theorem compareWith_exprOk {op : BinOp} {operands : CompileM (Nat × Nat)} {cond : Bool}
    (hops : ∀ c₁ b x, operands.run c = .ok ((b, x), c₁) →
      ExprOk a c c₁ ∧ RKFits c.fs.slots a b ∧ RKFits c.fs.slots a x)
    (h : (compareWith op operands a cond line).run c = .ok ((), c')) : ExprOk a c c' := by
  obtain ⟨⟨b, x⟩, c₁, h₁, h₂⟩ := run_bind_ok h
  obtain ⟨hc₁, hb, hx⟩ := hops c₁ b x h₁
  rw [← hc₁.slots] at hb hx
  split at h₂
  rename_i b₀ x₀ hpair
  obtain ⟨rfl, rfl⟩ := Prod.mk.inj hpair
  -- the operands in the order the instruction takes them
  split at h₂
  rename_i code b' x' heq
  obtain ⟨hcode, hbx⟩ := compareOperands_spec heq
  have hb' : RKFits c₁.fs.slots a b' := by rcases hbx with ⟨rfl, -⟩ | ⟨rfl, -⟩ <;> assumption
  have hx' : RKFits c₁.fs.slots a x' := by rcases hbx with ⟨-, rfl⟩ | ⟨-, rfl⟩ <;> assumption
  -- the test itself, whichever sense it has
  have hcmp : ∀ n c₂, (emitABC code n b' x' line).run c₁ = .ok ((), c₂) → ExprOk a c₁ c₂ :=
    fun _ _ he => emitABC_exprOk he fun hfit =>
      abc_elim hfit fun i ho _ hib hic => .compare (ho ▸ hcode) (hib ▸ hb') (hic ▸ hx')
  refine hc₁.trans ?_
  split at h₂
  · -- as a condition: the test and a jump, to be patched, taken when it fails
    obtain ⟨u, c₂, h₃, h₄⟩ := run_bind_ok h₂
    obtain ⟨pc, c₃, h₅, h₆⟩ := run_bind_ok h₄
    obtain ⟨-, rfl⟩ := run_pure_ok h₆
    exact (hcmp _ _ h₃).trans (emitJump_jmp h₅).2.1
  · -- as a value: the test, a jump over one load, and the two loads of a boolean
    obtain ⟨u, c₂, h₃, h₄⟩ := run_bind_ok h₂
    obtain ⟨u, c₃, h₅, h₆⟩ := run_bind_ok h₄
    obtain ⟨u, c₄, h₇, h₈⟩ := run_bind_ok h₆
    exact (hcmp _ _ h₃).trans ((emitJmp_exprOk h₅).trans
      ((emitLoadBool_exprOk h₇ (Nat.le_refl _)).trans (emitLoadBool_exprOk h₈ (Nat.le_refl _))))

/-! ## `and` and `or` -/

theorem testInto_exprOk {lhsOp : CompileM Operand} {compileLhs : Nat → CompileM Unit} {x : Nat}
    (hop : Classifies lhsOp) (hin : Into compileLhs) (ha : a < c.fs.usedRegs)
    (h : (testInto lhsOp compileLhs a x line).run c = .ok ((), c')) : ExprOk a c c' := by
  obtain ⟨o, c₁, h₁, h₂⟩ := run_bind_ok h
  obtain ⟨hq, hfit⟩ := hop c c₁ o h₁
  refine (hq.exprOk a).trans ?_
  split at h₂
  · -- a local: tested in place and copied
    rename_i r
    have hr : r ∈ c₁.fs.slots := hq.slots ▸ hfit
    exact emitABC_exprOk h₂ fun hfit' =>
      abc_elim hfit' fun i ho hia hib _ => .testSet ho (Nat.le_of_eq hia.symm) (hib ▸ .of_mem hr)
  · obtain ⟨u, c₂, h₃, h₄⟩ := run_bind_ok h₂
    exact (hin a c₁ c₂ (hq.usedRegs ▸ ha) h₃).trans (emitTest_exprOk h₄ (.of_le (Nat.le_refl _)))

/-- `and` and `or` into `a`: the left operand tested into `a`, a jump over the right operand,
patched once the right operand is in `a`. -/
theorem logicalWith_exprOk {isOr : Bool} {lhsOp : CompileM Operand}
    {compileLhs compileRhs : Nat → CompileM Unit} (hop : Classifies lhsOp) (hl : Into compileLhs)
    (hr : Into compileRhs) (ha : a < c.fs.usedRegs)
    (h : (logicalWith isOr lhsOp compileLhs compileRhs a line).run c = .ok ((), c')) :
    ExprOk a c c' := by
  obtain ⟨u, c₁, h₁, h₂⟩ := run_bind_ok h
  have hc₁ := testInto_exprOk hop hl ha h₁
  obtain ⟨j, c₂, h₃, h₄⟩ := run_bind_ok h₂
  obtain ⟨rfl, hc₂, hj⟩ := emitJump_jmp (a := a) h₃
  obtain ⟨u, c₃, h₅, h₆⟩ := run_bind_ok h₄
  have hc₃ := hr a c₂ c₃ (by rw [hc₂.usedRegs, hc₁.usedRegs]; exact ha) h₅
  obtain ⟨pc, c₄, h₇, h₈⟩ := run_bind_ok h₆
  obtain ⟨-, rfl⟩ := pc_spec h₇
  exact hc₁.trans (patchJump_exprOk (hc₂.trans hc₃) (Nat.le_refl _) (hc₃.toEmits.jmp_at hj) h₈)

/-! ## Chains -/

/-- Parts evaluated into fresh registers take one register each, above those in use. -/
theorem intoFresh_spec {parts : List (Nat → CompileM Unit)} (hparts : ∀ p ∈ parts, Into p)
    (h : (intoFresh line parts).run c = .ok ((), c')) :
    Step c.fs.usedRegs c c' ∧ c'.fs.usedRegs = c.fs.usedRegs + parts.length := by
  induction parts generalizing c with
  | nil =>
    obtain ⟨-, rfl⟩ := run_pure_ok h
    exact ⟨.refl _ _, rfl⟩
  | cons part rest ih =>
    obtain ⟨tmp, c₁, h₁, h₂⟩ := run_bind_ok h
    obtain ⟨rfl, hu₁, hk₁, hcode₁⟩ := alloc_spec h₁
    obtain ⟨u, c₂, h₃, h₄⟩ := run_bind_ok h₂
    have hc₂ := hparts part (.head _) _ c₁ c₂ (by omega) h₃
    obtain ⟨hs, hu⟩ := ih (fun p hp => hparts p (.tail _ hp)) h₄
    have hu₂ := hc₂.usedRegs
    refine ⟨(Step.of_keeps hk₁ hcode₁).trans (hc₂.toStep.trans (hs.mono (by omega))), ?_⟩
    simp only [List.length_cons]
    omega

/-- A concatenation into the top register `a`: its parts into `a` and the registers above, then
one `concat`. -/
theorem concatWith_exprOk {parts : List (Nat → CompileM Unit)} (hparts : ∀ p ∈ parts, Into p)
    (h : (concatWith parts a line).run c = .ok ((), c')) : ExprOk a c c' := by
  obtain ⟨top, c₁, h₁, h₂⟩ := run_bind_ok h
  obtain ⟨rfl, rfl⟩ := run_readFs h₁
  obtain ⟨htop, h₂⟩ := run_guard h₂
  have ha : a + 1 = c.fs.usedRegs := by simpa [FuncState.isTop] using htop
  split at h₂
  · obtain ⟨-, rfl⟩ := run_pure_ok h₂
    exact .refl _ _
  · rename_i first rest _
    obtain ⟨u, c₂, h₃, h₄⟩ := run_bind_ok h₂
    have hc₂ := hparts first (.head _) a c c₂ (by omega) h₃
    obtain ⟨u, c₃, h₅, h₆⟩ := run_bind_ok h₄
    obtain ⟨hs₃, hu₃⟩ := intoFresh_spec (fun p hp => hparts p (.tail _ hp)) h₅
    obtain ⟨u, c₄, h₇, h₈⟩ := run_bind_ok h₆
    obtain ⟨-, hu₄, hk₄, hcode₄⟩ := freeN_spec h₇
    have hu₂ := hc₂.usedRegs
    have hc₄ : ExprOk a c₂ c₄ := ⟨(hs₃.mono (by omega)).trans (Step.of_keeps hk₄ hcode₄), by omega⟩
    exact hc₂.trans (hc₄.trans (emitABC_exprOk h₈ fun hfit =>
      abc_elim hfit fun i ho hia hib _ => .concat ho (Nat.le_of_eq hia.symm) (Nat.le_of_eq hib.symm)))

/-! ## Power chains -/

/-- The operands of a power chain: RK operands that fit, one for each part, with one register
taken above the top for each part evaluated into a temporary. -/
theorem powOperands_spec {parts : List (CompileM Operand × (Nat → CompileM Unit))}
    (hparts : ∀ p ∈ parts, Classifies p.1 ∧ Into p.2) :
    ∀ {c c' : Compiler} {i temps temps' : Nat} {inA inA' : Option Nat} {ops : List Nat},
      a < c.fs.usedRegs →
      (powOperands a line parts i inA temps).run c = .ok ((ops, inA', temps'), c') →
      Step a c c' ∧ c'.fs.usedRegs + temps = c.fs.usedRegs + temps' ∧
        ∀ x ∈ ops, RKFits c.fs.slots a x := by
  induction parts with
  | nil =>
    intro c c' i temps temps' inA inA' ops _ h
    obtain ⟨he, rfl⟩ := run_pure_ok h
    cases he
    exact ⟨.refl _ _, rfl, by simp⟩
  | cons part rest ih =>
    intro c c' i temps temps' inA inA' ops ha h
    obtain ⟨op, compile⟩ := part
    obtain ⟨hop, hin⟩ := hparts _ (.head _)
    have hrest : ∀ p ∈ rest, Classifies p.1 ∧ Into p.2 := fun p hp => hparts p (.tail _ hp)
    obtain ⟨o, c₁, h₁, h₂⟩ := run_bind_ok h
    obtain ⟨hq, hfit⟩ := hop c c₁ o h₁
    have ha₁ : a < c₁.fs.usedRegs := hq.usedRegs ▸ ha
    split at h₂
    · -- an RK operand
      rename_i rk hrk
      obtain ⟨⟨ops₁, inA₁, temps₁⟩, c₂, h₃, h₄⟩ := run_bind_ok h₂
      obtain ⟨he, rfl⟩ := run_pure_ok h₄
      cases he
      obtain ⟨hs, hu, hops⟩ := ih hrest ha₁ h₃
      refine ⟨(hq.step a).trans hs, by rw [hu, hq.usedRegs], ?_⟩
      rintro x (_ | ⟨_, hx⟩)
      · exact .of_operand hfit hrk
      · exact hq.slots ▸ hops x hx
    · split at h₂
      · -- the first part to need a register goes to `a`
        obtain ⟨u, c₂, h₃, h₄⟩ := run_bind_ok h₂
        have hc₂ := hin a c₁ c₂ ha₁ h₃
        obtain ⟨⟨ops₁, inA₁, temps₁⟩, c₃, h₅, h₆⟩ := run_bind_ok h₄
        obtain ⟨he, rfl⟩ := run_pure_ok h₆
        cases he
        obtain ⟨hs, hu, hops⟩ := ih hrest (hc₂.usedRegs ▸ ha₁) h₅
        refine ⟨(hq.step a).trans (hc₂.toStep.trans hs),
          by rw [hu, hc₂.usedRegs, hq.usedRegs], ?_⟩
        rintro x (_ | ⟨_, hx⟩)
        · exact .of_le (Nat.le_refl _)
        · rw [← hq.slots, ← hc₂.slots]
          exact hops x hx
      · -- later ones to temporaries
        obtain ⟨tmp, c₂, h₃, h₄⟩ := run_bind_ok h₂
        obtain ⟨rfl, hu₂, hk₂, hcode₂⟩ := alloc_spec h₃
        obtain ⟨u, c₃, h₅, h₆⟩ := run_bind_ok h₄
        have hc₃ := hin _ c₂ c₃ (by omega) h₅
        obtain ⟨⟨ops₁, inA₁, temps₁⟩, c₄, h₇, h₈⟩ := run_bind_ok h₆
        obtain ⟨he, rfl⟩ := run_pure_ok h₈
        cases he
        have hu₃ := hc₃.usedRegs
        obtain ⟨hs, hu, hops⟩ := ih hrest (by omega) h₇
        refine ⟨(hq.step a).trans ((Step.of_keeps hk₂ hcode₂).trans
          ((hc₃.toStep.mono (by omega)).trans hs)), by rw [← hq.usedRegs]; omega, ?_⟩
        rintro x (_ | ⟨_, hx⟩)
        · exact .of_le (by omega)
        · rw [← hq.slots, ← hk₂.slots, ← hc₃.slots]
          exact hops x hx

/-- The register a step of a power fold writes: `a`, or the scratch register, which lies above `a`
and is taken on first use. -/
theorem powDest_spec {useScratch : Bool} {scratch scratch' : Option Nat} {dest : Nat}
    (hs : ∀ s, scratch = some s → a ≤ s) (ha : a ≤ c.fs.usedRegs)
    (h : (powDest a line useScratch scratch).run c = .ok ((dest, scratch'), c')) :
    Step a c c' ∧ a ≤ dest ∧ (∀ s, scratch' = some s → a ≤ s) ∧ a ≤ c'.fs.usedRegs ∧
      c'.fs.usedRegs + (if scratch.isSome then 1 else 0) =
        c.fs.usedRegs + (if scratch'.isSome then 1 else 0) := by
  unfold powDest at h
  split at h
  · split at h
    · obtain ⟨he, rfl⟩ := run_pure_ok h
      cases he
      exact ⟨.refl _ _, hs _ rfl, hs, ha, rfl⟩
    · obtain ⟨s, c₁, h₁, h₂⟩ := run_bind_ok h
      obtain ⟨rfl, hu₁, hk₁, hcode₁⟩ := alloc_spec h₁
      obtain ⟨he, rfl⟩ := run_pure_ok h₂
      cases he
      refine ⟨Step.of_keeps hk₁ hcode₁, ha, fun s hs => ?_, by omega, by simp [hu₁]⟩
      cases hs
      exact ha
  · obtain ⟨he, rfl⟩ := run_pure_ok h
    cases he
    exact ⟨.refl _ _, Nat.le_refl _, hs, ha, rfl⟩

/-- The fold of a power chain from the right: each `pow` reads an operand that fits and the
result so far, and writes `a` or the scratch register. -/
theorem powFold_spec {operands : Array Nat} {inA : Option Nat} :
    ∀ {is : List Nat} {acc : Nat} {scratch scratch' : Option Nat} {c c' : Compiler},
      (∀ i ∈ is, RKFits c.fs.slots a (operands.getD i 0)) →
      (is ≠ [] → RKFits c.fs.slots a acc) → (∀ s, scratch = some s → a ≤ s) →
      a ≤ c.fs.usedRegs →
      (powFold operands inA a line is acc scratch).run c = .ok (scratch', c') →
      Step a c c' ∧ c'.fs.usedRegs + (if scratch.isSome then 1 else 0) =
        c.fs.usedRegs + (if scratch'.isSome then 1 else 0)
  | [], _, _, _, _, _, _, _, _, _, h => by
    obtain ⟨rfl, rfl⟩ := run_pure_ok h
    exact ⟨.refl _ _, rfl⟩
  | i :: rest, acc, scratch, scratch', c, c', hops, hacc, hs, ha, h => by
    obtain ⟨⟨dest, scratch₁⟩, c₁, h₁, h₂⟩ := run_bind_ok h
    obtain ⟨hs₁, hdest, hsc₁, ha₁, hu₁⟩ := powDest_spec hs ha h₁
    obtain ⟨u, c₂, h₃, h₄⟩ := run_bind_ok h₂
    have hsl : c₁.fs.slots = c.fs.slots := hs₁.slots
    have hc₂ : ExprOk a c₁ c₂ := emitABC_exprOk h₃ fun hfit => abc_elim hfit fun j ho hja hjb hjc =>
      .arith (by simp [ho]) (hja ▸ hdest) (hjb ▸ hsl ▸ hops i (.head _))
        (hjc ▸ hsl ▸ hacc (List.cons_ne_nil _ _))
    -- the result so far is now in `dest`, which the next step reads
    obtain ⟨hs₃, hu₃⟩ := powFold_spec (fun i' hi' => hc₂.slots ▸ hsl ▸ hops i' (.tail _ hi'))
      (fun _ => .of_le hdest) hsc₁ (by rw [hc₂.usedRegs]; exact ha₁) h₄
    exact ⟨hs₁.trans (hc₂.toStep.trans hs₃), by rw [hc₂.usedRegs] at hu₃; omega⟩

/-- A power chain into `a`: its operands, then the fold, then every temporary given back. -/
theorem powWith_exprOk {parts : List (CompileM Operand × (Nat → CompileM Unit))}
    (hparts : ∀ p ∈ parts, Classifies p.1 ∧ Into p.2) (ha : a < c.fs.usedRegs)
    (h : (powWith parts a line).run c = .ok ((), c')) : ExprOk a c c' := by
  obtain ⟨⟨ops, inA, temps⟩, c₁, h₁, h₂⟩ := run_bind_ok h
  obtain ⟨hs₁, hu₁, hops⟩ := powOperands_spec hparts ha h₁
  rw [← hs₁.slots] at hops
  -- every index the fold uses is that of an operand
  have hget : ∀ i, i < ops.length → RKFits c₁.fs.slots a (ops.toArray.getD i 0) := by
    intro i hi
    apply hops
    simp [Array.getD, hi]
  obtain ⟨scratch, c₂, h₃, h₄⟩ := run_bind_ok h₂
  obtain ⟨hs₂, hu₂⟩ := powFold_spec
    (fun i hi => hget i (by simp at hi; omega))
    (fun hne => hget _ (by
      simp only [ne_eq, List.reverse_eq_nil_iff, List.range_eq_nil] at hne
      simp only [List.size_toArray] at hne ⊢
      omega))
    (by simp) (by omega) h₃
  obtain ⟨-, hu₃, hk₃, hcode₃⟩ := freeN_spec h₄
  exact ⟨hs₁.trans (hs₂.trans (Step.of_keeps hk₃ hcode₃)), by simp at hu₂; omega⟩

/-! ## Calls -/

/-- A call into the top register `a`: the callee and its arguments take registers from `a` up,
which the call gives back. -/
theorem callWith_exprOk {callee : CompileM Nat} {args : CompileM Bool} {argCount : Nat} {n : Int}
    {tail : Bool}
    (hcallee : ∀ c c' own, a < c.fs.usedRegs → callee.run c = .ok (own, c') →
      Step a c c' ∧ c'.fs.usedRegs = c.fs.usedRegs + own)
    (hargs : ∀ c c' isOpen, args.run c = .ok (isOpen, c') →
      Step c.fs.usedRegs c c' ∧ c'.fs.usedRegs = c.fs.usedRegs + argCount)
    (h : (callWith callee args argCount a n tail line).run c = .ok ((), c')) : ExprOk a c c' := by
  obtain ⟨top, c₁, h₁, h₂⟩ := run_bind_ok h
  obtain ⟨rfl, rfl⟩ := run_readFs h₁
  obtain ⟨htop, h₂⟩ := run_guard h₂
  have ha : a + 1 = c.fs.usedRegs := by simpa [FuncState.isTop] using htop
  obtain ⟨own, c₂, h₃, h₄⟩ := run_bind_ok h₂
  obtain ⟨hs₂, hu₂⟩ := hcallee c c₂ own (by omega) h₃
  obtain ⟨isOpen, c₃, h₅, h₆⟩ := run_bind_ok h₄
  obtain ⟨hs₃, hu₃⟩ := hargs c₂ c₃ isOpen h₅
  obtain ⟨u, c₄, h₇, h₈⟩ := run_bind_ok h₆
  obtain ⟨-, hu₄, hk₄, hcode₄⟩ := freeN_spec h₇
  have hc₄ : ExprOk a c c₄ :=
    ⟨hs₂.trans ((hs₃.mono (by omega)).trans (Step.of_keeps hk₄ hcode₄)), by omega⟩
  refine hc₄.trans ?_
  cases tail
  · exact emitCall_exprOk h₈ (Nat.le_refl _)
  · exact emitTailCall_exprOk h₈ (Nat.le_refl _)

theorem regOrTarget_spec {op : CompileM Operand} {compile : Nat → CompileM Unit} {r : Nat}
    (hop : Classifies op) (hin : Into compile) (ha : a < c.fs.usedRegs)
    (h : (regOrTarget op compile a).run c = .ok (r, c')) :
    ExprOk a c c' ∧ Readable c.fs.slots a r := by
  obtain ⟨o, c₁, h₁, h₂⟩ := run_bind_ok h
  obtain ⟨hq, hfit⟩ := hop c c₁ o h₁
  split at h₂
  · obtain ⟨he, rfl⟩ := run_pure_ok h₂
    cases he
    exact ⟨hq.exprOk a, .of_mem hfit⟩
  · obtain ⟨u, c₂, h₃, h₄⟩ := run_bind_ok h₂
    obtain ⟨he, rfl⟩ := run_pure_ok h₄
    cases he
    exact ⟨(hq.exprOk a).trans (hin a c₁ c₂ (hq.usedRegs ▸ ha) h₃), .of_le (Nat.le_refl _)⟩

/-- The key of a named field: the constant itself, or a register above the top that it is
loaded into and that is given back after `emit`. -/
theorem withNameKey_exprOk {name : String} {emit : Nat → CompileM Unit}
    (hemit : ∀ k c₀ c₀', c₀.fs.slots = c.fs.slots → RKFits c.fs.slots a k →
      (emit k).run c₀ = .ok ((), c₀') → ExprOk a c₀ c₀')
    (ha : a ≤ c.fs.usedRegs) (h : (withNameKey name line emit).run c = .ok ((), c')) :
    ExprOk a c c' := by
  obtain ⟨idx, c₁, h₁, h₂⟩ := run_bind_ok h
  have hq := addConstant_quiet h₁
  refine (hq.exprOk a).trans ?_
  split at h₂
  · rename_i hidx
    refine hemit _ _ _ hq.slots (fun r hr => ?_) h₂
    rw [readsRK_const (by omega)] at hr
    cases hr
  · obtain ⟨k, c₂, h₃, h₄⟩ := run_bind_ok h₂
    obtain ⟨rfl, hu₂, hk₂, hcode₂⟩ := alloc_spec h₃
    obtain ⟨u, c₃, h₅, h₆⟩ := run_bind_ok h₄
    have hu₁ := hq.usedRegs
    have hc₃ := emitLoadK_exprOk (a := a) h₅ (by omega)
    obtain ⟨u, c₄, h₇, h₈⟩ := run_bind_ok h₆
    have hc₄ := hemit _ c₃ c₄ (by rw [hc₃.slots, hk₂.slots, hq.slots]) (.of_le (by omega)) h₇
    obtain ⟨-, hu₅, hk₅, hcode₅⟩ := free_spec h₈
    have hu₃ := hc₃.usedRegs
    have hu₄ := hc₄.usedRegs
    exact ⟨(Step.of_keeps hk₂ hcode₂).trans (hc₃.toStep.trans (hc₄.toStep.trans
      (Step.of_keeps hk₅ hcode₅))), by omega⟩

/-- The callee of a method call: the method into `a` and the object into `a + 1`, which it takes. -/
theorem methodWith_spec {objOp : CompileM Operand} {compileObj : Nat → CompileM Unit}
    {name : String} {own : Nat} (hop : Classifies objOp) (hin : Into compileObj)
    (ha : a < c.fs.usedRegs) (h : (methodWith objOp compileObj name a line).run c = .ok (own, c')) :
    Step a c c' ∧ c'.fs.usedRegs = c.fs.usedRegs + own := by
  obtain ⟨objReg, c₁, h₁, h₂⟩ := run_bind_ok h
  obtain ⟨hc₁, hobj⟩ := regOrTarget_spec hop hin ha h₁
  obtain ⟨selfReg, c₂, h₃, h₄⟩ := run_bind_ok h₂
  obtain ⟨rfl, hu₂, hk₂, hcode₂⟩ := alloc_spec h₃
  obtain ⟨u, c₃, h₅, h₆⟩ := run_bind_ok h₄
  have hsl : c₂.fs.slots = c.fs.slots := by rw [hk₂.slots, hc₁.slots]
  have hu₁ := hc₁.usedRegs
  have hc₃ : ExprOk a c₂ c₃ := withNameKey_exprOk (fun k c₀ c₀' hs₀ hk he =>
    emitABC_exprOk he fun hfit => abc_elim hfit fun i ho hia hib hic =>
      .method ho (Nat.le_of_eq hia.symm) (hib ▸ hs₀ ▸ hsl ▸ hobj) (hic ▸ hs₀ ▸ hk)) (by omega) h₅
  obtain ⟨-, h₇⟩ := run_guard h₆
  obtain ⟨he, rfl⟩ := run_pure_ok h₇
  cases he
  have hu₃ := hc₃.usedRegs
  exact ⟨hc₁.toStep.trans ((Step.of_keeps hk₂ hcode₂).trans hc₃.toStep), by omega⟩

/-! ## Tables and names -/

/-- One keyed entry of a constructor for the table in `a`: `settable` with key and value as RK
operands or temporaries, given back before it. -/
theorem entryWith_exprOk {keyOp valOp : CompileM Operand} {compileKey compileVal : Nat → CompileM Unit}
    (hkop : Classifies keyOp) (hk : Into compileKey) (hvop : Classifies valOp)
    (hv : Into compileVal) (ha : a < c.fs.usedRegs)
    (h : (entryWith keyOp compileKey valOp compileVal a line).run c = .ok ((), c')) :
    ExprOk a c c' := by
  obtain ⟨⟨b, t₁⟩, c₁, h₁, h₂⟩ := run_bind_ok h
  obtain ⟨hs₁, hu₁, hb⟩ := rkOrTemp_spec hkop hk (Nat.le_of_lt ha) h₁
  obtain ⟨⟨x, t₂⟩, c₂, h₃, h₄⟩ := run_bind_ok h₂
  obtain ⟨hs₂, hu₂, hx⟩ := rkOrTemp_spec (a := a) hvop hv (by omega) h₃
  obtain ⟨u, c₃, h₅, h₆⟩ := run_bind_ok h₄
  obtain ⟨-, hu₃, hk₃, hcode₃⟩ := freeN_spec h₅
  have hc₃ : ExprOk a c c₃ := ⟨hs₁.trans (hs₂.trans (Step.of_keeps hk₃ hcode₃)), by omega⟩
  rw [hs₁.slots] at hx
  refine hc₃.trans (emitABC_exprOk h₆ fun hfit => ?_)
  rw [hc₃.slots]
  exact abc_elim hfit fun i ho hia hib hic =>
    .setTable ho (.of_le (Nat.le_of_eq hia.symm)) (hib ▸ hb) (hic ▸ hx)

/-- Where the table of an index is read: in place from an upvalue, or from a register that is a
local's or `a`. -/
theorem tableIn_spec {t : Operand} {compileTable : Nat → CompileM Unit} {tab : Nat} {inA : Bool}
    (ht : t.Fits c.fs.slots) (hin : Into compileTable) (ha : a < c.fs.usedRegs)
    (h : (tableIn t compileTable a).run c = .ok ((tab, inA), c')) :
    ExprOk a c c' ∧ (t = .upval tab ∨ Readable c.fs.slots a tab) := by
  unfold tableIn at h
  split at h
  · obtain ⟨he, rfl⟩ := run_pure_ok h
    cases he
    exact ⟨.refl _ _, .inr (.of_mem ht)⟩
  · obtain ⟨he, rfl⟩ := run_pure_ok h
    cases he
    exact ⟨.refl _ _, .inl rfl⟩
  · obtain ⟨u, c₁, h₁, h₂⟩ := run_bind_ok h
    obtain ⟨he, rfl⟩ := run_pure_ok h₂
    cases he
    exact ⟨hin a c c₁ ha h₁, .inr (.of_le (Nat.le_refl _))⟩

/-- An index into `a`: `gettabup` on an upvalue's table, `gettable` on a register's. -/
theorem indexWith_exprOk {tableOp keyOp : CompileM Operand}
    {compileTable compileKey : Nat → CompileM Unit} (htop : Classifies tableOp)
    (hint : Into compileTable) (hkop : Classifies keyOp) (hink : Into compileKey)
    (ha : a < c.fs.usedRegs)
    (h : (indexWith tableOp compileTable keyOp compileKey a line).run c = .ok ((), c')) :
    ExprOk a c c' := by
  obtain ⟨t, c₁, h₁, h₂⟩ := run_bind_ok h
  obtain ⟨hq, ht⟩ := htop c c₁ t h₁
  have ha₁ : a < c₁.fs.usedRegs := hq.usedRegs ▸ ha
  obtain ⟨⟨tab, inA⟩, c₂, h₃, h₄⟩ := run_bind_ok h₂
  obtain ⟨hc₂, htab⟩ := tableIn_spec (hq.slots ▸ ht) hint ha₁ h₃
  obtain ⟨rk, c₃, h₅, h₆⟩ := run_bind_ok h₄
  obtain ⟨hc₃, hrk⟩ := rkOrInto_spec hkop hink (hc₂.usedRegs ▸ ha₁) h₅
  refine (hq.exprOk a).trans (hc₂.trans (hc₃.trans (emitABC_exprOk h₆ fun hfit => ?_)))
  rw [hc₃.slots]
  rw [← hc₂.slots] at htab
  split
  · exact abc_elim hfit fun i ho hia _ hic => .getTabUp ho (Nat.le_of_eq hia.symm) (hic ▸ hrk)
  · rename_i hnu
    have hread : Readable c₂.fs.slots a tab := htab.resolve_left fun hu => hnu tab hu
    exact abc_elim hfit fun i ho hia hib hic =>
      .getTable ho (Nat.le_of_eq hia.symm) (hib ▸ hread) (hic ▸ hrk)

/-- A local is read in place and an upvalue by `getupval`; the rest is left to `k`. -/
theorem compileEnv_into : Into fun r => compileEnv r line := by
  intro r c c' hr h
  obtain ⟨c₀, c₁, h₁, h₂⟩ := run_bind_ok h
  obtain ⟨rfl, rfl⟩ := run_get_ok h₁
  split at h₂
  · rename_i slot hslot
    exact emitMove_exprOk h₂ (Nat.le_refl _) (.of_mem (FuncState.slotOf_mem hslot))
  · obtain ⟨idx, c₂, h₃, h₄⟩ := run_bind_ok h₂
    have hq := resolveUpvalue_quiet h₃
    refine (hq.exprOk r).trans ?_
    split at h₄
    · exact emitABC_exprOk h₄ fun hfit => abc_elim hfit fun i ho hia _ _ =>
        .load (.inr (.inr (.inr (.inl ho)))) (Nat.le_of_eq hia.symm)
    · exact absurd h₄ run_throw_ne

/-- A name into `a`: a local moved, an upvalue read, a global read from `_ENV`. -/
theorem compileName_exprOk {name : String} (ha : a < c.fs.usedRegs)
    (h : (compileName name a line).run c = .ok ((), c')) : ExprOk a c c' := by
  obtain ⟨c₀, c₁, h₁, h₂⟩ := run_bind_ok h
  obtain ⟨rfl, rfl⟩ := run_get_ok h₁
  split at h₂
  · rename_i slot hslot
    exact emitMove_exprOk h₂ (Nat.le_refl _) (.of_mem (FuncState.slotOf_mem hslot))
  · obtain ⟨idx, c₂, h₃, h₄⟩ := run_bind_ok h₂
    have hq := resolveUpvalue_quiet h₃
    refine (hq.exprOk a).trans ?_
    split at h₄
    · exact emitABC_exprOk h₄ fun hfit => abc_elim hfit fun i ho hia _ _ =>
        .load (.inr (.inr (.inr (.inl ho)))) (Nat.le_of_eq hia.symm)
    · split at h₄
      · exact absurd h₄ run_throw_ne
      · -- a global: `_ENV[name]`
        exact indexWith_exprOk (classifyName_classifies _ _) compileEnv_into
          (constOperand_classifies _) (loadK_into _) (hq.usedRegs ▸ ha) h₄

end Compiler

end LuaBytecode
