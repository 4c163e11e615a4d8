import LuaBytecode.Proofs.Compiler.WellBuilt
/-!
# Expression shapes keep the code well built

Each shape of `Compiler.Emit` that evaluates into a target register keeps the stack of
functions `WellBuilt`: run from code that asks nothing, it ends in code that asks what its
last instruction asks, and it `Extends` the state it started from. What each shape is given for
the parts of its node is assumed to do the same (`IntoBuilt`, `ClassifiesRK`); the recursion over
the tree supplies that.

Two facts carry the operands:

* an RK operand names a register below 256 or a constant of the pool: registers taken by
  `alloc` are below 255, targets are below 256 by hypothesis, and constants come from
  `constOperand`, which only yields indices that fit;
* an instruction that waits for another (a test for its `jmp`, a `loadbool` that skips) is
  followed by the one it waits for, inside the same shape.

* `operandsWith_built`, `compareWith_built`, `logicalWith_built`: binary operators;
* `concatWith_built`, `powWith_built`: chains;
* `callWith_built`, `methodWith_built`: calls, which take their arguments up to top when the
  last one is left open;
* `entryWith_built`, `indexWith_built`, `compileName_built`: table entries, indexing, names.
-/

namespace LuaBytecode

namespace Compiler

open Instruction

/-- Compiling into any register below 256, from a well-built state that asks nothing, ends well
built, asking `d`. -/
def IntoBuilt (compile : Nat → CompileM Unit) (d : Demand) : Prop :=
  ∀ a c c', a < 256 → WellBuilt .free c → (compile a).run c = .ok ((), c') → Built d c c'

variable {α : Type} {a line : Nat} {c c' : Compiler}

/-- A temporary taken, evaluated into and given back, before the rest `k` of a shape. -/
theorem temp_built {compile : Nat → CompileM Unit} {k : Nat → CompileM α} {x : α}
    (hin : IntoBuilt compile .free) (hw : WellBuilt .free c)
    (h : (do let r ← alloc line; compile r; free; k r).run c = .ok (x, c')) :
    ∃ r c₁, r < 255 ∧ Built .free c c₁ ∧ (k r).run c₁ = .ok (x, c') := by
  obtain ⟨r, c₁, h₁, h₂⟩ := run_bind_ok h
  obtain ⟨hb₁, hr⟩ := alloc_built hw h₁
  obtain ⟨u, c₂, h₃, h₄⟩ := run_bind_ok h₂
  have hb₂ := hin r c₁ c₂ (by omega) hb₁.wb h₃
  obtain ⟨u', c₃, h₅, h₆⟩ := run_bind_ok h₄
  have hb₃ := free_built hb₂.wb h₅
  exact ⟨r, c₃, hr, hb₁.trans (hb₂.trans hb₃), h₆⟩

/-- A constant loaded into a register. -/
theorem loadK_built (k : Constant) : IntoBuilt (fun r => updateFs (·.emitLoadK r k line)) .free :=
  fun _ _ _ _ hw h => emitLoadK_built hw h

/-! ## Operands of binary instructions -/

variable {op : CompileM Operand} {compile : Nat → CompileM Unit}

theorem rkOrTemp_built {x t : Nat} (hop : ClassifiesRK op) (hin : IntoBuilt compile .free)
    (hw : WellBuilt .free c) (h : (rkOrTemp op compile line).run c = .ok ((x, t), c')) :
    Built .free c c' ∧ c'.RK x := by
  obtain ⟨o, c₁, h₁, h₂⟩ := run_bind_ok h
  obtain ⟨hb₁, hrk⟩ := hop _ _ _ _ hw h₁
  split at h₂
  · rename_i rk hrk'
    obtain ⟨he, rfl⟩ := run_pure_ok h₂
    cases he
    exact ⟨hb₁, hrk _ hrk'⟩
  · -- a temporary, below 255
    obtain ⟨tmp, c₂, h₃, h₄⟩ := run_bind_ok h₂
    obtain ⟨hb₂, htmp⟩ := alloc_built hb₁.wb h₃
    obtain ⟨u, c₃, h₅, h₆⟩ := run_bind_ok h₄
    obtain ⟨he, rfl⟩ := run_pure_ok h₆
    cases he
    exact ⟨hb₁.trans (hb₂.trans (hin _ _ _ (by omega) hb₂.wb h₅)), .of_lt (by omega)⟩

theorem rkOrTarget_built {x : Nat} {inA : Bool} (hop : ClassifiesRK op)
    (hin : IntoBuilt compile .free) (ha : a < 256) (hw : WellBuilt .free c)
    (h : (rkOrTarget op compile a).run c = .ok ((x, inA), c')) : Built .free c c' ∧ c'.RK x := by
  obtain ⟨o, c₁, h₁, h₂⟩ := run_bind_ok h
  obtain ⟨hb₁, hrk⟩ := hop _ _ _ _ hw h₁
  split at h₂
  · rename_i rk hrk'
    obtain ⟨he, rfl⟩ := run_pure_ok h₂
    cases he
    exact ⟨hb₁, hrk _ hrk'⟩
  · obtain ⟨u, c₂, h₃, h₄⟩ := run_bind_ok h₂
    obtain ⟨he, rfl⟩ := run_pure_ok h₄
    cases he
    exact ⟨hb₁.trans (hin a _ _ ha hb₁.wb h₃), .of_lt ha⟩

theorem rkOrInto_built {x : Nat} {taken : Bool} (hop : ClassifiesRK op)
    (hin : IntoBuilt compile .free) (ha : a < 256) (hw : WellBuilt .free c)
    (h : (rkOrInto op compile a line taken).run c = .ok (x, c')) : Built .free c c' ∧ c'.RK x := by
  obtain ⟨o, c₁, h₁, h₂⟩ := run_bind_ok h
  obtain ⟨hb₁, hrk⟩ := hop _ _ _ _ hw h₁
  split at h₂
  · rename_i rk hrk'
    obtain ⟨rfl, rfl⟩ := run_pure_ok h₂
    exact ⟨hb₁, hrk _ hrk'⟩
  · split at h₂
    · -- `a` is taken: into a temporary
      obtain ⟨r, c₂, hr, hb₂, h₃⟩ := temp_built hin hb₁.wb h₂
      obtain ⟨rfl, rfl⟩ := run_pure_ok h₃
      exact ⟨hb₁.trans hb₂, .of_lt (by omega)⟩
    · obtain ⟨u, c₂, h₃, h₄⟩ := run_bind_ok h₂
      obtain ⟨rfl, rfl⟩ := run_pure_ok h₄
      exact ⟨hb₁.trans (hin _ _ _ ha hb₁.wb h₃), .of_lt ha⟩

/-- The two operands of a binary instruction into `a`: each read in place, or evaluated into
`a` or into a temporary. -/
theorem operandsWith_built {lhsOp rhsOp : CompileM Operand}
    {compileLhs compileRhs : Nat → CompileM Unit} {b x : Nat} (hlop : ClassifiesRK lhsOp)
    (hl : IntoBuilt compileLhs .free) (hrop : ClassifiesRK rhsOp) (hr : IntoBuilt compileRhs .free)
    (ha : a < 256) (hw : WellBuilt .free c)
    (h : (operandsWith lhsOp compileLhs rhsOp compileRhs a line).run c = .ok ((b, x), c')) :
    Built .free c c' ∧ c'.RK b ∧ c'.RK x := by
  obtain ⟨⟨b', inA⟩, c₁, h₁, h₂⟩ := run_bind_ok h
  obtain ⟨hb₁, hb⟩ := rkOrTarget_built hlop hl ha hw h₁
  obtain ⟨x', c₂, h₃, h₄⟩ := run_bind_ok h₂
  obtain ⟨hb₂, hx⟩ := rkOrInto_built hrop hr ha hb₁.wb h₃
  obtain ⟨he, rfl⟩ := run_pure_ok h₄
  cases he
  exact ⟨hb₁.trans hb₂, hb.mono hb₂.ext, hx⟩

/-! ## Comparisons and `and`, `or` -/

/-- A `jmp` by one after a test: it skips the instruction after it. -/
theorem emitSkip_built (hw : WellBuilt .jump c)
    (h : (updateFs (·.emitAsBx .jmp 0 1 line)).run c = .ok ((), c')) : Built .skip c c' :=
  updateFs_built hw (fun fs' he => by
    obtain ⟨hok, hd, hg, -, -⟩ := hw.fs.code.emitAsBx (show Opcode.jmp.isJump = true from rfl)
      (.inr rfl) (by rw [hw.fs.demand]; exact ⟨by decide, by decide, fun _ => rfl⟩) he
    obtain ⟨-, bx, rfl⟩ := FuncState.emitAsBx_ok he
    exact ⟨hok, hd, hg, rfl⟩) h

/-- The test of a comparison meets `free`, names its operands as RK operands, and asks for the
`jmp` after it. -/
theorem emitCompare_built {code : Opcode} {n b x : Nat}
    (hcode : code = .eq ∨ code = .lt ∨ code = .le) (hw : WellBuilt .free c) (hb : c.RK b)
    (hx : c.RK x) (h : (emitABC code n b x line).run c = .ok ((), c')) : Built .jump c c' := by
  have hl : code.layout = .abc := by rcases hcode with rfl | rfl | rfl <;> rfl
  refine emitABC_built code hw hl (fun hb' _ => ?_) (fun hb' hx' => ?_) (fun _ => hb) (fun _ => hx) h
  · rcases hcode with rfl | rfl | rfl <;> simp [Demand.admits, readsTop_abc hb']
  · rw [demand_abc hb' hx']
    rcases hcode with rfl | rfl | rfl <;> rfl

/-- A comparison into `a`: as a condition it ends with its jump, still to be patched; as a value
it loads `true` or `false`. -/
theorem compareWith_built {bop : BinOp} {operands : CompileM (Nat × Nat)} {cond : Bool}
    (hops : ∀ c c' b x, WellBuilt .free c → operands.run c = .ok ((b, x), c') →
      Built .free c c' ∧ c'.RK b ∧ c'.RK x)
    (hw : WellBuilt .free c) (h : (compareWith bop operands a cond line).run c = .ok ((), c')) :
    Built .free c c' ∧ (cond = true → c'.fs.JumpAt (c'.fs.code.size - 1)) := by
  obtain ⟨⟨b, x⟩, c₁, h₁, h₂⟩ := run_bind_ok h
  obtain ⟨hb₁, hb, hx⟩ := hops _ _ _ _ hw h₁
  split at h₂
  rename_i b₀ x₀ hpair
  obtain ⟨rfl, rfl⟩ := Prod.mk.inj hpair
  -- the operands in the order the instruction takes them
  split at h₂
  rename_i code b' x' heq
  obtain ⟨hcode, hbx⟩ := compareOperands_spec heq
  have hb' : c₁.RK b' := by rcases hbx with ⟨rfl, -⟩ | ⟨rfl, -⟩ <;> assumption
  have hx' : c₁.RK x' := by rcases hbx with ⟨-, rfl⟩ | ⟨-, rfl⟩ <;> assumption
  dsimp only at h₂
  split at h₂
  · -- as a condition: a jump, to be patched, taken when the test fails
    obtain ⟨u, c₂, h₃, h₄⟩ := run_bind_ok h₂
    have hb₂ := emitCompare_built hcode hb₁.wb hb' hx' h₃
    obtain ⟨j, c₃, h₅, h₆⟩ := run_bind_ok h₄
    obtain ⟨-, rfl⟩ := run_pure_ok h₆
    obtain ⟨hb₃, -, hj, hsize⟩ := emitJump_built hb₂.wb (show Opcode.jmp.isJump = true from rfl)
      ⟨by decide, by decide, fun _ => rfl⟩ h₅
    refine ⟨hb₁.trans (hb₂.trans hb₃), fun _ => ?_⟩
    rw [hsize, Nat.add_sub_cancel]
    exact hj
  · -- as a value: a jump over one load, and the loads of `false` and `true`
    obtain ⟨u, c₂, h₃, h₄⟩ := run_bind_ok h₂
    have hb₂ := emitCompare_built hcode hb₁.wb hb' hx' h₃
    obtain ⟨u, c₃, h₅, h₆⟩ := run_bind_ok h₄
    have hb₃ := emitSkip_built hb₂.wb h₅
    obtain ⟨u, c₄, h₇, h₈⟩ := run_bind_ok h₆
    have hb₄ := emitLoadBool_built hb₃.wb (.inr rfl) h₇
    have hb₅ := emitLoadBool_built hb₄.wb (.inr rfl) h₈
    exact ⟨hb₁.trans (hb₂.trans (hb₃.trans (hb₄.trans hb₅))), fun e => absurd e ‹_›⟩

theorem testInto_built {lhsOp : CompileM Operand} {compileLhs : Nat → CompileM Unit} {x : Nat}
    (hop : ClassifiesRK lhsOp) (hin : IntoBuilt compileLhs .free) (ha : a < 256)
    (hw : WellBuilt .free c) (h : (testInto lhsOp compileLhs a x line).run c = .ok ((), c')) :
    Built .jump c c' := by
  obtain ⟨o, c₁, h₁, h₂⟩ := run_bind_ok h
  obtain ⟨hb₁, -⟩ := hop _ _ _ _ hw h₁
  refine hb₁.trans ?_
  split at h₂
  · -- a local: tested in place and copied
    exact emitABC_built .testSet hb₁.wb rfl (fun hb _ => by simp [Demand.admits, readsTop_abc hb])
      (fun hb hx => by rw [demand_abc hb hx]) (fun e => absurd e (by decide))
      (fun e => absurd e (by decide)) h₂
  · obtain ⟨u, c₂, h₃, h₄⟩ := run_bind_ok h₂
    have hb₂ := hin a _ _ ha hb₁.wb h₃
    exact hb₂.trans (emitTest_built hb₂.wb h₄)

/-- `and` and `or` into `a`: the test, its jump over the right operand, patched after it. -/
theorem logicalWith_built {isOr : Bool} {lhsOp : CompileM Operand}
    {compileLhs compileRhs : Nat → CompileM Unit} (hop : ClassifiesRK lhsOp)
    (hl : IntoBuilt compileLhs .free) (hr : IntoBuilt compileRhs .free) :
    IntoBuilt (logicalWith isOr lhsOp compileLhs compileRhs · line) .free := by
  intro a c c' ha hw h
  obtain ⟨u, c₁, h₁, h₂⟩ := run_bind_ok h
  have hb₁ := testInto_built hop hl ha hw h₁
  obtain ⟨j, c₂, h₃, h₄⟩ := run_bind_ok h₂
  obtain ⟨hb₂, -, hj, -⟩ := emitJump_built hb₁.wb (show Opcode.jmp.isJump = true from rfl)
    ⟨by decide, by decide, fun _ => rfl⟩ h₃
  obtain ⟨u, c₃, h₄', h₅⟩ := run_bind_ok h₄
  have hb₃ := hr a _ _ ha hb₂.wb h₄'
  exact hb₁.trans (hb₂.trans (hb₃.trans (patchHere_built hb₃.wb (hb₃.ext.jumpAt hj) h₅)))

/-! ## Chains -/

theorem intoFresh_built {parts : List (Nat → CompileM Unit)} (hparts : ∀ p ∈ parts, IntoBuilt p .free)
    (hw : WellBuilt .free c) (h : (intoFresh line parts).run c = .ok ((), c')) : Built .free c c' := by
  induction parts generalizing c with
  | nil =>
    obtain ⟨-, rfl⟩ := run_pure_ok h
    exact .refl hw
  | cons part rest ih =>
    obtain ⟨tmp, c₁, h₁, h₂⟩ := run_bind_ok h
    obtain ⟨hb₁, htmp⟩ := alloc_built hw h₁
    obtain ⟨u, c₂, h₃, h₄⟩ := run_bind_ok h₂
    have hb₂ := hparts part (.head _) _ _ _ (by omega) hb₁.wb h₃
    exact hb₁.trans (hb₂.trans (ih (fun p hp => hparts p (.tail _ hp)) hb₂.wb h₄))

/-- A concatenation into the top register `a`: its parts, then one `concat`. -/
theorem concatWith_built {parts : List (Nat → CompileM Unit)}
    (hparts : ∀ p ∈ parts, IntoBuilt p .free) : IntoBuilt (concatWith parts · line) .free := by
  intro a c c' ha hw h
  obtain ⟨top, c₁, h₁, h₂⟩ := run_bind_ok h
  obtain ⟨rfl, rfl⟩ := run_readFs h₁
  obtain ⟨-, h₂⟩ := run_guard h₂
  split at h₂
  · obtain ⟨-, rfl⟩ := run_pure_ok h₂
    exact .refl hw
  · rename_i first rest _
    obtain ⟨u, c₂, h₃, h₄⟩ := run_bind_ok h₂
    have hb₂ := hparts first (.head _) a _ _ ha hw h₃
    obtain ⟨u, c₃, h₅, h₆⟩ := run_bind_ok h₄
    have hb₃ := intoFresh_built (fun p hp => hparts p (.tail _ hp)) hb₂.wb h₅
    obtain ⟨u, c₄, h₇, h₈⟩ := run_bind_ok h₆
    obtain ⟨hb₄, -⟩ := freeN_built hb₃.wb h₇
    exact hb₂.trans (hb₃.trans (hb₄.trans (emitPlain_built .concat hb₄.wb (by decide)
      (fun e => absurd e (by decide)) (fun e => absurd e (by decide)) h₈)))

/-- The operands of a power chain are RK operands: constants, locals, `a` or temporaries. -/
theorem powOperands_built {parts : List (CompileM Operand × (Nat → CompileM Unit))}
    (hparts : ∀ p ∈ parts, ClassifiesRK p.1 ∧ IntoBuilt p.2 .free) (ha : a < 256) :
    ∀ {c c' : Compiler} {i temps temps' : Nat} {inA inA' : Option Nat} {ops : List Nat},
      WellBuilt .free c →
      (powOperands a line parts i inA temps).run c = .ok ((ops, inA', temps'), c') →
      Built .free c c' ∧ ∀ x ∈ ops, c'.RK x := by
  induction parts with
  | nil =>
    intro c c' i temps temps' inA inA' ops hw h
    obtain ⟨he, rfl⟩ := run_pure_ok h
    cases he
    exact ⟨.refl hw, by simp⟩
  | cons part rest ih =>
    intro c c' i temps temps' inA inA' ops hw h
    obtain ⟨op, compile⟩ := part
    obtain ⟨hop, hin⟩ := hparts _ (.head _)
    have hrest : ∀ p ∈ rest, ClassifiesRK p.1 ∧ IntoBuilt p.2 .free := fun p hp => hparts p (.tail _ hp)
    obtain ⟨o, c₁, h₁, h₂⟩ := run_bind_ok h
    obtain ⟨hb₁, hrk⟩ := hop _ _ _ _ hw h₁
    split at h₂
    · -- an RK operand
      rename_i rk hrk'
      obtain ⟨⟨ops₁, inA₁, temps₁⟩, c₂, h₃, h₄⟩ := run_bind_ok h₂
      obtain ⟨he, rfl⟩ := run_pure_ok h₄
      cases he
      obtain ⟨hb₂, hops⟩ := ih hrest hb₁.wb h₃
      refine ⟨hb₁.trans hb₂, ?_⟩
      rintro x (_ | ⟨_, hx⟩)
      · exact (hrk _ hrk').mono hb₂.ext
      · exact hops x hx
    · split at h₂
      · -- the first part to need a register goes to `a`
        obtain ⟨u, c₂, h₃, h₄⟩ := run_bind_ok h₂
        have hb₂ := hin a _ _ ha hb₁.wb h₃
        obtain ⟨⟨ops₁, inA₁, temps₁⟩, c₃, h₅, h₆⟩ := run_bind_ok h₄
        obtain ⟨he, rfl⟩ := run_pure_ok h₆
        cases he
        obtain ⟨hb₃, hops⟩ := ih hrest hb₂.wb h₅
        refine ⟨hb₁.trans (hb₂.trans hb₃), ?_⟩
        rintro x (_ | ⟨_, hx⟩)
        · exact .of_lt ha
        · exact hops x hx
      · -- later ones to temporaries
        obtain ⟨tmp, c₂, h₃, h₄⟩ := run_bind_ok h₂
        obtain ⟨hb₂, htmp⟩ := alloc_built hb₁.wb h₃
        obtain ⟨u, c₃, h₅, h₆⟩ := run_bind_ok h₄
        have hb₃ := hin _ _ _ (by omega) hb₂.wb h₅
        obtain ⟨⟨ops₁, inA₁, temps₁⟩, c₄, h₇, h₈⟩ := run_bind_ok h₆
        obtain ⟨he, rfl⟩ := run_pure_ok h₈
        cases he
        obtain ⟨hb₄, hops⟩ := ih hrest hb₃.wb h₇
        refine ⟨hb₁.trans (hb₂.trans (hb₃.trans hb₄)), ?_⟩
        rintro x (_ | ⟨_, hx⟩)
        · exact .of_lt (by omega)
        · exact hops x hx

/-- The register a step of a power fold writes is `a` or the scratch register, both below 256. -/
theorem powDest_built {useScratch : Bool} {scratch scratch' : Option Nat} {dest : Nat}
    (ha : a < 256) (hs : ∀ s, scratch = some s → s < 256) (hw : WellBuilt .free c)
    (h : (powDest a line useScratch scratch).run c = .ok ((dest, scratch'), c')) :
    Built .free c c' ∧ dest < 256 ∧ ∀ s, scratch' = some s → s < 256 := by
  unfold powDest at h
  split at h
  · split at h
    · obtain ⟨he, rfl⟩ := run_pure_ok h
      cases he
      exact ⟨.refl hw, hs _ rfl, hs⟩
    · obtain ⟨s, c₁, h₁, h₂⟩ := run_bind_ok h
      obtain ⟨hb₁, hs₁⟩ := alloc_built hw h₁
      obtain ⟨he, rfl⟩ := run_pure_ok h₂
      cases he
      exact ⟨hb₁, by omega, fun s' e => by cases e; omega⟩
  · obtain ⟨he, rfl⟩ := run_pure_ok h
    cases he
    exact ⟨.refl hw, ha, hs⟩

/-- The fold of a power chain from the right: each `pow` reads an operand and the result so far,
both RK operands, and writes `a` or the scratch register. -/
theorem powFold_built {operands : Array Nat} {inA : Option Nat} (ha : a < 256) :
    ∀ {is : List Nat} {acc : Nat} {scratch scratch' : Option Nat} {c c' : Compiler},
      (∀ i ∈ is, c.RK (operands.getD i 0)) → c.RK acc → (∀ s, scratch = some s → s < 256) →
      WellBuilt .free c →
      (powFold operands inA a line is acc scratch).run c = .ok (scratch', c') → Built .free c c'
  | [], _, _, _, _, _, _, _, _, hw, h => by
    obtain ⟨rfl, rfl⟩ := run_pure_ok h
    exact .refl hw
  | i :: rest, acc, scratch, scratch', c, c', hops, hacc, hs, hw, h => by
    obtain ⟨⟨dest, scratch₁⟩, c₁, h₁, h₂⟩ := run_bind_ok h
    obtain ⟨hb₁, hdest, hs₁⟩ := powDest_built ha hs hw h₁
    obtain ⟨u, c₂, h₃, h₄⟩ := run_bind_ok h₂
    have hb₂ := emitPlain_built .pow hb₁.wb (by decide)
      (fun _ => (hops i (.head _)).mono hb₁.ext) (fun _ => hacc.mono hb₁.ext) h₃
    -- the result so far is now in `dest`, which the next step reads
    exact hb₁.trans (hb₂.trans (powFold_built ha
      (fun i' hi' => ((hops i' (.tail _ hi')).mono hb₁.ext).mono hb₂.ext) (.of_lt hdest) hs₁
      hb₂.wb h₄))

/-- A power chain into `a`: its operands, then the fold, then every temporary given back. -/
theorem powWith_built {parts : List (CompileM Operand × (Nat → CompileM Unit))}
    (hparts : ∀ p ∈ parts, ClassifiesRK p.1 ∧ IntoBuilt p.2 .free) :
    IntoBuilt (powWith parts · line) .free := by
  intro a c c' ha hw h
  obtain ⟨⟨ops, inA, temps⟩, c₁, h₁, h₂⟩ := run_bind_ok h
  obtain ⟨hb₁, hops⟩ := powOperands_built hparts ha hw h₁
  -- every index the fold reads is that of an operand, or the default register 0
  have hget : ∀ i, c₁.RK (ops.toArray.getD i 0) := by
    intro i
    by_cases hi : i < ops.length
    · exact hops _ (by simp [Array.getD, hi])
    · simp only [Array.getD, List.size_toArray, hi, dite_false]
      exact .of_lt (by decide)
  obtain ⟨scratch, c₂, h₃, h₄⟩ := run_bind_ok h₂
  have hb₂ := powFold_built ha (fun i _ => hget i) (hget _) (by simp) hb₁.wb h₃
  exact hb₁.trans (hb₂.trans (freeN_built hb₂.wb h₄).1)

/-! ## Calls -/

/-- A call into the top register `a`: the callee, the arguments (the last one possibly open,
so that the call takes them up to top), then `call` or `tailcall`, which leaves its results
open when they are all wanted. -/
theorem callWith_built {callee : CompileM Nat} {args : CompileM Bool} {argCount : Nat} {n : Int}
    {tail : Bool}
    (hcallee : ∀ c c' own, WellBuilt .free c → callee.run c = .ok (own, c') → Built .free c c')
    (hargs : ∀ c c' isOpen, WellBuilt .free c → args.run c = .ok (isOpen, c') →
      Built (if isOpen then .top else .free) c c')
    (hw : WellBuilt .free c) (h : (callWith callee args argCount a n tail line).run c = .ok ((), c')) :
    Built (if tail then .top else topIf (FuncState.word32 (n + 1))) c c' := by
  obtain ⟨top, c₁, h₁, h₂⟩ := run_bind_ok h
  obtain ⟨rfl, rfl⟩ := run_readFs h₁
  obtain ⟨-, h₂⟩ := run_guard h₂
  obtain ⟨own, c₂, h₃, h₄⟩ := run_bind_ok h₂
  have hb₂ := hcallee _ _ _ hw h₃
  obtain ⟨isOpen, c₃, h₅, h₆⟩ := run_bind_ok h₄
  have hb₃ := hargs _ _ _ hb₂.wb h₅
  obtain ⟨u, c₄, h₇, h₈⟩ := run_bind_ok h₆
  obtain ⟨hb₄, hn⟩ := freeN_built hb₃.wb h₇
  -- B is 0 exactly when the last argument is open
  have hw₄ : WellBuilt (topIf (FuncState.word32 ((if isOpen then -1 else ((own + argCount : Nat) : Int)) + 1))) c₄ := by
    cases isOpen
    · rw [if_neg (by decide), topIf_succ hn]
      exact hb₄.wb
    · exact hb₄.wb
  refine hb₂.trans (hb₃.trans (hb₄.trans ?_))
  cases tail
  · exact emitCall_built hw₄ h₈
  · exact emitTailCall_built hw₄ h₈

/-- The key of a named field: the constant itself, or a register above the top it is loaded
into and that is given back after `emit`. -/
theorem withNameKey_built {name : String} {emit : Nat → CompileM Unit}
    (hemit : ∀ k c c', c.RK k → WellBuilt .free c → (emit k).run c = .ok ((), c') →
      Built .free c c')
    (hw : WellBuilt .free c) (h : (withNameKey name line emit).run c = .ok ((), c')) :
    Built .free c c' := by
  obtain ⟨idx, c₁, h₁, h₂⟩ := run_bind_ok h
  obtain ⟨hb₁, hidx⟩ := addConstant_built hw h₁
  refine hb₁.trans ?_
  split at h₂
  · exact hemit _ _ _ (rkBelow_constOperand hidx ‹_›) hb₁.wb h₂
  · obtain ⟨k, c₂, h₃, h₄⟩ := run_bind_ok h₂
    obtain ⟨hb₂, hk⟩ := alloc_built hb₁.wb h₃
    obtain ⟨u, c₃, h₅, h₆⟩ := run_bind_ok h₄
    have hb₃ := emitLoadK_built hb₂.wb h₅
    obtain ⟨u, c₄, h₇, h₈⟩ := run_bind_ok h₆
    have hb₄ := hemit _ _ _ (.of_lt (by omega)) hb₃.wb h₇
    exact hb₂.trans (hb₃.trans (hb₄.trans (free_built hb₄.wb h₈)))

theorem regOrTarget_built {r : Nat} (hop : ClassifiesRK op) (hin : IntoBuilt compile .free)
    (ha : a < 256) (hw : WellBuilt .free c) (h : (regOrTarget op compile a).run c = .ok (r, c')) :
    Built .free c c' := by
  obtain ⟨o, c₁, h₁, h₂⟩ := run_bind_ok h
  obtain ⟨hb₁, -⟩ := hop _ _ _ _ hw h₁
  split at h₂
  · obtain ⟨-, rfl⟩ := run_pure_ok h₂
    exact hb₁
  · obtain ⟨u, c₂, h₃, h₄⟩ := run_bind_ok h₂
    obtain ⟨-, rfl⟩ := run_pure_ok h₄
    exact hb₁.trans (hin a _ _ ha hb₁.wb h₃)

/-- The callee of a method call: `self` with the method's key as an RK operand. -/
theorem methodWith_built {objOp : CompileM Operand} {compileObj : Nat → CompileM Unit}
    {name : String} {own : Nat} (hop : ClassifiesRK objOp) (hin : IntoBuilt compileObj .free)
    (ha : a < 256) (hw : WellBuilt .free c)
    (h : (methodWith objOp compileObj name a line).run c = .ok (own, c')) : Built .free c c' := by
  obtain ⟨objReg, c₁, h₁, h₂⟩ := run_bind_ok h
  have hb₁ := regOrTarget_built hop hin ha hw h₁
  obtain ⟨selfReg, c₂, h₃, h₄⟩ := run_bind_ok h₂
  obtain ⟨hb₂, -⟩ := alloc_built hb₁.wb h₃
  obtain ⟨u, c₃, h₅, h₆⟩ := run_bind_ok h₄
  have hb₃ := withNameKey_built (fun k c c' hk hw he => emitPlain_built .method hw (by decide)
    (fun e => absurd e (by decide)) (fun _ => hk) he) hb₂.wb h₅
  obtain ⟨-, h₇⟩ := run_guard h₆
  obtain ⟨-, rfl⟩ := run_pure_ok h₇
  exact hb₁.trans (hb₂.trans hb₃)

/-! ## Tables and names -/

/-- One keyed entry of a constructor: `settable` with key and value as RK operands. -/
theorem entryWith_built {keyOp valOp : CompileM Operand}
    {compileKey compileVal : Nat → CompileM Unit} (hkop : ClassifiesRK keyOp)
    (hk : IntoBuilt compileKey .free) (hvop : ClassifiesRK valOp) (hv : IntoBuilt compileVal .free)
    (hw : WellBuilt .free c)
    (h : (entryWith keyOp compileKey valOp compileVal a line).run c = .ok ((), c')) :
    Built .free c c' := by
  obtain ⟨⟨b, t₁⟩, c₁, h₁, h₂⟩ := run_bind_ok h
  obtain ⟨hb₁, hb⟩ := rkOrTemp_built hkop hk hw h₁
  obtain ⟨⟨x, t₂⟩, c₂, h₃, h₄⟩ := run_bind_ok h₂
  obtain ⟨hb₂, hx⟩ := rkOrTemp_built hvop hv hb₁.wb h₃
  obtain ⟨u, c₃, h₅, h₆⟩ := run_bind_ok h₄
  obtain ⟨hb₃, -⟩ := freeN_built hb₂.wb h₅
  exact hb₁.trans (hb₂.trans (hb₃.trans (emitPlain_built .setTable hb₃.wb (by decide)
    (fun _ => (hb.mono hb₂.ext).mono hb₃.ext) (fun _ => hx.mono hb₃.ext) h₆)))

theorem tableIn_built {t : Operand} {compileTable : Nat → CompileM Unit} {tab : Nat} {inA : Bool}
    (hin : IntoBuilt compileTable .free) (ha : a < 256) (hw : WellBuilt .free c)
    (h : (tableIn t compileTable a).run c = .ok ((tab, inA), c')) : Built .free c c' := by
  unfold tableIn at h
  split at h
  · obtain ⟨-, rfl⟩ := run_pure_ok h
    exact .refl hw
  · obtain ⟨-, rfl⟩ := run_pure_ok h
    exact .refl hw
  · obtain ⟨u, c₁, h₁, h₂⟩ := run_bind_ok h
    obtain ⟨-, rfl⟩ := run_pure_ok h₂
    exact hin a _ _ ha hw h₁

/-- An index into `a`: `gettabup` on an upvalue's table, `gettable` on a register's, with the
key as an RK operand. -/
theorem indexWith_built {tableOp keyOp : CompileM Operand}
    {compileTable compileKey : Nat → CompileM Unit} (htop : ClassifiesRK tableOp)
    (hint : IntoBuilt compileTable .free) (hkop : ClassifiesRK keyOp)
    (hink : IntoBuilt compileKey .free) :
    IntoBuilt (indexWith tableOp compileTable keyOp compileKey · line) .free := by
  intro a c c' ha hw h
  obtain ⟨t, c₁, h₁, h₂⟩ := run_bind_ok h
  obtain ⟨hb₁, -⟩ := htop _ _ _ _ hw h₁
  obtain ⟨⟨tab, inA⟩, c₂, h₃, h₄⟩ := run_bind_ok h₂
  have hb₂ := tableIn_built hint ha hb₁.wb h₃
  obtain ⟨rk, c₃, h₅, h₆⟩ := run_bind_ok h₄
  obtain ⟨hb₃, hrk⟩ := rkOrInto_built hkop hink ha hb₂.wb h₅
  refine hb₁.trans (hb₂.trans (hb₃.trans ?_))
  -- the table of an upvalue is read by `gettabup`, any other by `gettable`
  dsimp only at h₆
  split at h₆
  · exact emitPlain_built .getTabUp hb₃.wb (by decide) (fun e => absurd e (by decide))
      (fun _ => hrk) h₆
  · exact emitPlain_built .getTable hb₃.wb (by decide) (fun e => absurd e (by decide))
      (fun _ => hrk) h₆

/-- `_ENV` into a register: a local moved, or an upvalue read. -/
theorem compileEnv_built : IntoBuilt (fun r => compileEnv r line) .free := by
  intro r c c' hr hw h
  obtain ⟨c₀, c₁, h₁, h₂⟩ := run_bind_ok h
  obtain ⟨rfl, rfl⟩ := run_get_ok h₁
  split at h₂
  · exact emitMove_built hw h₂
  · obtain ⟨idx, c₂, h₃, h₄⟩ := run_bind_ok h₂
    have hb₂ := (resolveUpvalue_frames h₃).built hw
    split at h₄
    · exact hb₂.trans (emitPlain_built .getUpval hb₂.wb (by decide)
        (fun e => absurd e (by decide)) (fun e => absurd e (by decide)) h₄)
    · exact absurd h₄ run_throw_ne

/-- A name into `a`: a local moved, an upvalue read, a global read from `_ENV` with the name as
its key. -/
theorem compileName_built {name : String} : IntoBuilt (compileName name · line) .free := by
  intro a c c' ha hw h
  obtain ⟨c₀, c₁, h₁, h₂⟩ := run_bind_ok h
  obtain ⟨rfl, rfl⟩ := run_get_ok h₁
  split at h₂
  · exact emitMove_built hw h₂
  · obtain ⟨idx, c₂, h₃, h₄⟩ := run_bind_ok h₂
    have hb₂ := (resolveUpvalue_frames h₃).built hw
    refine hb₂.trans ?_
    split at h₄
    · exact emitPlain_built .getUpval hb₂.wb (by decide) (fun e => absurd e (by decide))
        (fun e => absurd e (by decide)) h₄
    · split at h₄
      · exact absurd h₄ run_throw_ne
      · exact indexWith_built (classifyName_classifiesRK _ _) compileEnv_built
          (constOperand_classifiesRK _) (loadK_built _) a _ _ ha hb₂.wb h₄

end Compiler

end LuaBytecode
