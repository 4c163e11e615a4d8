import LuaBytecode.Proofs.Compiler.BuiltExprs
import LuaBytecode.Proofs.Compiler.Registers
/-!
# Every statement keeps the code well built

`Compiler.compileStmt`, one statement shape at a time: given that its parts keep the code well
built, so does the statement (`Builds`). A statement starts and ends asking nothing of the next
instruction; in between, every jump it emits is patched to a boundary at or before the end:

* the test of a condition leaves its jump to be patched (`branchWith_built`): a comparison ends
  with its own jump, anything else is tested by `test` and a `jmp`;
* a loop's backward jump goes to where the loop started, which was the end of code asking
  nothing, hence a boundary (`whileWith_built`, `untilTest_built`); a `for` loop's `forprep`
  and `forloop` point at each other, and right after a jump is a boundary too
  (`numericForWith_built`, `genericForWith_built`);
* the forward jumps of an `if` are patched to its end (`ifWith_built`).

An assignment stores the value registers `first`, `first + 1`, ... as RK operands. They are all
taken before the stores (`assignWith_built`), so they are below the top, which is at most 255:
this is where the count of registers its values take (`adjustValues_usedRegs`) comes in.
-/

namespace LuaBytecode

namespace Compiler

open Instruction

/-- Run from a well-built state that asks nothing, `m` ends in one that asks nothing and
extends it: what every statement and block does. -/
def Builds (m : CompileM Unit) : Prop :=
  ∀ c c', WellBuilt .free c → m.run c = .ok ((), c') → Built .free c c'

/-- How a condition is compiled: with one value wanted, into any register below 256, it keeps
the code well built; so does a comparison with no value wanted, and it ends with its jump. -/
structure CondBuilds (cond : Expr) (compileCond : Nat → Int → CompileM Unit) : Prop where
  one : IntoBuilt (compileCond · 1) .free
  zero : cond.isComparison = true → IntoBuilt (compileCond · 0) .free
  jumps : cond.isComparison = true → ∀ a c c', a < 256 → WellBuilt .free c →
    (compileCond a 0).run c = .ok ((), c') → c'.fs.JumpAt (c'.fs.code.size - 1)

theorem ExprBuilds.condBuilds {e : Expr} (h : ExprBuilds e) : CondBuilds e (compileExpr e) :=
  ⟨h.into.one, fun _ => exprDemand_zero e ▸ h.into 0, h.cond⟩

variable {line : Nat} {c c' : Compiler} {cond : Expr} {compileCond : Nat → Int → CompileM Unit}
  {body : CompileM Unit}

/-- A jump emitted where the code asks nothing: the code then asks nothing either, and the jump
is its last instruction. -/
theorem emitJump_free_built {op : Opcode} {a j : Nat} (hw : WellBuilt .free c) (hop : op.isJump = true)
    (h : (emitJump op a line).run c = .ok (j, c')) :
    Built .free c c' ∧ j = c.fs.code.size ∧ c'.fs.JumpAt j ∧ c'.fs.code.size = j + 1 :=
  emitJump_built hw hop ⟨by decide, by decide, fun e => absurd e (by decide)⟩ h

/-! ## Scopes and conditions -/

theorem scopedWith_built (hbody : Builds body) : Builds (scopedWith body line) := by
  intro c c' hw h
  obtain ⟨u, c₁, h₁, h₂⟩ := run_bind_ok h
  have hb₁ := enterScope_built hw h₁
  obtain ⟨u, c₂, h₃, h₄⟩ := run_bind_ok h₂
  have hb₂ := hbody _ _ hb₁.wb h₃
  obtain ⟨u, c₃, h₅, h₆⟩ := run_bind_ok h₄
  have hb₃ := closeOpenUpvals_built hb₂.wb h₅
  exact hb₁.trans (hb₂.trans (hb₃.trans (exitScope_built hb₃.wb h₆)))

theorem testedReg_built {r : Nat} (hcond : CondBuilds cond compileCond) (hw : WellBuilt .free c)
    (h : (testedReg cond compileCond line).run c = .ok (r, c')) : Built .free c c' := by
  obtain ⟨o, c₁, h₁, h₂⟩ := run_bind_ok h
  obtain ⟨hb₁, -⟩ := classify_classifiesRK cond _ _ _ _ hw h₁
  refine hb₁.trans ?_
  split at h₂
  · obtain ⟨-, rfl⟩ := run_pure_ok h₂
    exact .refl hb₁.wb
  · obtain ⟨tmp, c₂, -, hb₂, h₃⟩ := temp_built hcond.one hb₁.wb h₂
    obtain ⟨-, rfl⟩ := run_pure_ok h₃
    exact hb₂

/-- The test of a condition leaves a jump to be patched, and asks nothing. -/
theorem branchWith_built {j : Nat} (hcond : CondBuilds cond compileCond) (hw : WellBuilt .free c)
    (h : (branchWith cond compileCond).run c = .ok (j, c')) : Built .free c c' ∧ c'.fs.JumpAt j := by
  unfold branchWith at h
  split at h
  · -- a comparison ends with its own jump, which stays the last instruction
    rename_i hcmp
    obtain ⟨tmp, c₁, h₁, h₂⟩ := run_bind_ok h
    obtain ⟨hb₁, htmp⟩ := alloc_built hw h₁
    obtain ⟨u, c₂, h₃, h₄⟩ := run_bind_ok h₂
    have hb₂ := hcond.zero hcmp tmp _ _ (by omega) hb₁.wb h₃
    have hj₂ := hcond.jumps hcmp tmp _ _ (by omega) hb₁.wb h₃
    obtain ⟨u, c₃, h₅, h₆⟩ := run_bind_ok h₄
    have hb₃ := free_built hb₂.wb h₅
    obtain ⟨p, c₄, h₇, h₈⟩ := run_bind_ok h₆
    obtain ⟨rfl, rfl⟩ := pc_spec h₇
    obtain ⟨rfl, rfl⟩ := run_pure_ok h₈
    rw [(free_spec h₅).2.2.2]
    exact ⟨hb₁.trans (hb₂.trans hb₃), hb₃.ext.jumpAt hj₂⟩
  · obtain ⟨r, c₁, h₁, h₂⟩ := run_bind_ok h
    have hb₁ := testedReg_built hcond hw h₁
    obtain ⟨u, c₂, h₃, h₄⟩ := run_bind_ok h₂
    have hb₂ := emitTest_built hb₁.wb h₃
    obtain ⟨hb₃, -, hj, -⟩ := emitJump_built hb₂.wb (show Opcode.jmp.isJump = true from rfl)
      ⟨by decide, by decide, fun _ => rfl⟩ h₄
    exact ⟨hb₁.trans (hb₂.trans hb₃), hj⟩

theorem exitTest_built {exit : Option Nat} (hcond : CondBuilds cond compileCond)
    (hw : WellBuilt .free c) (h : (exitTest cond compileCond).run c = .ok (exit, c')) :
    Built .free c c' ∧ ∀ j ∈ exit, c'.fs.JumpAt j := by
  unfold exitTest at h
  split at h
  · obtain ⟨rfl, rfl⟩ := run_pure_ok h
    exact ⟨.refl hw, fun _ hj => by cases hj⟩
  · obtain ⟨j, h₁, rfl⟩ := run_map_ok h
    obtain ⟨hb, hj⟩ := branchWith_built hcond hw h₁
    exact ⟨hb, fun j' hj' => Option.some.inj hj' ▸ hj⟩

/-! ## Loops -/

/-- A `while` loop: the jump back goes to where the loop started, which was the end of code
asking nothing, and the exit jump to past the loop. -/
theorem whileWith_built (hcond : CondBuilds cond compileCond) (hbody : Builds body) :
    Builds (whileWith cond compileCond body line) := by
  intro c c' hw h
  obtain ⟨start, c₁, h₁, h₂⟩ := run_bind_ok h
  obtain ⟨rfl, rfl⟩ := pc_spec h₁
  have hstart := hw.boundary_size (by decide)
  obtain ⟨exit, c₂, h₃, h₄⟩ := run_bind_ok h₂
  obtain ⟨hb₂, hexit⟩ := exitTest_built hcond hw h₃
  obtain ⟨u, c₃, h₅, h₆⟩ := run_bind_ok h₄
  have hb₃ := enterScope_built hb₂.wb h₅
  obtain ⟨u, c₄, h₇, h₈⟩ := run_bind_ok h₆
  have hb₄ := hb₃.trans (hbody _ _ hb₃.wb h₇)
  obtain ⟨u, c₅, h₉, h₁₀⟩ := run_bind_ok h₈
  have hb₅ := hb₄.trans (closeOpenUpvals_built hb₄.wb h₉)
  obtain ⟨back, c₆, h₁₁, h₁₂⟩ := run_bind_ok h₁₀
  obtain ⟨hb₆, -, hback, -⟩ := emitJump_free_built hb₅.wb rfl h₁₁
  have hb₆ := hb₅.trans hb₆
  -- the jump back: to the start, a boundary of the code then and so of the code now
  have he₆ := hb₂.ext.trans hb₆.ext
  obtain ⟨u, c₇, h₁₃, h₁₄⟩ := run_bind_ok h₁₂
  have hb₇ := hb₆.trans (patchJump_built hb₆.wb hback he₆.fs.size
    (he₆.boundary hstart (Nat.le_refl _)) h₁₃)
  obtain ⟨u, c₈, h₁₅, h₁₆⟩ := run_bind_ok h₁₄
  have hb₈ := hb₇.trans (exitScope_built hb₇.wb h₁₅)
  refine hb₂.trans (hb₈.trans ?_)
  cases exit with
  | none =>
    obtain ⟨-, rfl⟩ := run_pure_ok h₁₆
    exact .refl hb₈.wb
  | some j => exact patchHere_built hb₈.wb (hb₈.ext.jumpAt (hexit j rfl)) h₁₆

/-- The test that ends a `repeat` loop: its jump goes back to `start`, a boundary at or before
the end. -/
theorem untilTest_built {start : Nat} (hcond : CondBuilds cond compileCond)
    (hw : WellBuilt .free c) (hs : start ≤ c.fs.code.size) (hb : Boundary c.fs.code start)
    (h : (untilTest cond compileCond start).run c = .ok ((), c')) : Built .free c c' := by
  unfold untilTest at h
  split at h
  · obtain ⟨-, rfl⟩ := run_pure_ok h
    exact .refl hw
  · obtain ⟨back, c₁, h₁, h₂⟩ := run_bind_ok h
    obtain ⟨hb₁, hback⟩ := branchWith_built hcond hw h₁
    obtain ⟨a, c₂, h₃, h₄⟩ := run_bind_ok h₂
    obtain ⟨rfl, rfl⟩ := run_readFs h₃
    obtain ⟨u, c₃, h₅, h₆⟩ := run_bind_ok h₄
    have hb₃ := setJumpA_built hb₁.wb hback h₅
    have he₃ := hb₁.ext.trans hb₃.ext
    exact hb₁.trans (hb₃.trans (patchJump_built hb₃.wb (hb₃.ext.jumpAt hback)
      (Nat.le_trans hs he₃.fs.size) (he₃.boundary hb hs) h₆))

/-- A `repeat` loop: the body starts at the end of code asking nothing, where the test jumps
back to. -/
theorem repeatWith_built (hcond : CondBuilds cond compileCond) (hbody : Builds body) :
    Builds (repeatWith body cond compileCond line) := by
  intro c c' hw h
  unfold repeatWith at h
  split at h
  rename_i cond' compileCond' hpair
  -- a `nil` condition is tested as the constant `false`
  have hcond' : CondBuilds cond' compileCond' := by
    split at hpair
    · cases hpair
      exact ⟨fun _ _ _ _ hw he => emitLoadBool_built hw (.inl rfl) he,
        fun h => by simp [Expr.isComparison] at h, fun h => by simp [Expr.isComparison] at h⟩
    · cases hpair
      exact hcond
  obtain ⟨u, c₁, h₁, h₂⟩ := run_bind_ok h
  have hb₁ := enterScope_built hw h₁
  obtain ⟨start, c₂, h₃, h₄⟩ := run_bind_ok h₂
  obtain ⟨rfl, rfl⟩ := pc_spec h₃
  have hstart := hb₁.wb.boundary_size (by decide)
  obtain ⟨u, c₃, h₅, h₆⟩ := run_bind_ok h₄
  have hb₃ := hbody _ _ hb₁.wb h₅
  obtain ⟨u, c₄, h₇, h₈⟩ := run_bind_ok h₆
  have hb₄ := untilTest_built hcond' hb₃.wb hb₃.ext.fs.size
    (hb₃.ext.boundary hstart (Nat.le_refl _)) h₇
  obtain ⟨u, c₅, h₉, h₁₀⟩ := run_bind_ok h₈
  have hb₅ := closeOpenUpvals_built hb₄.wb h₉
  exact hb₁.trans (hb₃.trans (hb₄.trans (hb₅.trans (exitScope_built hb₅.wb h₁₀))))

/-! ## `if` -/

theorem exitJump_built {needed : Bool} {exit : Option Nat} (hw : WellBuilt .free c)
    (h : (exitJump needed line).run c = .ok (exit, c')) :
    Built .free c c' ∧ ∀ j ∈ exit, c'.fs.JumpAt j := by
  unfold exitJump at h
  split at h
  · obtain ⟨j, h₁, rfl⟩ := run_map_ok h
    obtain ⟨hb, -, hj, -⟩ := emitJump_free_built hw rfl h₁
    exact ⟨hb, fun j' hj' => Option.some.inj hj' ▸ hj⟩
  · obtain ⟨rfl, rfl⟩ := run_pure_ok h
    exact ⟨.refl hw, fun _ hj => by cases hj⟩

/-- One clause of an `if`: the test's jump is patched past the block and the jump to the end of
the `if`, which is returned to be patched there. -/
theorem clauseWith_built {bodyLine : Nat} {needed : Bool} {exit : Option Nat}
    (hcond : CondBuilds cond compileCond) (hbody : Builds body) (hw : WellBuilt .free c)
    (h : (clauseWith cond compileCond body bodyLine needed).run c = .ok (exit, c')) :
    Built .free c c' ∧ ∀ j ∈ exit, c'.fs.JumpAt j := by
  obtain ⟨skip, c₁, h₁, h₂⟩ := run_bind_ok h
  obtain ⟨hb₁, hskip⟩ := branchWith_built hcond hw h₁
  obtain ⟨u, c₂, h₃, h₄⟩ := run_bind_ok h₂
  have hb₂ := scopedWith_built hbody _ _ hb₁.wb h₃
  obtain ⟨exit', c₃, h₅, h₆⟩ := run_bind_ok h₄
  obtain ⟨hb₃, hexit⟩ := exitJump_built hb₂.wb h₅
  obtain ⟨p, c₄, h₇, h₈⟩ := run_bind_ok h₆
  obtain ⟨rfl, rfl⟩ := pc_spec h₇
  obtain ⟨u, c₅, h₉, h₁₀⟩ := run_bind_ok h₈
  obtain ⟨rfl, rfl⟩ := run_pure_ok h₁₀
  have hb₄ := patchJump_built hb₃.wb ((hb₂.trans hb₃).ext.jumpAt hskip) (Nat.le_refl _)
    (hb₃.wb.boundary_size (by decide)) h₉
  exact ⟨hb₁.trans (hb₂.trans (hb₃.trans hb₄)), fun j hj => hb₄.ext.jumpAt (hexit j hj)⟩

/-- An `if`: the jumps of its clauses to its end are patched there. -/
theorem ifWith_built {first : CompileM (Option Nat)} {rest : CompileM (List Nat)}
    {elseBody : CompileM Unit}
    (hfirst : ∀ c c' exit, WellBuilt .free c → first.run c = .ok (exit, c') →
      Built .free c c' ∧ ∀ j ∈ exit, c'.fs.JumpAt j)
    (hrest : ∀ c c' exits, WellBuilt .free c → rest.run c = .ok (exits, c') →
      Built .free c c' ∧ ∀ j ∈ exits, c'.fs.JumpAt j)
    (helse : Builds elseBody) : Builds (ifWith first rest elseBody) := by
  intro c c' hw h
  obtain ⟨exit, c₁, h₁, h₂⟩ := run_bind_ok h
  obtain ⟨hb₁, hexit⟩ := hfirst _ _ _ hw h₁
  obtain ⟨exits, c₂, h₃, h₄⟩ := run_bind_ok h₂
  obtain ⟨hb₂, hexits⟩ := hrest _ _ _ hb₁.wb h₃
  obtain ⟨u, c₃, h₅, h₆⟩ := run_bind_ok h₄
  have hb₃ := helse _ _ hb₂.wb h₅
  obtain ⟨p, c₄, h₇, h₈⟩ := run_bind_ok h₆
  obtain ⟨rfl, rfl⟩ := pc_spec h₇
  refine hb₁.trans (hb₂.trans (hb₃.trans (patchAll_built hb₃.wb (fun j hj => ?_) (Nat.le_refl _)
    (hb₃.wb.boundary_size (by decide)) h₈)))
  rcases List.mem_append.mp hj with hj | hj
  · exact (hb₂.trans hb₃).ext.jumpAt (hexit j (Option.mem_toList.mp hj))
  · exact hb₃.ext.jumpAt (hexits j hj)

/-! ## Registers taken for values -/

/-- A register taken and evaluated into, before the rest `k` of a shape: it stays taken. -/
theorem fresh_built {α : Type} {compile : Nat → CompileM Unit} {k : Nat → CompileM α} {x : α}
    (hin : IntoBuilt compile .free) (hw : WellBuilt .free c)
    (h : (do let r ← alloc line; compile r; k r).run c = .ok (x, c')) :
    ∃ r c₁, r < 255 ∧ Built .free c c₁ ∧ (k r).run c₁ = .ok (x, c') := by
  obtain ⟨r, c₁, h₁, h₂⟩ := run_bind_ok h
  obtain ⟨hb₁, hr⟩ := alloc_built hw h₁
  obtain ⟨u, c₂, h₃, h₄⟩ := run_bind_ok h₂
  exact ⟨r, c₂, hr, hb₁.trans (hin r _ _ (by omega) hb₁.wb h₃), h₄⟩

/-- The registers a list of values left without one are set to `nil`: they are taken. -/
theorem fillNils_built {nVars kept : Nat} {filled : Bool} (hw : WellBuilt .free c)
    (h : (fillNils nVars kept filled line).run c = .ok ((), c')) :
    Built .free c c' ∧ c.fs.usedRegs ≤ c'.fs.usedRegs ∧
      (kept < nVars → filled = false → c'.fs.usedRegs = c.fs.usedRegs + (nVars - kept)) := by
  unfold fillNils at h
  split at h
  · rename_i hfill
    obtain ⟨first, c₁, h₁, h₂⟩ := run_bind_ok h
    obtain ⟨hb₁, -, hu₁⟩ := allocRegs_built hw h₁
    have hu₂ := (emitLoadNil_exprOk (a := 0) h₂ (Nat.zero_le _)).usedRegs
    exact ⟨hb₁.trans (emitLoadNil_built hb₁.wb h₂), by omega, fun _ _ => by omega⟩
  · rename_i hfill
    obtain ⟨-, rfl⟩ := run_pure_ok h
    refine ⟨.refl hw, Nat.le_refl _, fun hk hf => ?_⟩
    simp [hk, hf] at hfill

variable {adjust : CompileM Bool}

/-- A declaration: its values, the registers left without one set to `nil`, then the names. -/
theorem localWith_built {names : List String} {kept : Nat}
    (hadj : ∀ c c' filled, WellBuilt .free c → adjust.run c = .ok (filled, c') → Built .free c c') :
    Builds (localWith names kept adjust line) := by
  intro c c' hw h
  obtain ⟨mark, c₁, h₁, h₂⟩ := run_bind_ok h
  obtain ⟨rfl, rfl⟩ := run_readFs h₁
  obtain ⟨filled, c₂, h₃, h₄⟩ := run_bind_ok h₂
  have hb₂ := hadj _ _ _ hw h₃
  obtain ⟨u, c₃, h₅, h₆⟩ := run_bind_ok h₄
  have hb₃ := (fillNils_built hb₂.wb h₅).1
  obtain ⟨u, c₄, h₇, h₈⟩ := run_bind_ok h₆
  have hb₄ := resetRegs_built hb₃.wb h₇
  exact hb₂.trans (hb₃.trans (hb₄.trans (addLocals_built hb₄.wb h₈).1))

/-! ## Stores -/

/-- The key register of an indexed target can stand as an RK operand. -/
def Target.KeyFits : Target → Prop
  | .indexed _ key => key < 256
  | _ => True

/-- A store to a named field, with the stored register as an RK operand. -/
theorem storeField_built {op : Opcode} {table v : Nat} {name : String} (hop : op ∈ plainOpcodes)
    (hv : v < 256) (hw : WellBuilt .free c) (h : (storeField op table name v line).run c = .ok ((), c')) :
    Built .free c c' :=
  withNameKey_built (fun _ _ _ hk hw he => emitPlain_built op hw hop (fun _ => hk)
    (fun _ => .of_lt hv) he) hw h

theorem store_built {t : Target} {v : Nat} (ht : t.KeyFits) (hv : v < 256) (hw : WellBuilt .free c)
    (h : (store t v line).run c = .ok ((), c')) : Built .free c c' := by
  cases t with
  | «local» slot => exact emitMove_built hw h
  | upval idx =>
    exact emitPlain_built .setUpval hw (by decide) (fun e => absurd e (by decide))
      (fun e => absurd e (by decide)) h
  | indexed table key =>
    exact emitPlain_built .setTable hw (by decide) (fun _ => .of_lt ht) (fun _ => .of_lt hv) h
  | global name =>
    -- a global is a field of `_ENV`, a local or an upvalue
    obtain ⟨c₀, c₁, h₁, h₂⟩ := run_bind_ok h
    obtain ⟨rfl, rfl⟩ := run_get_ok h₁
    split at h₂
    · exact storeField_built (by decide) hv hw h₂
    · obtain ⟨idx, c₂, h₃, h₄⟩ := run_bind_ok h₂
      have hb₂ := (resolveUpvalue_frames h₃).built hw
      refine hb₂.trans ?_
      split at h₄
      · exact storeField_built (by decide) hv hb₂.wb h₄
      · exact absurd h₄ run_throw_ne

theorem storeAll_built :
    ∀ {targets : List Target} {first : Nat} {c c' : Compiler}, (∀ t ∈ targets, t.KeyFits) →
      first + targets.length ≤ 256 → WellBuilt .free c →
        (storeAll targets first line).run c = .ok ((), c') → Built .free c c'
  | [], _, _, _, _, _, hw, h => by
    obtain ⟨-, rfl⟩ := run_pure_ok h
    exact .refl hw
  | t :: rest, first, _, _, ht, hlen, hw, h => by
    obtain ⟨u, c₁, h₁, h₂⟩ := run_bind_ok h
    simp only [List.length_cons] at hlen
    have hb₁ := store_built (ht t (.head _)) (by omega) hw h₁
    exact hb₁.trans (storeAll_built (fun t' ht' => ht t' (.tail _ ht')) (by omega) hb₁.wb h₂)

theorem nameTarget_built {name : String} {t : Target} (hw : WellBuilt .free c)
    (h : (nameTarget name line).run c = .ok (t, c')) : Built .free c c' ∧ t.KeyFits := by
  obtain ⟨c₀, c₁, h₁, h₂⟩ := run_bind_ok h
  obtain ⟨rfl, rfl⟩ := run_get_ok h₁
  split at h₂
  · obtain ⟨rfl, rfl⟩ := run_pure_ok h₂
    exact ⟨.refl hw, trivial⟩
  · obtain ⟨idx, c₂, h₃, h₄⟩ := run_bind_ok h₂
    have hb₂ := (resolveUpvalue_frames h₃).built hw
    split at h₄ <;>
    · obtain ⟨rfl, rfl⟩ := run_pure_ok h₄
      exact ⟨hb₂, trivial⟩

/-- An assignment: every target gets a value register, all taken before the stores, so below
the top, and each can stand as an RK operand. -/
theorem assignWith_built {resolve : CompileM (List Target)} {nTargets kept : Nat}
    (hres : ∀ c c' ts, WellBuilt .free c → resolve.run c = .ok (ts, c') →
      Built .free c c' ∧ ts.length = nTargets ∧ ∀ t ∈ ts, t.KeyFits)
    (hadj : ∀ c c' filled, WellBuilt .free c → adjust.run c = .ok (filled, c') →
      Built .free c c' ∧ c'.fs.usedRegs = c.fs.usedRegs + if filled then nTargets else kept) :
    Builds (assignWith resolve nTargets kept adjust line) := by
  intro c c' hw h
  obtain ⟨mark, c₁, h₁, h₂⟩ := run_bind_ok h
  obtain ⟨rfl, rfl⟩ := run_readFs h₁
  obtain ⟨resolved, c₂, h₃, h₄⟩ := run_bind_ok h₂
  obtain ⟨hb₂, hlen, hfits⟩ := hres _ _ _ hw h₃
  obtain ⟨first, c₃, h₅, h₆⟩ := run_bind_ok h₄
  obtain ⟨rfl, rfl⟩ := run_readFs h₅
  obtain ⟨filled, c₄, h₇, h₈⟩ := run_bind_ok h₆
  obtain ⟨hb₄, hu₄⟩ := hadj _ _ _ hb₂.wb h₇
  obtain ⟨u, c₅, h₉, h₁₀⟩ := run_bind_ok h₈
  obtain ⟨hb₅, hle₅, hu₅⟩ := fillNils_built hb₄.wb h₉
  obtain ⟨u, c₆, h₁₁, h₁₂⟩ := run_bind_ok h₁₀
  -- the values and the `nil`s fill at least one register per target, and the top is at most 255
  have htop : c₅.fs.usedRegs ≤ 255 := hb₅.wb.fs.code.regs.top
  have hcount : c₂.fs.usedRegs + resolved.length ≤ 256 := by
    rw [hlen]
    cases filled
    · by_cases hk : kept < nTargets
      · have := hu₅ hk rfl
        simp only [Bool.false_eq_true, if_false] at hu₄
        omega
      · simp only [Bool.false_eq_true, if_false] at hu₄
        omega
    · simp only [if_true] at hu₄
      omega
  have hb₆ := storeAll_built hfits hcount hb₅.wb h₁₁
  exact hb₂.trans (hb₄.trans (hb₅.trans (hb₆.trans (resetRegs_built hb₆.wb h₁₂))))

/-! ## Calls, loops and function definitions -/

/-- A call statement: the call into a temporary, with no value wanted. -/
theorem callStmtWith_built {e : Expr} {compile : Nat → Int → CompileM Unit}
    (hcall : IntoBuilt (compile · 0) .free) : Builds (callStmtWith e compile) := by
  intro c c' hw h
  unfold callStmtWith at h
  split at h
  · obtain ⟨tmp, c₁, h₁, h₂⟩ := run_bind_ok h
    obtain ⟨hb₁, htmp⟩ := alloc_built hw h₁
    obtain ⟨u, c₂, h₃, h₄⟩ := run_bind_ok h₂
    have hb₂ := hcall tmp _ _ (by omega) hb₁.wb h₃
    exact hb₁.trans (hb₂.trans (free_built hb₂.wb h₄))
  · exact absurd h run_throw_ne

/-- A numeric `for`: `forprep` jumps to the `forloop`, emitted where the code asked nothing,
and `forloop` back to right after the `forprep`. -/
theorem numericForWith_built {var : String} {control : CompileM Unit} (hcontrol : Builds control)
    (hbody : Builds body) : Builds (numericForWith var control body line) := by
  intro c c' hw h
  obtain ⟨u, c₁, h₁, h₂⟩ := run_bind_ok h
  have hb₁ := enterScope_built hw h₁
  obtain ⟨u, c₂, h₃, h₄⟩ := run_bind_ok h₂
  have hb₂ := localWith_built (fun c₀ c₀' filled hw₀ he => by
    obtain ⟨u, c₀₁, he₁, he₂⟩ := run_bind_ok he
    obtain ⟨-, rfl⟩ := run_pure_ok he₂
    exact hcontrol _ _ hw₀ he₁) _ _ hb₁.wb h₃
  obtain ⟨used, c₃, h₅, h₆⟩ := run_bind_ok h₄
  obtain ⟨rfl, rfl⟩ := run_readFs h₅
  obtain ⟨u, c₄, h₇, h₈⟩ := run_bind_ok h₆
  have hb₄ := (addLocals_built hb₂.wb h₇).1
  obtain ⟨prep, c₅, h₉, h₁₀⟩ := run_bind_ok h₈
  obtain ⟨hb₅, -, hprep, -⟩ := emitJump_free_built hb₄.wb rfl h₉
  obtain ⟨u, c₆, h₁₁, h₁₂⟩ := run_bind_ok h₁₀
  have hb₆ := hbody _ _ hb₅.wb h₁₁
  obtain ⟨u, c₇, h₁₃, h₁₄⟩ := run_bind_ok h₁₂
  have hb₇ := closeOpenUpvals_built hb₆.wb h₁₃
  have hend := hb₇.wb.boundary_size (by decide)
  obtain ⟨lp, c₈, h₁₅, h₁₆⟩ := run_bind_ok h₁₄
  obtain ⟨hb₈, rfl, hlp, hsize⟩ := emitJump_free_built hb₇.wb rfl h₁₅
  obtain ⟨u, c₉, h₁₆', h₁₇⟩ := run_bind_ok h₁₆
  have hb₉ := patchJump_built hb₈.wb ((hb₆.trans (hb₇.trans hb₈)).ext.jumpAt hprep) (by omega)
    (hb₈.ext.boundary hend (Nat.le_refl _)) h₁₆'
  obtain ⟨u, c₁₀, h₁₈, h₁₉⟩ := run_bind_ok h₁₇
  obtain ⟨hlt, hj⟩ := (hb₆.trans (hb₇.trans (hb₈.trans hb₉))).ext.jumpAt hprep
  have hb₁₀ := patchJump_built hb₉.wb (hb₉.ext.jumpAt hlp) hlt (Boundary.after_jump hlt hj) h₁₈
  exact hb₁.trans (hb₂.trans (hb₄.trans (hb₅.trans (hb₆.trans (hb₇.trans (hb₈.trans (hb₉.trans
    (hb₁₀.trans (exitScope_built hb₁₀.wb h₁₉)))))))))

/-- A generic `for`: a jump to the `tforcall` after the body, and `tforloop` back to right after
that jump. -/
theorem genericForWith_built {vars : List String} {kept : Nat}
    (hadj : ∀ c c' filled, WellBuilt .free c → adjust.run c = .ok (filled, c') → Built .free c c')
    (hbody : Builds body) : Builds (genericForWith vars kept adjust body line) := by
  intro c c' hw h
  obtain ⟨u, c₁, h₁, h₂⟩ := run_bind_ok h
  have hb₁ := enterScope_built hw h₁
  obtain ⟨u, c₂, h₃, h₄⟩ := run_bind_ok h₂
  have hb₂ := localWith_built hadj _ _ hb₁.wb h₃
  obtain ⟨base, c₃, h₅, h₆⟩ := run_bind_ok h₄
  obtain ⟨rfl, rfl⟩ := run_readFs h₅
  obtain ⟨u, c₄, h₇, h₈⟩ := run_bind_ok h₆
  have hb₄ := (addLocals_built hb₂.wb h₇).1
  obtain ⟨toCall, c₅, h₉, h₁₀⟩ := run_bind_ok h₈
  obtain ⟨hb₅, -, hcall, -⟩ := emitJump_free_built hb₄.wb rfl h₉
  obtain ⟨u, c₆, h₁₁, h₁₂⟩ := run_bind_ok h₁₀
  have hb₆ := hbody _ _ hb₅.wb h₁₁
  obtain ⟨u, c₇, h₁₃, h₁₄⟩ := run_bind_ok h₁₂
  have hb₇ := closeOpenUpvals_built hb₆.wb h₁₃
  obtain ⟨p, c₈, h₁₅, h₁₆⟩ := run_bind_ok h₁₄
  obtain ⟨rfl, rfl⟩ := pc_spec h₁₅
  obtain ⟨u, c₉, h₁₇, h₁₈⟩ := run_bind_ok h₁₆
  have hb₉ := patchJump_built hb₇.wb ((hb₆.trans hb₇).ext.jumpAt hcall) (Nat.le_refl _)
    (hb₇.wb.boundary_size (by decide)) h₁₇
  obtain ⟨u, c₁₀, h₁₉, h₂₀⟩ := run_bind_ok h₁₈
  have hb₁₀ := emitPlain_built .tforCall hb₉.wb (by decide) (fun e => absurd e (by decide))
    (fun e => absurd e (by decide)) h₁₉
  obtain ⟨lp, c₁₁, h₂₁, h₂₂⟩ := run_bind_ok h₂₀
  obtain ⟨hb₁₁, -, hlp, -⟩ := emitJump_free_built hb₁₀.wb rfl h₂₁
  obtain ⟨u, c₁₂, h₂₃, h₂₄⟩ := run_bind_ok h₂₂
  obtain ⟨hlt, hj⟩ := (hb₆.trans (hb₇.trans (hb₉.trans (hb₁₀.trans hb₁₁)))).ext.jumpAt hcall
  have hb₁₂ := patchJump_built hb₁₁.wb hlp hlt (Boundary.after_jump hlt hj) h₂₃
  exact hb₁.trans (hb₂.trans (hb₄.trans (hb₅.trans (hb₆.trans (hb₇.trans (hb₉.trans (hb₁₀.trans
    (hb₁₁.trans (hb₁₂.trans (exitScope_built hb₁₂.wb h₂₄))))))))))

theorem classifyRevPath_classifiesRK :
    ∀ revPath : List String, ClassifiesRK (classifyRevPath line revPath)
  | [p] => classifyName_classifiesRK p line
  | [] | _ :: _ :: _ => fun _ _ _ _ hw h => by
    obtain ⟨rfl, rfl⟩ := run_pure_ok h
    exact ⟨.refl hw, fun x hx => by cases hx⟩

/-- A dotted path into a register: its first name, then one index per later part. -/
theorem compileRevPath_built : ∀ revPath : List String, IntoBuilt (compileRevPath line revPath) .free
  | [] => fun _ _ _ _ hw h => by
    obtain ⟨-, rfl⟩ := run_pure_ok h
    exact .refl hw
  | [_] => compileName_built
  | _ :: p :: rest => indexWith_built (classifyRevPath_classifiesRK (p :: rest))
      (compileRevPath_built (p :: rest)) (constOperand_classifiesRK _) (loadK_built _)

/-- A function definition: the function, and for a dotted name the table its path leads to,
into fresh registers, then the store. -/
theorem functionDefWith_built {path : List String} {method : Option String}
    {compileBody : Nat → Bool → CompileM Unit}
    (hbody : ∀ isMethod, IntoBuilt (compileBody · isMethod) .free) :
    Builds (functionDefWith path method compileBody line) := by
  intro c c' hw h
  unfold functionDefWith at h
  split at h
  · exact absurd h run_throw_ne
  · -- a plain name
    obtain ⟨mark, c₁, h₁, h₂⟩ := run_bind_ok h
    obtain ⟨rfl, rfl⟩ := run_readFs h₁
    obtain ⟨target, c₂, h₃, h₄⟩ := run_bind_ok h₂
    obtain ⟨hb₂, htarget⟩ := nameTarget_built hw h₃
    obtain ⟨v, c₃, hv, hb₃, h₅⟩ := fresh_built (hbody false) hb₂.wb h₄
    obtain ⟨u, c₄, h₆, h₇⟩ := run_bind_ok h₅
    have hb₄ := store_built htarget (by omega) hb₃.wb h₆
    exact hb₂.trans (hb₃.trans (hb₄.trans (resetRegs_built hb₄.wb h₇)))
  · -- a field of the table a dotted path leads to
    obtain ⟨mark, c₁, h₁, h₂⟩ := run_bind_ok h
    obtain ⟨rfl, rfl⟩ := run_readFs h₁
    obtain ⟨t, c₂, -, hb₂, h₃⟩ := fresh_built (compileRevPath_built _) hw h₂
    obtain ⟨v, c₃, hv, hb₃, h₄⟩ := fresh_built (hbody _) hb₂.wb h₃
    obtain ⟨u, c₄, h₅, h₆⟩ := run_bind_ok h₄
    have hb₄ := storeField_built (by decide) (by omega) hb₃.wb h₅
    exact hb₂.trans (hb₃.trans (hb₄.trans (resetRegs_built hb₄.wb h₆)))

end Compiler

end LuaBytecode
