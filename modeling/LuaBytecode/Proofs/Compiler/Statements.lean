import LuaBytecode.Proofs.Compiler.Expressions
/-!
# Every statement keeps the registers aligned with the locals

The register discipline of `Compiler.compileStmt`, one statement at a time, given that its
parts keep to theirs: a statement keeps its frame (`StmtOk`), and if before it the registers
in use were exactly those of the locals, each local at its own position, so they are after it.
A statement takes its temporaries from the top and gives them back to the mark it started
from (`resetRegs_balanced`); only declarations add locals, each at the next register
(`addLocals_stmtOk`); scopes give back their locals' registers on exit.

A `return` and a nested function's body keep the registers as they found them
(`return_balanced`, `function_keeps`).

Lists of values, of assignment targets and of `if` clauses are handled by induction on the
list.
-/

namespace LuaBytecode

namespace Compiler

open Instruction

/-- A statement keeps its frame and the alignment of the registers with the locals. -/
def StmtKeeps (s : Stmt) : Prop := ∀ c c', (compileStmt s).run c = .ok ((), c') → StmtOk c c'

/-- A block keeps its frame and the alignment of the registers with the locals. -/
def BlockKeeps (b : Block) : Prop := ∀ c c', (compileBlock b).run c = .ok ((), c') → StmtOk c c'

/-- A `return` gives back every register it takes. -/
def ReturnKeeps (r : Return) : Prop :=
  ∀ c c', (compileReturn r).run c = .ok ((), c') → Balanced c c'

variable {α : Type} {line : Nat} {c c' : Compiler}

theorem emitReturn_balanced {a : Nat} {n : Int}
    (h : (updateFs (·.emitReturn a n line)).run c = .ok ((), c')) : Balanced c c' :=
  updateFs_balanced (fun _ => FuncState.emitABC_alike) h

/-! ## Lists of values and targets -/

/-- Values evaluated into fresh registers: the registers stay taken, the rest is kept. -/
theorem adjustValues_keeps {nVars kept : Nat} :
    ∀ {values : List Expr} {i : Nat} {c c' : Compiler} {filled : Bool},
      (∀ v ∈ values, KeepsTo v) → (adjustValues nVars kept line values i).run c = .ok (filled, c') →
        Keeps c c'
  | [], _, _, _, _, _, h => by
    obtain ⟨-, rfl⟩ := run_pure_ok h
    exact .refl _
  | v :: rest, i, c, c', _, hv, h => by
    simp only [adjustValues] at h
    have hrest : ∀ w ∈ rest, KeepsTo w := fun w hw => hv w (.tail _ hw)
    split at h
    · obtain ⟨-, rfl⟩ := run_pure_ok h
      exact .refl _
    obtain ⟨r, c₁, h₁, h₂⟩ := run_bind_ok h
    obtain ⟨rfl, hu₁, hk₁, -⟩ := alloc_spec h₁
    -- every value goes to the register just taken, whatever count it is asked for
    have hval : ∀ n c₂, (compileExpr v c.fs.usedRegs n).run c₁ = .ok ((), c₂) → Keeps c c₂ :=
      fun n c₂ he => hk₁.trans (hv v (.head _) n _ _ _ (by omega) he).toKeeps
    split at h₂
    · obtain ⟨u, c₂, h₃, h₄⟩ := run_bind_ok h₂
      exact (hval _ _ h₃).trans (adjustValues_keeps hrest h₄)
    split at h₂
    · -- the last value fills the missing ones, whose registers are then taken
      obtain ⟨u, c₂, h₃, h₄⟩ := run_bind_ok h₂
      obtain ⟨first, c₃, h₅, h₆⟩ := run_bind_ok h₄
      obtain ⟨-, rfl⟩ := run_pure_ok h₆
      exact (hval _ _ h₃).trans (allocRegs_keeps h₅).2.2
    · obtain ⟨u, c₂, h₃, h₄⟩ := run_bind_ok h₂
      exact (hval _ _ h₃).trans (adjustValues_keeps hrest h₄)

/-- The targets of an assignment: a table and its key are evaluated into fresh registers, a name
is only looked up. Anything else is refused. -/
theorem resolveTargets_keeps :
    ∀ {targets : List Expr} {c c' : Compiler} {resolved : List Target},
      (∀ t ∈ targets, PartsKeep t) → (resolveTargets targets).run c = .ok (resolved, c') →
        Keeps c c'
  | [], _, _, _, _, h => by
    obtain ⟨-, rfl⟩ := run_pure_ok h
    exact .refl _
  | t :: rest, c, c', _, ht, h => by
    rw [resolveTargets.eq_def] at h
    obtain ⟨target, c₁, h₁, h₂⟩ := run_bind_ok h
    obtain ⟨more, c₂, h₃, h₄⟩ := run_bind_ok h₂
    obtain ⟨-, rfl⟩ := run_pure_ok h₄
    refine (?_ : Keeps c c₁).trans (resolveTargets_keeps (fun t' ht' => ht t' (.tail _ ht')) h₃)
    have hpt := ht t (.head _)
    split at h₁
    · exact (nameTarget_quiet h₁).toKeeps
    · obtain ⟨htb, hky⟩ : KeepsTo _ ∧ KeepsTo _ := hpt
      obtain ⟨c₃, hs₃, -, h₅⟩ := fresh_into (htb 1) h₁
      obtain ⟨c₄, hs₄, -, h₆⟩ := fresh_into (hky 1) h₅
      obtain ⟨-, rfl⟩ := run_pure_ok h₆
      exact hs₃.toKeeps.trans hs₄.toKeeps
    · obtain ⟨c₃, hs₃, -, h₅⟩ := fresh_into ((hpt : KeepsTo _) 1) h₁
      obtain ⟨c₄, hs₄, -, h₆⟩ := fresh_into (loadK_into _) h₅
      obtain ⟨-, rfl⟩ := run_pure_ok h₆
      exact hs₃.toKeeps.trans hs₄.toKeeps
    · exact absurd h₁ run_throw_ne

/-- The values of a general `return`, into fresh registers. -/
theorem compileReturnValues_spec :
    ∀ {values : List Expr} {c c' : Compiler},
      (∀ v ∈ values, KeepsTo v) → (compileReturnValues line values).run c = .ok ((), c') →
        Keeps c c' ∧ c'.fs.usedRegs = c.fs.usedRegs + values.length
  | [], _, _, _, h => by
    obtain ⟨-, rfl⟩ := run_pure_ok h
    exact ⟨.refl _, rfl⟩
  | [v], c, c', hv, h => by
    obtain ⟨r, c₁, h₁, h₂⟩ := run_bind_ok h
    obtain ⟨rfl, hu₁, hk₁, -⟩ := alloc_spec h₁
    have hc₂ := hv v (List.mem_singleton_self v) _ _ _ _ (by omega) h₂
    exact ⟨hk₁.trans hc₂.toKeeps, hc₂.usedRegs.trans hu₁⟩
  | v :: w :: rest, c, c', hv, h => by
    obtain ⟨c₁, hs₁, hu₁, h₂⟩ := fresh_into (hv v (.head _) 1) h
    obtain ⟨hk, hu⟩ := compileReturnValues_spec (fun x hx => hv x (.tail _ hx)) h₂
    refine ⟨hs₁.toKeeps.trans hk, ?_⟩
    simp only [List.length_cons] at hu ⊢
    omega

/-! ## `return` -/

/-- A `return`: nothing, a local in place, a tail call from a fresh register, or the values in
fresh registers; every register it takes is given back. -/
theorem return_balanced {values : List Expr} (hv : ∀ v ∈ values, Sound v)
    (h : (compileReturn (.mk values line)).run c = .ok ((), c')) : Balanced c c' := by
  unfold compileReturn at h
  split at h
  · exact emitReturn_balanced h
  split at h
  · split at h
    · -- a tail call of a function
      obtain ⟨hf, hargs⟩ : KeepsTo _ ∧ ∀ x ∈ _, KeepsTo x := (hv _ (List.mem_singleton_self _)).parts
      obtain ⟨c₁, hc₁, h₂⟩ := temp_exprOk (a := 0) (fun _ _ _ _ he => call_exprOk hf hargs he)
        (Nat.zero_le _) h
      exact hc₁.balanced.trans (emitReturn_balanced h₂)
    · -- a tail call of a method
      obtain ⟨hobj, hargs⟩ : KeepsTo _ ∧ ∀ x ∈ _, KeepsTo x :=
        (hv _ (List.mem_singleton_self _)).parts
      obtain ⟨c₁, hc₁, h₂⟩ := temp_exprOk (a := 0) (fun _ _ _ _ he => method_exprOk hobj hargs he)
        (Nat.zero_le _) h
      exact hc₁.balanced.trans (emitReturn_balanced h₂)
    · obtain ⟨-, rfl⟩ := run_pure_ok h
      exact .refl _
  obtain ⟨slot, c₁, h₁, h₂⟩ := run_bind_ok h
  obtain rfl := singleLocal_eq h₁
  split at h₂
  · exact emitReturn_balanced h₂
  · -- the values into fresh registers, given back before `return` reads them
    obtain ⟨u, c₂, h₃, h₄⟩ := run_bind_ok h₂
    obtain ⟨hk₂, hu₂⟩ := compileReturnValues_spec (fun v hv' => (hv v hv').keeps) h₃
    obtain ⟨u, c₃, h₅, h₆⟩ := run_bind_ok h₄
    obtain ⟨-, hu₃, hk₃, -⟩ := freeN_spec h₅
    obtain ⟨base, c₄, h₇, h₈⟩ := run_bind_ok h₆
    obtain ⟨rfl, rfl⟩ := run_readFs h₇
    exact (⟨hk₂.trans hk₃, by omega⟩ : Balanced c _).trans (emitReturn_balanced h₈)

/-! ## Statement shapes -/

variable {adjust : CompileM Bool} {body : CompileM Unit}

/-- A declaration: whatever its values take is given back before its names are declared, each at
the next register. -/
theorem localWith_stmtOk {names : List String} {kept : Nat}
    (hadj : ∀ c c' filled, adjust.run c = .ok (filled, c') → Keeps c c')
    (h : (localWith names kept adjust line).run c = .ok ((), c')) : StmtOk c c' := by
  obtain ⟨mark, c₁, h₁, h₂⟩ := run_bind_ok h
  obtain ⟨rfl, rfl⟩ := run_readFs h₁
  obtain ⟨filled, c₂, h₃, h₄⟩ := run_bind_ok h₂
  obtain ⟨u, c₃, h₅, h₆⟩ := run_bind_ok h₄
  obtain ⟨u, c₄, h₇, h₈⟩ := run_bind_ok h₆
  have hc₄ := resetRegs_balanced ((hadj _ _ _ h₃).trans (fillNils_keeps h₅)) h₇
  exact hc₄.stmtOk.trans (addLocals_stmtOk h₈)

/-- An assignment gives back every register it takes. -/
theorem assignWith_stmtOk {resolve : CompileM (List Target)} {nTargets kept : Nat}
    (hres : ∀ c c' ts, resolve.run c = .ok (ts, c') → Keeps c c')
    (hadj : ∀ c c' filled, adjust.run c = .ok (filled, c') → Keeps c c')
    (h : (assignWith resolve nTargets kept adjust line).run c = .ok ((), c')) : StmtOk c c' := by
  obtain ⟨mark, c₁, h₁, h₂⟩ := run_bind_ok h
  obtain ⟨rfl, rfl⟩ := run_readFs h₁
  obtain ⟨resolved, c₂, h₃, h₄⟩ := run_bind_ok h₂
  obtain ⟨first, c₃, h₅, h₆⟩ := run_bind_ok h₄
  obtain ⟨rfl, rfl⟩ := run_readFs h₅
  obtain ⟨filled, c₄, h₇, h₈⟩ := run_bind_ok h₆
  obtain ⟨u, c₅, h₉, h₁₀⟩ := run_bind_ok h₈
  obtain ⟨u, c₆, h₁₁, h₁₂⟩ := run_bind_ok h₁₀
  have hk : Keeps c c₆ := (hres _ _ _ h₃).trans ((hadj _ _ _ h₇).trans
    ((fillNils_keeps h₉).trans (storeAll_balanced h₁₁).toKeeps))
  exact (resetRegs_balanced hk h₁₂).stmtOk

/-- A call into a fresh register, given back after it: a call statement. -/
theorem freshCall_balanced {call : Nat → CompileM Unit} (hcall : Into call)
    (h : (do let tmp ← alloc line; call tmp; free).run c = .ok ((), c')) : Balanced c c' := by
  obtain ⟨tmp, c₁, h₁, h₂⟩ := run_bind_ok h
  obtain ⟨rfl, hu₁, hk₁, -⟩ := alloc_spec h₁
  obtain ⟨u, c₂, h₃, h₄⟩ := run_bind_ok h₂
  have hc₂ := hcall _ _ _ (by omega) h₃
  have hu₂ := hc₂.usedRegs
  obtain ⟨-, hu₄, hk₄, -⟩ := free_spec h₄
  exact ⟨hk₁.trans (hc₂.toKeeps.trans hk₄), by omega⟩

/-- A call statement: the call into a fresh register, given back after it; any other expression
is refused. -/
theorem callStmtWith_balanced {e : Expr} {compile : Nat → Int → CompileM Unit}
    (hcompile : ∀ n, Into fun r => compile r n)
    (h : (callStmtWith e compile).run c = .ok ((), c')) : Balanced c c' := by
  unfold callStmtWith at h
  split at h
  · exact freshCall_balanced (hcompile 0) h
  · exact absurd h run_throw_ne

/-- One clause of an `if`: its test, its block in a scope of its own, and jumps. -/
theorem clauseWith_stmtOk {cond : Expr} {compileCond : Nat → Int → CompileM Unit}
    {bodyLine : Nat} {needed : Bool} {exit : Option Nat}
    (hcond : ∀ n, Into fun r => compileCond r n)
    (hbody : ∀ c c', body.run c = .ok ((), c') → StmtOk c c')
    (h : (clauseWith cond compileCond body bodyLine needed).run c = .ok (exit, c')) :
    StmtOk c c' := by
  obtain ⟨skip, c₁, h₁, h₂⟩ := run_bind_ok h
  obtain ⟨u, c₂, h₃, h₄⟩ := run_bind_ok h₂
  obtain ⟨exit, c₃, h₅, h₆⟩ := run_bind_ok h₄
  obtain ⟨p, c₄, h₇, h₈⟩ := run_bind_ok h₆
  obtain ⟨-, rfl⟩ := pc_spec h₇
  obtain ⟨u, c₅, h₉, h₁₀⟩ := run_bind_ok h₈
  obtain ⟨-, rfl⟩ := run_pure_ok h₁₀
  exact (branchWith_balanced hcond h₁).stmtOk.trans ((scopedWith_stmtOk hbody h₃).trans
    ((exitJump_balanced h₅).stmtOk.trans (patchJump_balanced h₉).stmtOk))

theorem ifWith_stmtOk {first : CompileM (Option Nat)} {rest : CompileM (List Nat)}
    (hfirst : ∀ c c' exit, first.run c = .ok (exit, c') → StmtOk c c')
    (hrest : ∀ c c' exits, rest.run c = .ok (exits, c') → StmtOk c c')
    (helse : ∀ c c', body.run c = .ok ((), c') → StmtOk c c')
    (h : (ifWith first rest body).run c = .ok ((), c')) : StmtOk c c' := by
  obtain ⟨exit, c₁, h₁, h₂⟩ := run_bind_ok h
  obtain ⟨exits, c₂, h₃, h₄⟩ := run_bind_ok h₂
  obtain ⟨u, c₃, h₅, h₆⟩ := run_bind_ok h₄
  obtain ⟨p, c₄, h₇, h₈⟩ := run_bind_ok h₆
  obtain ⟨-, rfl⟩ := pc_spec h₇
  exact (hfirst _ _ _ h₁).trans ((hrest _ _ _ h₃).trans ((helse _ _ h₅).trans
    (patchAll_balanced h₈).stmtOk))

/-- A numeric `for`: its control values, given back and then declared as hidden locals, the loop
variable, and the body between jumps, in a scope of the loop's own. -/
theorem numericForWith_stmtOk {var : String} {control : CompileM Unit}
    (hcontrol : ∀ c c', control.run c = .ok ((), c') → Keeps c c')
    (hbody : ∀ c c', body.run c = .ok ((), c') → StmtOk c c')
    (h : (numericForWith var control body line).run c = .ok ((), c')) : StmtOk c c' := by
  obtain ⟨u, c₁, h₁, h₂⟩ := run_bind_ok h
  obtain ⟨u, c₂, h₃, h₄⟩ := run_bind_ok h₂
  -- the control values, as hidden locals
  have hc₂ : StmtOk c₁ c₂ := localWith_stmtOk (fun _ _ _ he => by
    obtain ⟨u, c₀, h₀, h₀'⟩ := run_bind_ok he
    obtain ⟨-, rfl⟩ := run_pure_ok h₀'
    exact hcontrol _ _ h₀) h₃
  obtain ⟨base, c₃, h₅, h₆⟩ := run_bind_ok h₄
  obtain ⟨rfl, rfl⟩ := run_readFs h₅
  -- the loop variable, then the body between `forprep` and `forloop`
  obtain ⟨u, c₄, h₇, h₈⟩ := run_bind_ok h₆
  obtain ⟨prep, c₅, h₉, h₁₀⟩ := run_bind_ok h₈
  obtain ⟨u, c₆, h₁₁, h₁₂⟩ := run_bind_ok h₁₀
  obtain ⟨u, c₇, h₁₃, h₁₄⟩ := run_bind_ok h₁₂
  obtain ⟨lp, c₈, h₁₅, h₁₆⟩ := run_bind_ok h₁₄
  obtain ⟨u, c₉, h₁₇, h₁₈⟩ := run_bind_ok h₁₆
  obtain ⟨u, c₁₀, h₁₉, h₂₀⟩ := run_bind_ok h₁₈
  exact (enterScope_balanced h₁).stmtOk.trans <| hc₂.trans <| (addLocals_stmtOk h₇).trans <|
    (emitJump_balanced h₉).stmtOk.trans <| (hbody _ _ h₁₁).trans <|
    (closeOpenUpvals_balanced h₁₃).stmtOk.trans <| (emitJump_balanced h₁₅).stmtOk.trans <|
    (patchJump_balanced h₁₇).stmtOk.trans <| (patchJump_balanced h₁₉).stmtOk.trans <|
    exitScope_stmtOk h₂₀

theorem genericForWith_stmtOk {vars : List String} {kept : Nat}
    (hadj : ∀ c c' filled, adjust.run c = .ok (filled, c') → Keeps c c')
    (hbody : ∀ c c', body.run c = .ok ((), c') → StmtOk c c')
    (h : (genericForWith vars kept adjust body line).run c = .ok ((), c')) : StmtOk c c' := by
  obtain ⟨u, c₁, h₁, h₂⟩ := run_bind_ok h
  obtain ⟨u, c₂, h₃, h₄⟩ := run_bind_ok h₂
  obtain ⟨base, c₃, h₅, h₆⟩ := run_bind_ok h₄
  obtain ⟨rfl, rfl⟩ := run_readFs h₅
  obtain ⟨u, c₄, h₇, h₈⟩ := run_bind_ok h₆
  obtain ⟨toCall, c₅, h₉, h₁₀⟩ := run_bind_ok h₈
  obtain ⟨u, c₆, h₁₁, h₁₂⟩ := run_bind_ok h₁₀
  obtain ⟨u, c₇, h₁₃, h₁₄⟩ := run_bind_ok h₁₂
  obtain ⟨p, c₈, h₁₅, h₁₆⟩ := run_bind_ok h₁₄
  obtain ⟨-, rfl⟩ := pc_spec h₁₅
  obtain ⟨u, c₉, h₁₇, h₁₈⟩ := run_bind_ok h₁₆
  obtain ⟨u, c₁₀, h₁₉, h₂₀⟩ := run_bind_ok h₁₈
  obtain ⟨lp, c₁₁, h₂₁, h₂₂⟩ := run_bind_ok h₂₀
  obtain ⟨u, c₁₂, h₂₃, h₂₄⟩ := run_bind_ok h₂₂
  exact (enterScope_balanced h₁).stmtOk.trans <| (localWith_stmtOk hadj h₃).trans <|
    (addLocals_stmtOk h₇).trans <| (emitJump_balanced h₉).stmtOk.trans <|
    (hbody _ _ h₁₁).trans <| (closeOpenUpvals_balanced h₁₃).stmtOk.trans <|
    (patchJump_balanced h₁₇).stmtOk.trans <| (emitABC_balanced h₁₉).stmtOk.trans <|
    (emitJump_balanced h₂₁).stmtOk.trans <| (patchJump_balanced h₂₃).stmtOk.trans <|
    exitScope_stmtOk h₂₄

/-- A function definition: the table its path leads to and the function into fresh registers,
the store, then every register taken given back. -/
theorem functionDefWith_stmtOk {path : List String} {method : Option String}
    {compileBody : Nat → Bool → CompileM Unit}
    (hbody : ∀ v isMethod c c', (compileBody v isMethod).run c = .ok ((), c') → ExprOk v c c')
    (h : (functionDefWith path method compileBody line).run c = .ok ((), c')) : StmtOk c c' := by
  unfold functionDefWith at h
  split at h
  · exact absurd h run_throw_ne
  · -- a plain name
    obtain ⟨mark, c₁, h₁, h₂⟩ := run_bind_ok h
    obtain ⟨rfl, rfl⟩ := run_readFs h₁
    obtain ⟨target, c₂, h₃, h₄⟩ := run_bind_ok h₂
    obtain ⟨c₃, hs₃, -, h₅⟩ := fresh_into (fun r _ _ _ he => hbody r false _ _ he) h₄
    obtain ⟨u, c₄, h₆, h₇⟩ := run_bind_ok h₅
    exact (resetRegs_balanced ((nameTarget_quiet h₃).toKeeps.trans
      (hs₃.toKeeps.trans (store_balanced h₆).toKeeps)) h₇).stmtOk
  · -- a field of the table a dotted path leads to
    obtain ⟨mark, c₁, h₁, h₂⟩ := run_bind_ok h
    obtain ⟨rfl, rfl⟩ := run_readFs h₁
    obtain ⟨c₂, hs₂, -, h₃⟩ := fresh_into (compileRevPath_into _) h₂
    obtain ⟨c₃, hs₃, -, h₄⟩ := fresh_into (fun r _ _ _ he => hbody r _ _ _ he) h₃
    obtain ⟨u, c₄, h₅, h₆⟩ := run_bind_ok h₄
    exact (resetRegs_balanced (hs₂.toKeeps.trans (hs₃.toKeeps.trans
      (storeField_balanced (by decide) h₅).toKeeps)) h₆).stmtOk

/-! ## Statements -/

theorem compileClauses_stmtOk {hasElse : Bool} :
    ∀ {clauses : List (Expr × Block)} {c c' : Compiler} {exits : List Nat},
      (∀ p ∈ clauses, KeepsTo p.1 ∧ BlockKeeps p.2) →
      (compileClauses hasElse clauses).run c = .ok (exits, c') → StmtOk c c'
  | [], _, _, _, _, h => by
    obtain ⟨-, rfl⟩ := run_pure_ok h
    exact .refl _
  | (cond, body) :: rest, c, c', _, hcl, h => by
    rw [compileClauses] at h
    obtain ⟨hc, hb⟩ := hcl (cond, body) (.head _)
    obtain ⟨exit, c₁, h₁, h₂⟩ := run_bind_ok h
    obtain ⟨exits, c₂, h₃, h₄⟩ := run_bind_ok h₂
    obtain ⟨-, rfl⟩ := run_pure_ok h₄
    exact (clauseWith_stmtOk hc hb h₁).trans
      (compileClauses_stmtOk (fun p hp => hcl p (.tail _ hp)) h₃)

theorem localDecl_keeps {names : List String} {values : List Expr} (hv : ∀ v ∈ values, KeepsTo v) :
    StmtKeeps (.localDecl names values line) := by
  intro c c' h
  exact localWith_stmtOk (fun _ _ _ he => adjustValues_keeps hv he) h

theorem assign_keeps {targets values : List Expr} (ht : ∀ t ∈ targets, PartsKeep t)
    (hv : ∀ v ∈ values, KeepsTo v) : StmtKeeps (.assign targets values line) := by
  intro c c' h
  exact assignWith_stmtOk (fun _ _ _ he => resolveTargets_keeps ht he)
    (fun _ _ _ he => adjustValues_keeps hv he) h

theorem callStmt_keeps {e : Expr} (he : KeepsTo e) : StmtKeeps (.callStmt e) :=
  fun _ _ h => (callStmtWith_balanced he h).stmtOk

theorem doBlock_keeps {b : Block} (hb : BlockKeeps b) : StmtKeeps (.doBlock b) := by
  intro c c' h
  exact scopedWith_stmtOk hb h

theorem whileLoop_keeps {cond : Expr} {b : Block} (hc : KeepsTo cond) (hb : BlockKeeps b) :
    StmtKeeps (.whileLoop cond b line) := by
  intro c c' h
  exact whileWith_stmtOk hc hb h

theorem repeatLoop_keeps {cond : Expr} {b : Block} (hc : KeepsTo cond) (hb : BlockKeeps b) :
    StmtKeeps (.repeatLoop b cond line) := by
  intro c c' h
  exact repeatWith_stmtOk hc hb h

theorem ifStmt_keeps {cond : Expr} {thenBody : Block} {elseifs : List (Expr × Block)}
    {elseBody : Option Block} (hc : KeepsTo cond) (ht : BlockKeeps thenBody)
    (hei : ∀ p ∈ elseifs, KeepsTo p.1 ∧ BlockKeeps p.2)
    (he : ∀ c c', (compileElse elseBody).run c = .ok ((), c') → StmtOk c c') :
    StmtKeeps (.ifStmt cond thenBody elseifs elseBody line) := by
  intro c c' h
  exact ifWith_stmtOk (fun _ _ _ h₁ => clauseWith_stmtOk hc ht h₁)
    (fun _ _ _ h₁ => compileClauses_stmtOk hei h₁) he h

theorem numericFor_keeps {var : String} {start limit : Expr} {step : Option Expr} {b : Block}
    (hs : KeepsTo start) (hl : KeepsTo limit)
    (hst : Into (compileStep step line)) (hb : BlockKeeps b) :
    StmtKeeps (.numericFor var start limit step b line) := by
  intro c c' h
  refine numericForWith_stmtOk (fun _ _ he => (intoFresh_spec ?_ he).1.toKeeps) hb h
  simpa using ⟨hs 1, hl 1, hst⟩

theorem genericFor_keeps {vars : List String} {exprs : List Expr} {b : Block}
    (he : ∀ e ∈ exprs, KeepsTo e) (hb : BlockKeeps b) :
    StmtKeeps (.genericFor vars exprs b line) := by
  intro c c' h
  exact genericForWith_stmtOk (fun _ _ _ h₁ => adjustValues_keeps he h₁) hb h

theorem functionDef_keeps {path : List String} {method : Option String} {body : FuncBody}
    (hb : FuncKeeps body) : StmtKeeps (.functionDef path method body line) := by
  intro c c' h
  exact functionDefWith_stmtOk (fun v isMethod _ _ he => hb v isMethod _ _ he) h

/-- `local function name ... end`: the name declared first, at the next register, which the
function is then compiled into. -/
theorem localFunction_keeps {name : String} {body : FuncBody} (hb : FuncKeeps body) :
    StmtKeeps (.localFunction name body line) := by
  intro c c' h
  obtain ⟨r, c₁, h₁, h₂⟩ := run_bind_ok h
  obtain ⟨-, -, hc₁⟩ := addLocal_stmtOk h₁
  exact hc₁.trans (hb _ _ _ _ h₂).balanced.stmtOk

theorem breakStmt_keeps : StmtKeeps (.breakStmt line) := by
  intro c c' h
  exact (addBreak_balanced h).stmtOk

theorem gotoStmt_keeps {label : String} : StmtKeeps (.gotoStmt label line) := by
  intro c c' h
  exact absurd h run_throw_ne

theorem labelStmt_keeps {name : String} : StmtKeeps (.labelStmt name line) := by
  intro c c' h
  exact absurd h run_throw_ne

/-- The `else` block, in a scope of its own. -/
theorem compileElse_stmtOk {elseBody : Option Block} (hb : ∀ b ∈ elseBody, BlockKeeps b)
    (h : (compileElse elseBody).run c = .ok ((), c')) : StmtOk c c' := by
  rw [compileElse.eq_def] at h
  split at h
  · exact scopedWith_stmtOk (hb _ rfl) h
  · obtain ⟨-, rfl⟩ := run_pure_ok h
    exact .refl _

/-- The step of a numeric `for` keeps to its register. -/
theorem compileStep_into {step : Option Expr} (hs : ∀ e ∈ step, KeepsTo e) :
    Into (compileStep step line) := by
  intro r c c' hr h
  rw [compileStep.eq_def] at h
  split at h
  · exact hs _ rfl 1 r c c' hr h
  · exact loadK_into _ r c c' hr h

/-! ## Blocks and functions -/

theorem compileStmts_stmtOk :
    ∀ {stmts : List Stmt} {c c' : Compiler}, (∀ s ∈ stmts, StmtKeeps s) →
      (compileStmts stmts).run c = .ok ((), c') → StmtOk c c'
  | [], _, _, _, h => by
    obtain ⟨-, rfl⟩ := run_pure_ok h
    exact .refl _
  | s :: rest, c, c', hs, h => by
    obtain ⟨u, c₁, h₁, h₂⟩ := run_bind_ok h
    exact (hs s (.head _) _ _ h₁).trans (compileStmts_stmtOk (fun s' hs' => hs s' (.tail _ hs')) h₂)

/-- A block: its statements in order, then its `return`. -/
theorem block_keeps {stmts : List Stmt} {ret : Option Return} (hs : ∀ s ∈ stmts, StmtKeeps s)
    (hr : ∀ r ∈ ret, ReturnKeeps r) : BlockKeeps (.mk stmts ret line) := by
  intro c c' h
  unfold compileBlock at h
  obtain ⟨u, c₁, h₁, h₂⟩ := run_bind_ok h
  refine (compileStmts_stmtOk hs h₁).trans ?_
  split at h₂
  · exact (hr _ rfl _ _ h₂).stmtOk
  · obtain ⟨-, rfl⟩ := run_pure_ok h₂
    exact .refl _

/-- A nested function: its body, compiled on a function state of its own, keeps its frame, so the
function around it only gains the prototype and the `closure` into `a`. -/
theorem function_keeps {params : List String} {vararg : Bool} {blk : Block}
    (hb : BlockKeeps blk) : FuncKeeps (.mk params vararg blk line) := by
  intro a isMethod c c' h
  unfold compileFunction at h
  obtain ⟨u, c₁, h₁, h₂⟩ := run_bind_ok h
  obtain ⟨he, hu, -, -⟩ := openFunction_spec h₁
  obtain ⟨u, c₂, h₃, h₄⟩ := run_bind_ok h₂
  obtain ⟨u, c₃, h₅, h₆⟩ := run_bind_ok h₄
  exact leaveFunction_exprOk he hu ((hb _ _ h₃).toNesting.trans (emitReturn_balanced h₅).toNesting) h₆

end Compiler

end LuaBytecode
