import LuaBytecode.Proofs.Compiler.BuiltStmts
/-!
# Compiled prototypes are well formed

Every prototype `Compiler.compile` produces, at every depth, is bytecode the machine can run
without the checks it does not make (`Proto.WellFormed`): a source line per instruction, a
closing `return`, registers for the parameters, jumps that land inside the code and not on an
`extraArg`, tests followed by their `jmp`, values left open up to top taken by the next
instruction and only by it, and constants that are in the pool, which holds each once.

The compiler writes its code a step at a time, and every step keeps the stack of functions
being written well built (`Compiler.WellBuilt`). One recursion over the syntax tree
(`compileExpr_builds` and its companions) says so for every expression, statement and block,
applying the lemma for each kind of node in `Compiler.BuiltExprs` and `Compiler.BuiltStmts` to
what it gives for the node's parts; a nested function is closed by `return` and frozen into a
well-formed prototype when it is left. The main chunk is then closed the same way
(`compile_wellFormed`).

The lists a statement compiles by themselves are handled here by induction on the list: the
values of a declaration or an assignment (`adjustValues_built`, which also counts the registers
they take), the targets of an assignment, the values of a `return` and the clauses of an `if`.
-/

namespace LuaBytecode

namespace Compiler

open Instruction

variable {line : Nat} {c c' : Compiler}

/-- Asked for no value or one, an expression leaves nothing open. -/
theorem BuildsInto.upToOne {e : Expr} (h : BuildsInto e) {n : Int} (hn : n = 0 ∨ n = 1) :
    IntoBuilt (fun a => compileExpr e a n) .free := by
  rcases hn with rfl | rfl
  · exact exprDemand_zero e ▸ h 0
  · exact h.one

/-! ## Lists of values and targets -/

/-- Values into fresh registers, from position `i` on: each value kept takes a register, and a
last multi-valued one that fills the values missing up to `nVars` takes all their registers. -/
theorem adjustValues_built {nVars kept : Nat} :
    ∀ {values : List Expr} {i : Nat} {c c' : Compiler} {filled : Bool},
      (∀ v ∈ values, BuildsInto v) → WellBuilt .free c →
      (adjustValues nVars kept line values i).run c = .ok (filled, c') →
        Built .free c c' ∧ c'.fs.usedRegs + i =
          c.fs.usedRegs + if filled then nVars else max i (min kept (i + values.length))
  | [], i, c, c', _, _, hw, h => by
    obtain ⟨rfl, rfl⟩ := run_pure_ok h
    refine ⟨.refl hw, ?_⟩
    simp only [Bool.false_eq_true, if_false, List.length_nil, Nat.add_zero]
    omega
  | v :: rest, i, c, c', filled, hv, hw, h => by
    simp only [adjustValues] at h
    have hrest : ∀ w ∈ rest, BuildsInto w := fun w hw => hv w (.tail _ hw)
    have hkeeps := (compileExpr_sound v).keeps
    split at h
    · obtain ⟨rfl, rfl⟩ := run_pure_ok h
      refine ⟨.refl hw, ?_⟩
      simp only [Bool.false_eq_true, if_false, List.length_cons]
      omega
    obtain ⟨r, c₁, h₁, h₂⟩ := run_bind_ok h
    obtain ⟨hb₁, hr⟩ := alloc_built hw h₁
    obtain ⟨rfl, hu₁, -, -⟩ := alloc_spec h₁
    split at h₂
    · -- every value is kept: it goes to its register, and the rest follow
      obtain ⟨u, c₂, h₃, h₄⟩ := run_bind_ok h₂
      have hb₂ := (hv v (.head _)).upToOne (by split <;> simp) _ _ _ (by omega) hb₁.wb h₃
      have hu₂ := (hkeeps _ _ _ _ (by omega) h₃).usedRegs
      obtain ⟨hb, hu⟩ := adjustValues_built hrest hb₂.wb h₄
      refine ⟨hb₁.trans (hb₂.trans hb), ?_⟩
      simp only [List.length_cons]
      cases filled <;> simp only [Bool.false_eq_true, if_false, if_true] at hu ⊢ <;> omega
    split at h₂
    · -- the last value kept fills the missing ones: their registers are taken after it
      rename_i hge hlast
      simp only [Bool.and_eq_true, beq_iff_eq] at hlast
      obtain ⟨u, c₂, h₃, h₄⟩ := run_bind_ok h₂
      have hb₂ := hv v (.head _) _ _ _ _ (by omega) hb₁.wb h₃
      have hu₂ := (hkeeps _ _ _ _ (by omega) h₃).usedRegs
      obtain ⟨first, c₃, h₅, h₆⟩ := run_bind_ok h₄
      obtain ⟨hb₃, -, hu₃⟩ := allocRegs_built hb₂.wb h₅
      obtain ⟨rfl, rfl⟩ := run_pure_ok h₆
      -- they fit under the top, so the count asked of the value is small enough to be exact
      have htop : c₃.fs.usedRegs ≤ 255 := hb₃.wb.fs.code.regs.top
      have hd : exprDemand v ((nVars - kept + 1 : Nat) : Int) = .free := by
        unfold exprDemand
        rw [if_pos hlast.2]
        exact topIf_succ (by omega)
      rw [hd] at hb₂ hb₃
      refine ⟨hb₁.trans (hb₂.trans hb₃), ?_⟩
      simp only [if_true]
      omega
    · obtain ⟨u, c₂, h₃, h₄⟩ := run_bind_ok h₂
      have hb₂ := (hv v (.head _)).one _ _ _ (by omega) hb₁.wb h₃
      have hu₂ := (hkeeps _ _ _ _ (by omega) h₃).usedRegs
      obtain ⟨hb, hu⟩ := adjustValues_built hrest hb₂.wb h₄
      refine ⟨hb₁.trans (hb₂.trans hb), ?_⟩
      simp only [List.length_cons]
      cases filled <;> simp only [Bool.false_eq_true, if_false, if_true] at hu ⊢ <;> omega

/-- No more values are kept than are given. -/
theorem keptValues_le (nVars : Nat) (values : List Expr) : keptValues nVars values ≤ values.length := by
  unfold keptValues
  dsimp only
  split <;> omega

/-- The values of a declaration or an assignment take one register each for the values kept,
or `nVars` when a last multi-valued one fills the rest. -/
theorem adjustValues_fills {nVars : Nat} {values : List Expr} {filled : Bool}
    (hv : ∀ v ∈ values, BuildsInto v) (hw : WellBuilt .free c)
    (h : (adjustValues nVars (keptValues nVars values) line values 0).run c = .ok (filled, c')) :
    Built .free c c' ∧
      c'.fs.usedRegs = c.fs.usedRegs + if filled then nVars else keptValues nVars values := by
  obtain ⟨hb, hu⟩ := adjustValues_built hv hw h
  have hle := keptValues_le nVars values
  refine ⟨hb, ?_⟩
  cases filled <;> simp only [Bool.false_eq_true, if_false, if_true] at hu ⊢ <;> omega

/-- The targets of an assignment: a table and its key are evaluated into fresh registers, a name
is only looked up. -/
theorem resolveTargets_built :
    ∀ {targets : List Expr} {c c' : Compiler} {resolved : List Target},
      (∀ t ∈ targets, PartsBuild t) → WellBuilt .free c →
      (resolveTargets targets).run c = .ok (resolved, c') →
        Built .free c c' ∧ resolved.length = targets.length ∧ ∀ t ∈ resolved, t.KeyFits
  | [], _, _, _, _, hw, h => by
    obtain ⟨rfl, rfl⟩ := run_pure_ok h
    exact ⟨.refl hw, rfl, fun _ h => by cases h⟩
  | t :: rest, c, c', _, ht, hw, h => by
    rw [resolveTargets.eq_def] at h
    obtain ⟨target, c₁, h₁, h₂⟩ := run_bind_ok h
    obtain ⟨more, c₂, h₃, h₄⟩ := run_bind_ok h₂
    obtain ⟨rfl, rfl⟩ := run_pure_ok h₄
    have hpt := ht t (.head _)
    have hb₁ : Built .free c c₁ ∧ target.KeyFits := by
      split at h₁
      · exact nameTarget_built hw h₁
      · obtain ⟨htb, hky⟩ : BuildsInto _ ∧ BuildsInto _ := hpt
        obtain ⟨tr, c₃, -, hb₃, h₅⟩ := fresh_built htb.one hw h₁
        obtain ⟨kr, c₄, hkr, hb₄, h₆⟩ := fresh_built hky.one hb₃.wb h₅
        obtain ⟨rfl, rfl⟩ := run_pure_ok h₆
        exact ⟨hb₃.trans hb₄, show kr < 256 by omega⟩
      · obtain ⟨tr, c₃, -, hb₃, h₅⟩ := fresh_built (hpt : BuildsInto _).one hw h₁
        obtain ⟨kr, c₄, hkr, hb₄, h₆⟩ := fresh_built (loadK_built _) hb₃.wb h₅
        obtain ⟨rfl, rfl⟩ := run_pure_ok h₆
        exact ⟨hb₃.trans hb₄, show kr < 256 by omega⟩
      · exact absurd h₁ run_throw_ne
    obtain ⟨hb₂, hlen, hfits⟩ := resolveTargets_built (fun t' ht' => ht t' (.tail _ ht')) hb₁.1.wb h₃
    refine ⟨hb₁.1.trans hb₂, by simp [hlen], fun t' ht' => ?_⟩
    rcases List.mem_cons.mp ht' with rfl | ht'
    · exact hb₁.2
    · exact hfits t' ht'

/-- The values of a general `return`, each into the next register; the last one is left open
when it is a call or `...`. -/
theorem compileReturnValues_built :
    ∀ {values : List Expr} {c c' : Compiler}, (∀ v ∈ values, BuildsInto v) → WellBuilt .free c →
      (compileReturnValues line values).run c = .ok ((), c') →
        Built (if values.getLast?.any Expr.isMultiValued then .top else .free) c c'
  | [], _, _, _, hw, h => by
    obtain ⟨-, rfl⟩ := run_pure_ok h
    exact .refl hw
  | [v], c, c', hv, hw, h => by
    obtain ⟨r, c₁, h₁, h₂⟩ := run_bind_ok h
    obtain ⟨hb₁, hr⟩ := alloc_built hw h₁
    have hb₂ := hv v (List.mem_singleton_self v) _ _ _ _ (by omega) hb₁.wb h₂
    rw [exprDemand_last id] at hb₂
    exact hb₁.trans hb₂
  | v :: w :: rest, c, c', hv, hw, h => by
    obtain ⟨r, c₁, -, hb₁, h₂⟩ := fresh_built (hv v (.head _)).one hw h
    rw [List.getLast?_cons_cons]
    exact hb₁.trans (compileReturnValues_built (fun x hx => hv x (.tail _ hx)) hb₁.wb h₂)

/-! ## `return` -/

/-- A tail call from a fresh register, whose results `return` takes up to top. -/
theorem tailReturn_built {line' : Nat} {call : Nat → CompileM Unit} (hcall : IntoBuilt call .top)
    (hw : WellBuilt .free c)
    (h : (do let a ← alloc line; call a; free; updateFs (·.emitReturn a (-1) line')).run c =
      .ok ((), c')) : Built .free c c' := by
  obtain ⟨a, c₁, h₁, h₂⟩ := run_bind_ok h
  obtain ⟨hb₁, ha⟩ := alloc_built hw h₁
  obtain ⟨u, c₂, h₃, h₄⟩ := run_bind_ok h₂
  have hb₂ := hcall a _ _ (by omega) hb₁.wb h₃
  obtain ⟨u, c₃, h₅, h₆⟩ := run_bind_ok h₄
  have hb₃ := free_built hb₂.wb h₅
  refine hb₁.trans (hb₂.trans (hb₃.trans (emitReturn_built ?_ h₆)))
  exact hb₃.wb

/-- A `return`: of nothing, of a local in place, of a tail call, whose results it takes up to
top, or of values in fresh registers, the last one left open when it is a call or `...`. -/
theorem return_built {values : List Expr} (hv : ∀ v ∈ values, ExprBuilds v) :
    Builds (compileReturn (.mk values line)) := by
  intro c c' hw h
  unfold compileReturn at h
  split at h
  · refine emitReturn_built ?_ h
    exact hw
  split at h
  · split at h
    · obtain ⟨hf, hargs⟩ : BuildsInto _ ∧ ∀ x ∈ _, BuildsInto x :=
        (hv _ (List.mem_singleton_self _)).parts
      exact tailReturn_built (fun _ _ _ ha hw₀ he => call_built (t := true) hf hargs ha hw₀ he) hw h
    · obtain ⟨hobj, hargs⟩ : BuildsInto _ ∧ ∀ x ∈ _, BuildsInto x :=
        (hv _ (List.mem_singleton_self _)).parts
      exact tailReturn_built (fun _ _ _ ha hw₀ he => method_built (t := true) hobj hargs ha hw₀ he)
        hw h
    · obtain ⟨-, rfl⟩ := run_pure_ok h
      exact .refl hw
  obtain ⟨slot, c₁, h₁, h₂⟩ := run_bind_ok h
  obtain rfl := singleLocal_eq h₁
  split at h₂
  · refine emitReturn_built ?_ h₂
    exact hw
  · dsimp only at h₂
    obtain ⟨u, c₂, h₃, h₄⟩ := run_bind_ok h₂
    have hb₂ := compileReturnValues_built (fun v hv' => (hv v hv').into) hw h₃
    obtain ⟨u, c₃, h₅, h₆⟩ := run_bind_ok h₄
    obtain ⟨hb₃, hn⟩ := freeN_built hb₂.wb h₅
    obtain ⟨base, c₄, h₇, h₈⟩ := run_bind_ok h₆
    obtain ⟨rfl, rfl⟩ := run_readFs h₇
    refine hb₂.trans (hb₃.trans (emitReturn_built ?_ h₈))
    -- `return` takes the values up to top exactly when the last one was left open
    have hw₃ := hb₃.wb
    cases hl : values.getLast? with
    | none =>
      simp only [hl, Option.any_none, Bool.false_eq_true, if_false] at hw₃ ⊢
      rwa [topIf_succ hn]
    | some v =>
      simp only [hl, Option.any_some] at hw₃ ⊢
      by_cases hm : v.isMultiValued = true
      · simp only [hm, if_true] at hw₃ ⊢
        exact hw₃
      · simp only [hm, Bool.false_eq_true, if_false] at hw₃ ⊢
        rwa [topIf_succ hn]

/-! ## Statements -/

theorem compileClauses_built {hasElse : Bool} :
    ∀ {clauses : List (Expr × Block)} {c c' : Compiler} {exits : List Nat},
      (∀ p ∈ clauses, ExprBuilds p.1 ∧ Builds (compileBlock p.2)) → WellBuilt .free c →
      (compileClauses hasElse clauses).run c = .ok (exits, c') →
        Built .free c c' ∧ ∀ j ∈ exits, c'.fs.JumpAt j
  | [], _, _, _, _, hw, h => by
    obtain ⟨rfl, rfl⟩ := run_pure_ok h
    exact ⟨.refl hw, fun _ hj => by cases hj⟩
  | (cond, body) :: rest, c, c', _, hcl, hw, h => by
    rw [compileClauses] at h
    obtain ⟨hc, hb⟩ := hcl (cond, body) (.head _)
    obtain ⟨exit, c₁, h₁, h₂⟩ := run_bind_ok h
    obtain ⟨hb₁, hexit⟩ := clauseWith_built hc.condBuilds hb hw h₁
    obtain ⟨exits, c₂, h₃, h₄⟩ := run_bind_ok h₂
    obtain ⟨hb₂, hexits⟩ := compileClauses_built (fun p hp => hcl p (.tail _ hp)) hb₁.wb h₃
    obtain ⟨rfl, rfl⟩ := run_pure_ok h₄
    refine ⟨hb₁.trans hb₂, fun j hj => ?_⟩
    rcases List.mem_append.mp hj with hj | hj
    · exact hb₂.ext.jumpAt (hexit j (Option.mem_toList.mp hj))
    · exact hexits j hj

theorem localDecl_builds {names : List String} {values : List Expr}
    (hv : ∀ v ∈ values, BuildsInto v) : Builds (compileStmt (.localDecl names values line)) :=
  fun _ _ hw h => localWith_built (fun _ _ _ hw₀ he => (adjustValues_built hv hw₀ he).1) _ _ hw h

theorem assign_builds {targets values : List Expr} (ht : ∀ t ∈ targets, PartsBuild t)
    (hv : ∀ v ∈ values, BuildsInto v) : Builds (compileStmt (.assign targets values line)) :=
  fun _ _ hw h => assignWith_built (fun _ _ _ hw₀ he => resolveTargets_built ht hw₀ he)
    (fun _ _ _ hw₀ he => adjustValues_fills hv hw₀ he) _ _ hw h

theorem callStmt_builds {e : Expr} (he : BuildsInto e) : Builds (compileStmt (.callStmt e)) :=
  callStmtWith_built (he.upToOne (.inl rfl))

theorem doBlock_builds {b : Block} (hb : Builds (compileBlock b)) :
    Builds (compileStmt (.doBlock b)) :=
  scopedWith_built hb

theorem whileLoop_builds {cond : Expr} {b : Block} (hc : ExprBuilds cond)
    (hb : Builds (compileBlock b)) : Builds (compileStmt (.whileLoop cond b line)) :=
  whileWith_built hc.condBuilds hb

theorem repeatLoop_builds {cond : Expr} {b : Block} (hc : ExprBuilds cond)
    (hb : Builds (compileBlock b)) : Builds (compileStmt (.repeatLoop b cond line)) :=
  repeatWith_built hc.condBuilds hb

theorem ifStmt_builds {cond : Expr} {thenBody : Block} {elseifs : List (Expr × Block)}
    {elseBody : Option Block} (hc : ExprBuilds cond) (ht : Builds (compileBlock thenBody))
    (hei : ∀ p ∈ elseifs, ExprBuilds p.1 ∧ Builds (compileBlock p.2))
    (he : Builds (compileElse elseBody)) :
    Builds (compileStmt (.ifStmt cond thenBody elseifs elseBody line)) :=
  ifWith_built (fun _ _ _ hw h => clauseWith_built hc.condBuilds ht hw h)
    (fun _ _ _ hw h => compileClauses_built hei hw h) he

theorem numericFor_builds {var : String} {start limit : Expr} {step : Option Expr} {b : Block}
    (hs : BuildsInto start) (hl : BuildsInto limit) (hst : IntoBuilt (compileStep step line) .free)
    (hb : Builds (compileBlock b)) : Builds (compileStmt (.numericFor var start limit step b line)) :=
  numericForWith_built (fun _ _ hw h => intoFresh_built (List.forall_mem_cons.mpr ⟨hs.one,
    List.forall_mem_cons.mpr ⟨hl.one, List.forall_mem_singleton.mpr hst⟩⟩) hw h) hb

theorem genericFor_builds {vars : List String} {exprs : List Expr} {b : Block}
    (he : ∀ e ∈ exprs, BuildsInto e) (hb : Builds (compileBlock b)) :
    Builds (compileStmt (.genericFor vars exprs b line)) :=
  genericForWith_built (fun _ _ _ hw h => (adjustValues_built he hw h).1) hb

theorem functionDef_builds {path : List String} {method : Option String} {body : FuncBody}
    (hb : FuncBuilds body) : Builds (compileStmt (.functionDef path method body line)) :=
  functionDefWith_built fun isMethod a _ _ _ hw h => hb a isMethod _ _ hw h

/-- `local function name ... end`: the name declared first, at the next register, which the
function is then compiled into. -/
theorem localFunction_builds {name : String} {body : FuncBody} (hb : FuncBuilds body) :
    Builds (compileStmt (.localFunction name body line)) := by
  intro c c' hw h
  obtain ⟨r, c₁, h₁, h₂⟩ := run_bind_ok h
  have hb₁ := (addLocal_built hw h₁).1
  exact hb₁.trans (hb _ _ _ _ hb₁.wb h₂)

theorem breakStmt_builds : Builds (compileStmt (.breakStmt line)) :=
  fun _ _ hw h => addBreak_built hw h

theorem gotoStmt_builds {label : String} : Builds (compileStmt (.gotoStmt label line)) :=
  fun _ _ _ h => absurd h run_throw_ne

theorem labelStmt_builds {name : String} : Builds (compileStmt (.labelStmt name line)) :=
  fun _ _ _ h => absurd h run_throw_ne

/-- The `else` block, in a scope of its own. -/
theorem compileElse_built {elseBody : Option Block} (hb : ∀ b ∈ elseBody, Builds (compileBlock b)) :
    Builds (compileElse elseBody) := by
  intro c c' hw h
  rw [compileElse.eq_def] at h
  split at h
  · exact scopedWith_built (hb _ rfl) _ _ hw h
  · obtain ⟨-, rfl⟩ := run_pure_ok h
    exact .refl hw

/-- The step of a numeric `for`, `1` when it is left out. -/
theorem compileStep_built {step : Option Expr} (hs : ∀ e ∈ step, BuildsInto e) :
    IntoBuilt (compileStep step line) .free := by
  intro r c c' hr hw h
  rw [compileStep.eq_def] at h
  split at h
  · exact (hs _ rfl).one r c c' hr hw h
  · exact loadK_built _ r c c' hr hw h

/-! ## Blocks and functions -/

theorem compileStmts_built :
    ∀ {stmts : List Stmt}, (∀ s ∈ stmts, Builds (compileStmt s)) → Builds (compileStmts stmts)
  | [], _, _, _, hw, h => by
    obtain ⟨-, rfl⟩ := run_pure_ok h
    exact .refl hw
  | s :: rest, hs, c, c', hw, h => by
    obtain ⟨u, c₁, h₁, h₂⟩ := run_bind_ok h
    have hb₁ := hs s (.head _) _ _ hw h₁
    exact hb₁.trans (compileStmts_built (fun s' hs' => hs s' (.tail _ hs')) _ _ hb₁.wb h₂)

/-- A block: its statements in order, then its `return`. -/
theorem block_builds {stmts : List Stmt} {ret : Option Return}
    (hs : ∀ s ∈ stmts, Builds (compileStmt s)) (hr : ∀ r ∈ ret, Builds (compileReturn r)) :
    Builds (compileBlock (.mk stmts ret line)) := by
  intro c c' hw h
  unfold compileBlock at h
  obtain ⟨u, c₁, h₁, h₂⟩ := run_bind_ok h
  have hb₁ := compileStmts_built hs _ _ hw h₁
  refine hb₁.trans ?_
  split at h₂
  · exact hr _ rfl _ _ hb₁.wb h₂
  · obtain ⟨-, rfl⟩ := run_pure_ok h₂
    exact .refl hb₁.wb

/-- A nested function: its body, on a function state of its own, closed by `return` and frozen
into a prototype of the function around it, which then asks nothing. -/
theorem function_builds {params : List String} {vararg : Bool} {blk : Block}
    (hb : Builds (compileBlock blk)) : FuncBuilds (.mk params vararg blk line) := by
  intro a isMethod c c' hw h
  unfold compileFunction at h
  obtain ⟨u, c₁, h₁, h₂⟩ := run_bind_ok h
  obtain ⟨hw₁, he⟩ := openFunction_built hw h₁
  obtain ⟨u, c₂, h₃, h₄⟩ := run_bind_ok h₂
  have hb₂ := hb _ _ hw₁ h₃
  obtain ⟨u, c₃, h₅, h₆⟩ := run_bind_ok h₄
  obtain ⟨fs₃, hr, rfl⟩ := run_updateFs h₅
  exact leaveFunction_built he hb₂ hr h₆

/-! ## The recursion over the tree -/

mutual

theorem compileExpr_builds (e : Expr) : ExprBuilds e :=
  match e with
  | .nil _ => .of_into nil_builds rfl trivial rfl rfl
  | .bool _ _ => .of_into bool_builds rfl trivial rfl rfl
  | .int _ _ => .of_into int_builds rfl trivial rfl rfl
  | .float _ _ => .of_into float_builds rfl trivial rfl rfl
  | .str _ _ => .of_into str_builds rfl trivial rfl rfl
  | .vararg _ => .of_into vararg_builds rfl trivial rfl rfl
  | .name _ _ => .of_into name_builds rfl trivial rfl rfl
  | .paren inner _ => .of_into (paren_builds (compileExpr_builds inner).into) rfl trivial rfl rfl
  | .binop _ lhs rhs _ => binop_builds (compileExpr_builds lhs).into (compileExpr_builds rhs)
  | .unop _ operand _ =>
    .of_into (unop_builds (compileExpr_builds operand).into) rfl trivial rfl rfl
  | .index t k _ =>
    have ht := (compileExpr_builds t).into
    have hk := (compileExpr_builds k).into
    .of_into (index_builds ht hk) rfl ⟨ht, hk⟩ rfl rfl
  | .field t _ _ =>
    have ht := (compileExpr_builds t).into
    .of_into (field_builds ht) rfl ht rfl rfl
  | .call f args _ =>
    have hf := (compileExpr_builds f).into
    have hargs := fun x hx => (exprs_build args x hx).into
    .of_into (call_builds hf hargs) rfl ⟨hf, hargs⟩ rfl rfl
  | .method obj _ args _ =>
    have hobj := (compileExpr_builds obj).into
    have hargs := fun x hx => (exprs_build args x hx).into
    .of_into (method_builds hobj hargs) rfl ⟨hobj, hargs⟩ rfl rfl
  | .func body => .of_into (func_builds (compileFunction_builds body)) rfl trivial rfl rfl
  | .table fields _ => .of_into (table_builds (tableFields_build fields)) rfl trivial rfl rfl
  termination_by structural e

theorem exprs_build (es : List Expr) : ∀ e ∈ es, ExprBuilds e :=
  match es with
  | [] => nofun
  | e :: rest => List.forall_mem_cons.mpr ⟨compileExpr_builds e, exprs_build rest⟩
  termination_by structural es

theorem tableField_builds (f : Field) : FieldBuilds f :=
  match f with
  | .keyed k v => ⟨(compileExpr_builds k).into, (compileExpr_builds v).into⟩
  | .named _ v => (compileExpr_builds v).into
  | .positional v => (compileExpr_builds v).into
  termination_by structural f

theorem tableFields_build (fs : List Field) : ∀ f ∈ fs, FieldBuilds f :=
  match fs with
  | [] => nofun
  | f :: rest => List.forall_mem_cons.mpr ⟨tableField_builds f, tableFields_build rest⟩
  termination_by structural fs

theorem compileFunction_builds (body : FuncBody) : FuncBuilds body :=
  match body with
  | .mk _ _ blk _ => function_builds (compileBlock_builds blk)
  termination_by structural body

theorem compileBlock_builds (b : Block) : Builds (compileBlock b) :=
  match b with
  | .mk stmts ret _ => block_builds (stmts_build stmts) (ret_builds ret)
  termination_by structural b

theorem stmts_build (ss : List Stmt) : ∀ s ∈ ss, Builds (compileStmt s) :=
  match ss with
  | [] => nofun
  | s :: rest => List.forall_mem_cons.mpr ⟨compileStmt_builds s, stmts_build rest⟩
  termination_by structural ss

theorem ret_builds (ret : Option Return) : ∀ r ∈ ret, Builds (compileReturn r) :=
  match ret with
  | some r => fun _ h => Option.some.inj h ▸ compileReturn_builds r
  | none => nofun
  termination_by structural ret

theorem compileReturn_builds (r : Return) : Builds (compileReturn r) :=
  match r with
  | .mk values _ => return_built (exprs_build values)
  termination_by structural r

theorem clauses_build (cs : List (Expr × Block)) :
    ∀ p ∈ cs, ExprBuilds p.1 ∧ Builds (compileBlock p.2) :=
  match cs with
  | [] => nofun
  | (cond, body) :: rest => List.forall_mem_cons.mpr
      ⟨⟨compileExpr_builds cond, compileBlock_builds body⟩, clauses_build rest⟩
  termination_by structural cs

theorem else_builds (elseBody : Option Block) : ∀ b ∈ elseBody, Builds (compileBlock b) :=
  match elseBody with
  | some b => fun _ h => Option.some.inj h ▸ compileBlock_builds b
  | none => nofun
  termination_by structural elseBody

theorem step_builds (step : Option Expr) : ∀ e ∈ step, BuildsInto e :=
  match step with
  | some e => fun _ h => Option.some.inj h ▸ (compileExpr_builds e).into
  | none => nofun
  termination_by structural step

theorem compileStmt_builds (s : Stmt) : Builds (compileStmt s) :=
  match s with
  | .localDecl _ values _ => localDecl_builds fun v hv => (exprs_build values v hv).into
  | .assign targets values _ =>
    assign_builds (fun t ht => (exprs_build targets t ht).parts)
      (fun v hv => (exprs_build values v hv).into)
  | .callStmt e => callStmt_builds (compileExpr_builds e).into
  | .doBlock b => doBlock_builds (compileBlock_builds b)
  | .whileLoop cond b _ => whileLoop_builds (compileExpr_builds cond) (compileBlock_builds b)
  | .repeatLoop b cond _ => repeatLoop_builds (compileExpr_builds cond) (compileBlock_builds b)
  | .ifStmt cond t elseifs elseBody _ =>
    ifStmt_builds (compileExpr_builds cond) (compileBlock_builds t) (clauses_build elseifs)
      (compileElse_built (else_builds elseBody))
  | .numericFor _ start limit step b _ =>
    numericFor_builds (compileExpr_builds start).into (compileExpr_builds limit).into
      (compileStep_built (step_builds step)) (compileBlock_builds b)
  | .genericFor _ exprs b _ =>
    genericFor_builds (fun e he => (exprs_build exprs e he).into) (compileBlock_builds b)
  | .functionDef _ _ body _ => functionDef_builds (compileFunction_builds body)
  | .localFunction _ body _ => localFunction_builds (compileFunction_builds body)
  | .breakStmt _ => breakStmt_builds
  | .gotoStmt _ _ => gotoStmt_builds
  | .labelStmt _ _ => labelStmt_builds
  termination_by structural s

end

/-! ## Whole chunks -/

/-- The compiler starts from the main chunk's function, sound and asking nothing, with no
function around it. -/
theorem wellBuilt_main (source : String) :
    WellBuilt .free { fs := FuncState.main source, enclosing := #[], source } :=
  ⟨.main source, fun _ h => absurd h (Nat.not_lt_zero _)⟩

/-- Every prototype a chunk compiles to is well formed, at every depth: a source line per
instruction and a closing `return`; registers for at least two values and for the parameters;
jumps that land inside the code and never on the `extraArg` word of the instruction before;
tests followed by their `jmp`; a skipping `loadbool` followed by an instruction; values left
open up to top taken by the next instruction, and taken only there; constants named by
instructions and by the word after a `loadkx` in the pool, which holds each constant once. -/
theorem compile_wellFormed {block : Block} {source : String} {p : Proto}
    (h : compile block source = .ok p) : p.Every Proto.WellFormed := by
  unfold compile at h
  obtain ⟨⟨q, c'⟩, hrun, hp⟩ := except_bind_ok h
  cases hp
  obtain ⟨_, c₁, h₁, h₂⟩ := run_bind_ok hrun
  have hb₁ := compileBlock_builds block _ _ (wellBuilt_main source) h₁
  obtain ⟨_, c₂, h₃, h₄⟩ := run_bind_ok h₂
  obtain ⟨fs₂, hr, rfl⟩ := run_updateFs h₃
  obtain ⟨fs, c₃, h₅, h₆⟩ := run_bind_ok h₄
  obtain ⟨rfl, rfl⟩ := run_readFs h₅
  obtain ⟨hfin, -⟩ := run_lift_ok h₆
  exact hb₁.wb.fs.finish hr hfin

/-- A `while` loop with a comparison, a conditional `break` and an assignment, then a `return` of
a local: the chunk compiles, so its prototype is well formed. -/
theorem compile_wellFormed_loop :
    ∃ p, compile (.mk [.localDecl ["i"] [.int 0 1] 1,
      .whileLoop (.binop .lt (.name "i" 2) (.int 3 2) 2)
        (.mk [.ifStmt (.name "x" 3) (.mk [.breakStmt 3] none 3) [] none 3,
          .assign [.name "i" 4] [.binop .add (.name "i" 4) (.int 1 4) 4] 4] none 5) 2]
      (some (.mk [.name "i" 6] 6)) 6) "loop" = .ok p ∧ p.Every Proto.WellFormed :=
  Exists.imp (fun _ hp => ⟨hp, compile_wellFormed hp⟩) (exists_ok_of_isOk (by decide +kernel))

end Compiler

end LuaBytecode
