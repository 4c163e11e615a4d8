import LuaBytecode.Proofs.Compiler.ControlFlow
/-!
# Structured chunks compiled

Every structured statement, list of statements and block implements its meaning, by structural
recursion on the tree as `compileStmt` recurses (`stmt_implements`, `stmts_implement`,
`block_implements`, with `clauses_implement` and `else_implements` for the parts of an `if`).
Each case applies the lemma of its construct from `SimpleStatements` and `ControlFlow`.

`structured_chunk_runs` runs a compiled structured chunk from the start of its main function. The
clock of the meaning bounds the rounds of every loop, and every round of a loop takes a step, so
the clock of a run that gives up is at most the steps the machine took: a block that runs out of
every clock makes the machine run out of every budget, and a block that ends, with its values or
its error, makes the machine end the same way once its budget is large enough.
-/

namespace LuaBytecode

/-- The clauses of an `if` read one at a time: the first one's block when its condition holds,
the others when it does not. -/
theorem Stmt.execClauses_cons_getD (call : VM.Call) (k : Nat) (ρ : Scope) (cond : Expr) (body : Block)
    (rest : List (Expr × Block)) (next : Flow) :
    (Stmt.execClauses call k ρ ((cond, body) :: rest)).getD next =
      Flow.ofOutcome (cond.test call ρ.value) fun b =>
        if b then (Block.exec call k ρ body).close ρ.length
        else (Stmt.execClauses call k ρ rest).getD next := by
  rw [Stmt.execClauses]
  cases cond.test call ρ.value with
  | error e => rfl
  | ok b => cases b <;> rfl

namespace FuncState

/-- The main function starts with no local, no loop and no code. -/
theorem Tracks.main (source : String) : Tracks [] (FuncState.main source) where
  aligned := ⟨rfl, fun i h => absurd h (Nat.not_lt_zero i)⟩
  names := rfl
  uncaptured := by simp [FuncState.main, FuncState.new]
  depth := by simp [FuncState.main, FuncState.new]
  loop := by simp [FuncState.main, FuncState.new]
  breaks := by simp [FuncState.breaks, FuncState.main, FuncState.new]
  settled := by simp [FuncState.main, FuncState.new]
  room := Nat.zero_le _

/-- Outside every loop there is no break. -/
theorem breaks_of_loops_size {fs : FuncState} (h : fs.loops.size = 0) : fs.breaks = [] := by
  rw [Array.size_eq_zero_iff] at h
  simp [FuncState.breaks, h]

end FuncState

namespace VM

variable {m m' : Machine} {n : Nat}

/-- A return reached after `n` steps that call nothing: every budget past them gives its values. -/
theorem runFunction_of_returns {vs : Array Value} (hs : Steps n m m') (hr : Returns m' vs) :
    ∀ fuel, n + 1 ≤ fuel → ∃ m'', (runFunction fuel).run m = .ok vs m'' := by
  intro fuel hf
  obtain ⟨f, rfl⟩ : ∃ f, fuel = f + 1 + n := ⟨fuel - n - 1, by omega⟩
  rw [runFunction_steps hs]
  exact runFunction_returns hr f

/-- A failure reached after `n` steps that call nothing: every budget past them gives it. -/
theorem runFunction_of_stops {e : Fault} (hs : Steps n m m') (hr : Stops m' e) :
    ∀ fuel, n + 1 ≤ fuel → ∃ m'', (runFunction fuel).run m = .error e m'' := by
  intro fuel hf
  obtain ⟨f, rfl⟩ : ∃ f, fuel = f + 1 + n := ⟨fuel - n - 1, by omega⟩
  rw [runFunction_steps hs]
  exact runFunction_stops hr f

end VM

namespace Compiler

open LuaBytecode.FuncState (Tracks Advances)

variable {names names₁ : List String}

/-- The clauses of an `if` after its first, with none left. -/
theorem clauses_nil_choose (call : VM.Call) (more : Bool) :
    ImplementsChoice names more (compileClauses more [])
      fun k ρ next => (Stmt.execClauses call k ρ []).getD next := by
  intro c c' js h hr
  unfold compileClauses at hr
  obtain ⟨rfl, rfl⟩ := run_pure_ok hr
  exact .nil h

/-- After a clause that needs no jump to the end, with no `else` block, no clause is left: the
clauses after it write no code. -/
theorem compileClauses_last {c c' : Compiler} {more : Bool} {rest : List (Expr × Block)}
    {exits : List Nat} (h : (compileClauses more rest).run c = .ok (exits, c'))
    (hn : (!rest.isEmpty || more) = false) : more = false ∧ c'.fs.code.size = c.fs.code.size := by
  obtain ⟨rfl, hm⟩ : rest = [] ∧ more = false := by simpa using hn
  unfold compileClauses at h
  obtain ⟨-, rfl⟩ := run_pure_ok h
  exact ⟨hm, rfl⟩

/-- The clauses of an `if` after its first: one clause, then the others. -/
theorem clauses_cons_choose (call : VM.Call) {cond : Expr} {body : Block}
    {rest : List (Expr × Block)} {more : Bool} (hc : cond.isOperatorTerm names.contains = true)
    (hb : Implements names names₁ (compileBlock body) fun k ρ => Block.exec call k ρ body)
    (hrest : ImplementsChoice names more (compileClauses more rest)
      fun k ρ next => (Stmt.execClauses call k ρ rest).getD next) :
    ImplementsChoice names more (compileClauses more ((cond, body) :: rest))
      fun k ρ next => (Stmt.execClauses call k ρ ((cond, body) :: rest)).getD next := by
  intro c c' js h hr
  unfold compileClauses at hr
  obtain ⟨exit, c₁, h₁, hr₁⟩ := run_bind_ok hr
  have hch₁ := clauseWith_chooses call hc hb h h₁
  obtain ⟨exits, c₂, h₂, hr₂⟩ := run_bind_ok hr₁
  have hch₂ := hrest c₁ c₂ exits hch₁.tracks h₂
  obtain ⟨rfl, rfl⟩ := run_pure_ok hr₂
  simp only [Stmt.execClauses_cons_getD]
  exact hch₁.append hch₂ (compileClauses_last h₂)

/-- An `if`: its first clause, the others, the `else` block, and every jump to the end pointed at
it. -/
theorem ifStmt_implements (call : VM.Call) {cond : Expr} {thenBody : Block}
    {elseifs : List (Expr × Block)} {elseBody : Option Block} {line : Nat}
    (hc : cond.isOperatorTerm names.contains = true)
    (hthen : Implements names names₁ (compileBlock thenBody) fun k ρ => Block.exec call k ρ thenBody)
    (hclauses : ImplementsChoice names elseBody.isSome (compileClauses elseBody.isSome elseifs)
      fun k ρ next => (Stmt.execClauses call k ρ elseifs).getD next)
    (helse : Implements names names (compileElse elseBody) fun k ρ => Stmt.execElse call k ρ elseBody) :
    Implements names names (compileStmt (.ifStmt cond thenBody elseifs elseBody line))
      fun k ρ => Stmt.exec call k ρ (.ifStmt cond thenBody elseifs elseBody line) := by
  intro c c' h hr
  change (ifWith (clauseWith cond (compileExpr cond) (compileBlock thenBody) thenBody.line
    (!elseifs.isEmpty || elseBody.isSome)) (compileClauses elseBody.isSome elseifs)
    (compileElse elseBody)).run c = _ at hr
  obtain ⟨exit, c₁, h₁, hr₁⟩ := run_bind_ok hr
  have hch₁ := clauseWith_chooses call hc hthen h h₁
  obtain ⟨exits, c₂, h₂, hr₂⟩ := run_bind_ok hr₁
  have hch₂ := hclauses c₁ c₂ exits hch₁.tracks h₂
  obtain ⟨u, c₃, h₃, hr₃⟩ := run_bind_ok hr₂
  obtain ⟨ht₃, ha₃, he₃⟩ := helse c₂ c₃ hch₂.tracks h₃
  obtain ⟨t, c₃', h₄, hr₄⟩ := run_bind_ok hr₃
  obtain ⟨rfl, hc₃⟩ := pc_spec h₄
  subst c₃'
  -- with no `else` block the clauses end the `if`
  have hend : elseBody.isSome = false → c₃.fs.code.size = c₂.fs.code.size := by
    intro hn
    obtain rfl : elseBody = none := by simpa using hn
    unfold compileElse at h₃
    obtain ⟨-, rfl⟩ := run_pure_ok h₃
    rfl
  exact (hch₁.append hch₂ (compileClauses_last h₂)).finish h ht₃ ha₃ he₃ hend hr₄

/-- A block: its statements, then its `return`, if any. -/
theorem block_mk_implements (call : VM.Call) {stmts : List Stmt} {ret : Option Return} {line : Nat}
    (hs : Implements names names₁ (compileStmts stmts) fun k ρ => Stmt.execAll call k ρ stmts)
    (hr : (ret.map (Return.structured names₁)).getD true = true) :
    Implements names names₁ (compileBlock (.mk stmts ret line))
      fun k ρ => Block.exec call k ρ (.mk stmts ret line) := by
  cases ret with
  | none => exact hs.bind implements_pure
  | some r => exact hs.bind (return_implements call hr)

/-- Statements in order. -/
theorem stmts_cons_implements (call : VM.Call) {s : Stmt} {rest : List Stmt} {names₂ : List String}
    (hs : Implements names names₁ (compileStmt s) fun k ρ => Stmt.exec call k ρ s)
    (hrest : Implements names₁ names₂ (compileStmts rest) fun k ρ => Stmt.execAll call k ρ rest) :
    Implements names names₂ (compileStmts (s :: rest)) fun k ρ => Stmt.execAll call k ρ (s :: rest) :=
  hs.bind hrest

/-! ## Every structured statement and block -/

mutual

/-- A structured statement implements its meaning. -/
theorem stmt_implements (call : VM.Call) (names : List String) (s : Stmt)
    (h : s.structured names = true) :
    Implements names (s.scope names) (compileStmt s) fun k ρ => Stmt.exec call k ρ s := by
  cases s with
  | localDecl ns values line => exact localDecl_implements call h
  | assign targets values line =>
    simp only [Stmt.structured, Bool.and_eq_true] at h
    exact assign_implements call h.1 h.2
  | doBlock body => exact scopedWith_implements (block_implements call names body h)
  | whileLoop cond body line =>
    simp only [Stmt.structured, Bool.and_eq_true] at h
    exact whileWith_implements call h.1 (block_implements call names body h.2)
  | repeatLoop body cond line =>
    simp only [Stmt.structured, Bool.and_eq_true] at h
    exact repeatWith_implements call h.2 (block_implements call names body h.1)
  | ifStmt cond thenBody elseifs elseBody line =>
    simp only [Stmt.structured, Bool.and_eq_true] at h
    obtain ⟨⟨⟨hc, ht⟩, hcs⟩, he⟩ := h
    exact ifStmt_implements call hc (block_implements call names thenBody ht)
      (clauses_implement call names _ elseifs hcs) (else_implements call names elseBody he)
  | breakStmt line => exact break_implements call
  | _ => exact absurd h (by simp [Stmt.structured])
  termination_by structural s

/-- Structured statements in order implement their meaning. -/
theorem stmts_implement (call : VM.Call) (names : List String) (ss : List Stmt)
    (h : Stmt.structuredAll names ss = true) :
    Implements names (Stmt.scopeAll names ss) (compileStmts ss)
      fun k ρ => Stmt.execAll call k ρ ss := by
  cases ss with
  | nil => exact implements_pure
  | cons s rest =>
    simp only [Stmt.structuredAll, Bool.and_eq_true] at h
    exact stmts_cons_implements call (stmt_implements call names s h.1)
      (stmts_implement call _ rest h.2)
  termination_by structural ss

/-- A structured block implements its meaning. -/
theorem block_implements (call : VM.Call) (names : List String) (b : Block)
    (h : b.structured names = true) :
    Implements names (Stmt.scopeAll names b.stmts) (compileBlock b)
      fun k ρ => Block.exec call k ρ b := by
  cases b with
  | mk stmts ret line =>
    simp only [Block.structured, Bool.and_eq_true] at h
    exact block_mk_implements call (stmts_implement call names stmts h.1) h.2
  termination_by structural b

/-- The structured clauses of an `if` after its first choose among themselves as they mean. -/
theorem clauses_implement (call : VM.Call) (names : List String) (more : Bool)
    (cs : List (Expr × Block)) (h : Stmt.structuredClauses names cs = true) :
    ImplementsChoice names more (compileClauses more cs)
      fun k ρ next => (Stmt.execClauses call k ρ cs).getD next := by
  cases cs with
  | nil => exact clauses_nil_choose call more
  | cons p rest =>
    obtain ⟨cond, body⟩ := p
    simp only [Stmt.structuredClauses, Bool.and_eq_true] at h
    exact clauses_cons_choose call h.1.1 (block_implements call names body h.1.2)
      (clauses_implement call names more rest h.2)
  termination_by structural cs

/-- The structured `else` block of an `if`, if any, implements its meaning. -/
theorem else_implements (call : VM.Call) (names : List String) (eb : Option Block)
    (h : Stmt.structuredElse names eb = true) :
    Implements names names (compileElse eb) fun k ρ => Stmt.execElse call k ρ eb := by
  cases eb with
  | none => exact implements_pure
  | some body => exact scopedWith_implements (block_implements call names body h)
  termination_by structural eb

end

/-! ## Chunks -/

/-- A structured chunk compiled and run from the start of its main function, on a machine that
holds no open cell: when its block, run with some clock, returns values or runs to its end, the
machine returns the same values, and when the block fails, the machine fails with the same error,
in both cases for every budget large enough; and when the block runs out of every clock, the
machine runs out of every budget. -/
theorem structured_chunk_runs (call : VM.Call) {b : Block} {source : String} {p : Proto}
    {lc : Closure} {m : Machine} (hb : b.structured [] = true) (hp : compile b source = .ok p)
    (hrun : m.Runs lc) (hlc : lc.proto = p) (hpc : m.frame.pc = 0)
    (hoc : m.frame.openCells = #[]) :
    (∀ k vs, b.answer call k = some (.ok vs) →
      ∃ n, ∀ fuel, n ≤ fuel → ∃ m', (VM.runFunction fuel).run m = .ok vs.toArray m') ∧
    (∀ k e, b.answer call k = some (.error e) →
      ∃ n, ∀ fuel, n ≤ fuel → ∃ m', (VM.runFunction fuel).run m = .error e m') ∧
    ((∀ k, b.answer call k = none) →
      ∀ fuel, ∃ m', (VM.runFunction fuel).run m = .error VM.budgetSpent m') := by
  unfold compile at hp
  obtain ⟨⟨q, c'⟩, hr, hq⟩ := except_bind_ok hp
  cases hq
  obtain ⟨u, c₁, h₁, h₂⟩ := run_bind_ok hr
  obtain ⟨ht₁, ha₁, he₁⟩ := block_implements call [] b hb _ _ (FuncState.Tracks.main source) h₁
  obtain ⟨u, c₂, h₃, h₄⟩ := run_bind_ok h₂
  obtain ⟨fs₂, hret, rfl⟩ := run_updateFs h₃
  obtain ⟨hfit, rfl⟩ := FuncState.emitABC_ok hret
  obtain ⟨fs, c₃, h₅, h₆⟩ := run_bind_ok h₄
  obtain ⟨rfl, rfl⟩ := run_readFs h₅
  obtain ⟨hfin, -⟩ := run_lift_ok h₆
  -- the main function holds all of its code, and the block's runs outside every loop
  have hpl := Placed.finish hfin
  rw [← hlc] at hpl
  have hbr : c₁.fs.breaks = [] :=
    FuncState.breaks_of_loops_size (ha₁.size.trans (by simp [FuncState.main, FuncState.new]))
  have hflow : ∀ k, Follows [] (Stmt.scopeAll [] b.stmts) c₁.fs.code.size [] k m
      (b.exec call k []) := by
    intro k
    rw [← hbr]
    exact he₁ k [] lc m rfl (fun _ h => absurd h List.not_mem_nil)
      (hpl.earlier (.emit' _ _ _) (Nat.zero_le _)) hrun hpc hoc trivial
  -- a block that runs to its end reaches the final `return`, of no value
  have hend : ∀ ρ m', Holds ρ m m' → m'.frame.pc = c₁.fs.code.size → VM.Returns m' #[] := by
    intro ρ m' hh hpc'
    simpa [FuncState.word32] using
      returns_emitted hfit (by decide) (hpl.earlier (.refl _) (Nat.zero_le _)) (hh.rest.runs hrun)
        hpc' ht₁.settled
  refine ⟨fun k vs hk => ?_, fun k e hk => ?_, fun hk fuel => ?_⟩
  · have hf := hflow k
    unfold Block.answer at hk
    generalize b.exec call k [] = r at hk hf
    cases r with
    | normal ρ =>
      obtain rfl : vs = [] := by simpa using hk.symm
      obtain ⟨n, m', hs, hh, hpc', -⟩ := hf
      exact ⟨n + 1, VM.runFunction_of_returns hs (hend ρ m' hh hpc')⟩
    | ret vs' =>
      obtain rfl : vs' = vs := by simpa using hk
      obtain ⟨n, m', hs, hr'⟩ := hf
      exact ⟨n + 1, VM.runFunction_of_returns hs hr'⟩
    | error e => simp at hk
    | brk ρ => simp at hk
    | timeout => simp at hk
  · have hf := hflow k
    unfold Block.answer at hk
    generalize b.exec call k [] = r at hk hf
    cases r with
    | error e' =>
      obtain rfl : e' = e := by simpa using hk
      obtain ⟨n, m', hs, hst⟩ := hf
      exact ⟨n + 1, VM.runFunction_of_stops hs hst⟩
    | normal ρ => simp at hk
    | ret vs => simp at hk
    | brk ρ => simp at hk
    | timeout => simp at hk
  · -- the clock of the block is the budget: a block that runs out of it has taken as many steps
    have hf := hflow fuel
    have hn := hk fuel
    unfold Block.answer at hn
    generalize b.exec call fuel [] = r at hn hf
    cases r with
    | timeout =>
      obtain ⟨n, m', hs, hle⟩ := hf
      exact VM.runFunction_exhausts hs hle
    | brk ρ =>
      obtain ⟨n, m', -, -, hq, -⟩ := hf
      exact absurd hq List.not_mem_nil
    | normal ρ => simp at hn
    | ret vs => simp at hn
    | error e => simp at hn

/-- `local x = 1; while x < 3 do x = x + 1 end; return x`, compiled and run as a main function,
returns `3`. -/
theorem count_to_three_runs :
    ∃ p, compile (.mk [.localDecl ["x"] [.int 1 1] 1,
        .whileLoop (.binop .lt (.name "x" 1) (.int 3 1) 1)
          (.mk [.assign [.name "x" 2] [.binop .add (.name "x" 2) (.int 1 2) 2] 2] none 2) 1]
        (some (.mk [.name "x" 3] 3)) 3) "" = .ok p ∧
      ∃ n, ∀ fuel, n ≤ fuel → ∃ m', (VM.runFunction fuel).run
        { frame := { running := some (.closure 0) }, closures := #[{ proto := p, cells := #[] }] } =
          .ok #[.int 3] m' := by
  have hok : (compile (.mk [.localDecl ["x"] [.int 1 1] 1,
      .whileLoop (.binop .lt (.name "x" 1) (.int 3 1) 1)
        (.mk [.assign [.name "x" 2] [.binop .add (.name "x" 2) (.int 1 2) 2] 2] none 2) 1]
      (some (.mk [.name "x" 3] 3)) 3) "").isOk = true := by decide +kernel
  revert hok
  cases hp : compile _ "" with
  | error e => exact fun hok => absurd hok (by simp [Except.isOk, Except.toBool])
  | ok p =>
    exact fun _ => ⟨p, rfl, (structured_chunk_runs (fun _ _ => pure ()) (by decide) hp
      ⟨0, rfl, rfl⟩ rfl rfl rfl).1 3 [.int 3] (by rfl)⟩

end Compiler

end LuaBytecode
