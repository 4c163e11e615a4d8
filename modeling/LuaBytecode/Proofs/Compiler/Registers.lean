import LuaBytecode.Proofs.Compiler.Statements
/-!
# The register discipline of the compiler

Every register the compiler allocates is either a local's or a temporary, and temporaries are
taken from the top and given back in reverse order. Two facts say so for every syntax tree:

* at every statement boundary the registers in use are exactly those of the locals, the `i`-th
  local in register `i` (`FuncState.Aligned`): a function starts so, with `self` and its
  parameters as its first locals, and every statement keeps it so;
* compiling an expression into a register `a` in use gives back every register it takes, keeps
  the locals, and writes only registers from `a` up, reading below `a` only locals.

Both come from one recursion over the tree (`compileExpr_sound` and its companions), which
applies the lemma for each kind of node in `Compiler.Expressions` and `Compiler.Statements` to
what the recursion gives for the node's parts.
-/

namespace LuaBytecode

namespace Compiler

mutual

theorem compileExpr_sound (e : Expr) : Sound e :=
  match e with
  | .nil _ => .of_keeps nil_keeps trivial rfl rfl
  | .bool _ _ => .of_keeps bool_keeps trivial rfl rfl
  | .int _ _ => .of_keeps int_keeps trivial rfl rfl
  | .float _ _ => .of_keeps float_keeps trivial rfl rfl
  | .str _ _ => .of_keeps str_keeps trivial rfl rfl
  | .vararg _ => .of_keeps vararg_keeps trivial rfl rfl
  | .name _ _ => .of_keeps name_keeps trivial rfl rfl
  | .paren inner _ => .of_keeps (paren_keeps (compileExpr_sound inner).keeps) trivial rfl rfl
  | .binop _ lhs rhs _ => binop_sound (compileExpr_sound lhs).keeps (compileExpr_sound rhs)
  | .unop _ operand _ => .of_keeps (unop_keeps (compileExpr_sound operand).keeps) trivial rfl rfl
  | .index t k _ =>
    have ht := (compileExpr_sound t).keeps
    have hk := (compileExpr_sound k).keeps
    .of_keeps (index_keeps ht hk) ⟨ht, hk⟩ rfl rfl
  | .field t _ _ =>
    have ht := (compileExpr_sound t).keeps
    .of_keeps (field_keeps ht) ht rfl rfl
  | .call f args _ =>
    have hf := (compileExpr_sound f).keeps
    have hargs := fun x hx => (exprs_sound args x hx).keeps
    .of_keeps (call_keeps hf hargs) ⟨hf, hargs⟩ rfl rfl
  | .method obj _ args _ =>
    have hobj := (compileExpr_sound obj).keeps
    have hargs := fun x hx => (exprs_sound args x hx).keeps
    .of_keeps (method_keeps hobj hargs) ⟨hobj, hargs⟩ rfl rfl
  | .func body => .of_keeps (func_keeps (compileFunction_keeps body)) trivial rfl rfl
  | .table fields _ => .of_keeps (table_keeps (tableFields_keep fields)) trivial rfl rfl
  termination_by structural e

theorem exprs_sound (es : List Expr) : ∀ e ∈ es, Sound e :=
  match es with
  | [] => nofun
  | e :: rest => List.forall_mem_cons.mpr ⟨compileExpr_sound e, exprs_sound rest⟩
  termination_by structural es

theorem tableField_keeps (f : Field) : FieldKeeps f :=
  match f with
  | .keyed k v => ⟨(compileExpr_sound k).keeps, (compileExpr_sound v).keeps⟩
  | .named _ v => (compileExpr_sound v).keeps
  | .positional v => (compileExpr_sound v).keeps
  termination_by structural f

theorem tableFields_keep (fs : List Field) : ∀ f ∈ fs, FieldKeeps f :=
  match fs with
  | [] => nofun
  | f :: rest => List.forall_mem_cons.mpr ⟨tableField_keeps f, tableFields_keep rest⟩
  termination_by structural fs

theorem compileFunction_keeps (body : FuncBody) : FuncKeeps body :=
  match body with
  | .mk _ _ blk _ => function_keeps (compileBlock_keeps blk)
  termination_by structural body

theorem compileBlock_keeps (b : Block) : BlockKeeps b :=
  match b with
  | .mk stmts ret _ => block_keeps (stmts_keep stmts) (ret_keeps ret)
  termination_by structural b

theorem stmts_keep (ss : List Stmt) : ∀ s ∈ ss, StmtKeeps s :=
  match ss with
  | [] => nofun
  | s :: rest => List.forall_mem_cons.mpr ⟨compileStmt_keeps s, stmts_keep rest⟩
  termination_by structural ss

theorem ret_keeps (ret : Option Return) : ∀ r ∈ ret, ReturnKeeps r :=
  match ret with
  | some r => fun _ h => Option.some.inj h ▸ compileReturn_keeps r
  | none => nofun
  termination_by structural ret

theorem compileReturn_keeps (r : Return) : ReturnKeeps r :=
  match r with
  | .mk values _ => fun _ _ h => return_balanced (exprs_sound values) h
  termination_by structural r

theorem clauses_keep (cs : List (Expr × Block)) : ∀ p ∈ cs, KeepsTo p.1 ∧ BlockKeeps p.2 :=
  match cs with
  | [] => nofun
  | (cond, body) :: rest => List.forall_mem_cons.mpr
      ⟨⟨(compileExpr_sound cond).keeps, compileBlock_keeps body⟩, clauses_keep rest⟩
  termination_by structural cs

theorem else_keeps (elseBody : Option Block) : ∀ b ∈ elseBody, BlockKeeps b :=
  match elseBody with
  | some b => fun _ h => Option.some.inj h ▸ compileBlock_keeps b
  | none => nofun
  termination_by structural elseBody

theorem step_keeps (step : Option Expr) : ∀ e ∈ step, KeepsTo e :=
  match step with
  | some e => fun _ h => Option.some.inj h ▸ (compileExpr_sound e).keeps
  | none => nofun
  termination_by structural step

theorem compileStmt_keeps (s : Stmt) : StmtKeeps s :=
  match s with
  | .localDecl _ values _ => localDecl_keeps fun v hv => (exprs_sound values v hv).keeps
  | .assign targets values _ =>
    assign_keeps (fun t ht => (exprs_sound targets t ht).parts)
      (fun v hv => (exprs_sound values v hv).keeps)
  | .callStmt e => callStmt_keeps (compileExpr_sound e).keeps
  | .doBlock b => doBlock_keeps (compileBlock_keeps b)
  | .whileLoop cond b _ => whileLoop_keeps (compileExpr_sound cond).keeps (compileBlock_keeps b)
  | .repeatLoop b cond _ => repeatLoop_keeps (compileExpr_sound cond).keeps (compileBlock_keeps b)
  | .ifStmt cond t elseifs elseBody _ =>
    ifStmt_keeps (compileExpr_sound cond).keeps (compileBlock_keeps t) (clauses_keep elseifs)
      fun _ _ h => compileElse_stmtOk (else_keeps elseBody) h
  | .numericFor _ start limit step b _ =>
    numericFor_keeps (compileExpr_sound start).keeps (compileExpr_sound limit).keeps
      (compileStep_into (step_keeps step)) (compileBlock_keeps b)
  | .genericFor _ exprs b _ =>
    genericFor_keeps (fun e he => (exprs_sound exprs e he).keeps) (compileBlock_keeps b)
  | .functionDef _ _ body _ => functionDef_keeps (compileFunction_keeps body)
  | .localFunction _ body _ => localFunction_keeps (compileFunction_keeps body)
  | .breakStmt _ => breakStmt_keeps
  | .gotoStmt _ _ => gotoStmt_keeps
  | .labelStmt _ _ => labelStmt_keeps
  termination_by structural s

end

/-- The main chunk starts with no locals and no register taken. -/
theorem main_aligned (source : String) : (FuncState.main source).Aligned :=
  ⟨rfl, fun i hi => absurd hi (by simp [FuncState.main, FuncState.new])⟩

/-- The register discipline of the compiler, for every syntax tree:

* the main chunk starts aligned (no locals, no register taken), and a nested function starts
  aligned with `self` (for a method) and its parameters as its locals, in order;
* every statement keeps the registers aligned with the locals: the registers in use are
  exactly the locals', the `i`-th local in register `i`;
* compiling an expression into a register `a` in use leaves the registers in use and the locals
  as they were (a closure may only mark some of them captured), leaves the code before it alone,
  and every instruction it adds writes only registers from `a` up and reads, below `a`, only
  registers of locals. -/
theorem register_discipline (source : String) :
    (FuncState.main source).Aligned ∧
    (∀ (params : List String) (isVararg isMethod : Bool) (line : Nat) (c c' : Compiler),
      (openFunction params isVararg isMethod line).run c = .ok ((), c') →
        c'.fs.Aligned ∧ c'.fs.localNames = (if isMethod then "self" :: params else params)) ∧
    (∀ (s : Stmt) (c c' : Compiler), c.fs.Aligned → (compileStmt s).run c = .ok ((), c') →
      c'.fs.Aligned) ∧
    (∀ (e : Expr) (a : Nat) (n : Int) (c c' : Compiler), a < c.fs.usedRegs →
      (compileExpr e a n).run c = .ok ((), c') →
        c'.fs.usedRegs = c.fs.usedRegs ∧
        c'.fs.actives.map ActiveLocal.unmark = c.fs.actives.map ActiveLocal.unmark ∧
        (∀ p, p < c.fs.code.size → c'.fs.code[p]? = c.fs.code[p]?) ∧
        ∀ p i, c.fs.code.size ≤ p → c'.fs.code[p]? = some i →
          (∀ r, i.writes r = true → a ≤ r) ∧
          (∀ r, i.reads c'.fs.protos r = true → r < a → r ∈ c.fs.slots)) := by
  refine ⟨main_aligned source, fun params isVararg isMethod line c c' h => ?_,
    fun s c c' hal h => (compileStmt_keeps s c c' h).aligned hal,
    fun e a n c c' ha h => ?_⟩
  · obtain ⟨-, -, hal, hnames⟩ := openFunction_spec h
    exact ⟨hal, hnames⟩
  · have hok := (compileExpr_sound e).keeps n a c c' ha h
    refine ⟨hok.usedRegs, hok.actives, hok.old, fun p i hp hi => ?_⟩
    have hw := hok.new p i hp hi
    exact ⟨hw.writes, fun r hr hra => (hw.reads r hr).resolve_left (Nat.not_le.mpr hra)⟩

/-- In the chunk `local x = 1; local function f(a) return a + x end`, each statement leaves the
registers aligned with the locals, and a function `f(a)` opened after the first one starts
aligned with `a` as its one local; `x + 1` compiled after both into register 1, the one `f`
holds, gives back every register it takes, and its code writes only from register 1 up and
reads below it only the register of `x`. -/
theorem registers_aligned_around_nested_function :
    ∃ c₁ c₂ c₃ c', (compileStmt (.localDecl ["x"] [.int 1 1] 1)).run
        { fs := FuncState.main "t", enclosing := #[], source := "t" } = .ok ((), c₁) ∧
      (compileStmt (.localFunction "f" (.mk ["a"] false
        (.mk [] (some (.mk [.binop .add (.name "a" 2) (.name "x" 2) 2] 2)) 2) 2) 2)).run c₁ =
        .ok ((), c₂) ∧
      (compileExpr (.binop .add (.name "x" 3) (.int 1 3) 3) 1 1).run c₂ = .ok ((), c₃) ∧
      (openFunction ["a"] false false 2).run c₁ = .ok ((), c') ∧
      c₁.fs.Aligned ∧ c₂.fs.Aligned ∧ c'.fs.Aligned ∧ c'.fs.localNames = ["a"] ∧
      c₃.fs.usedRegs = c₂.fs.usedRegs ∧
      ∀ p i, c₂.fs.code.size ≤ p → c₃.fs.code[p]? = some i →
        (∀ r, i.writes r = true → 1 ≤ r) ∧
        (∀ r, i.reads c₃.fs.protos r = true → r < 1 → r ∈ c₂.fs.slots) := by
  have hd := register_discipline "t"
  -- the two statements and the expression, run once by the kernel, then split at each step
  obtain ⟨⟨⟨⟩, c₃⟩, h⟩ := exists_ok_of_isOk (x := (do
    compileStmt (.localDecl ["x"] [.int 1 1] 1)
    compileStmt (.localFunction "f" (.mk ["a"] false
      (.mk [] (some (.mk [.binop .add (.name "a" 2) (.name "x" 2) 2] 2)) 2) 2) 2)
    compileExpr (.binop .add (.name "x" 3) (.int 1 3) 3) 1 1).run
      { fs := FuncState.main "t", enclosing := #[], source := "t" }) (by decide +kernel)
  obtain ⟨⟨⟩, c₁, h₁, h'⟩ := run_bind_ok h
  obtain ⟨⟨⟩, c₂, h₂, h₃⟩ := run_bind_ok h'
  obtain ⟨⟨⟨⟩, c'⟩, ho⟩ := exists_ok_of_isOk (x := (do
    compileStmt (.localDecl ["x"] [.int 1 1] 1)
    openFunction ["a"] false false 2).run
      { fs := FuncState.main "t", enclosing := #[], source := "t" }) (by decide +kernel)
  obtain ⟨⟨⟩, c₁', h₁', ho'⟩ := run_bind_ok ho
  rw [h₁] at h₁'
  cases h₁'
  -- register 1 is `f`'s
  have hu : c₂.fs.usedRegs = 2 :=
    eq_of_toOption_map ((run_bind_of_ok (f := fun _ => compileStmt _) h₁).trans h₂)
      (f := fun r => r.2.fs.usedRegs) (by decide +kernel)
  have hal₁ := hd.2.2.1 _ _ _ hd.1 h₁
  obtain ⟨hused, -, -, hnew⟩ := hd.2.2.2 _ 1 1 c₂ c₃ (by omega) h₃
  obtain ⟨hal', hnames⟩ := hd.2.1 ["a"] false false 2 c₁ c' ho'
  exact ⟨c₁, c₂, c₃, c', h₁, h₂, h₃, ho', hal₁, hd.2.2.1 _ _ _ hal₁ h₂, hal', hnames, hused,
    hnew⟩

end Compiler

end LuaBytecode
