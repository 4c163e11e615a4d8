import LuaBytecode.Compiler.Emit
/-!
# Code generation

`Compiler.compile` turns a chunk's tree into its function prototype. Every expression is
compiled into a target register `a` with a wanted count of values `n`: `1` for exactly one,
`0` for a call whose results are dropped (or a comparison used as a condition), `-1` for all
of them (an open call or `...`).

The functions here recurse on the tree itself, each call on a part of its argument; the
shape of each construct's code is in `Compiler.Emit`, which takes the parts as actions.
-/

namespace LuaBytecode

namespace Compiler

mutual

/-- Evaluates `R(a) := e`, with `n` values wanted. -/
def compileExpr (e : Expr) (a : Nat) (n : Int) : CompileM Unit :=
  match e with
  | .nil line => updateFs (·.emitLoadNil a 1 line)
  | .bool b line => updateFs (·.emitLoadBool a b false line)
  | .int v line => updateFs (·.emitLoadK a (.int v) line)
  | .float bits line => updateFs (·.emitLoadK a (.float bits) line)
  | .str s line => updateFs (·.emitLoadK a (.str s) line)
  | .vararg line => do
    unless (← readFs (·.isVararg)) do
      throw (.compile line "cannot use '...' outside a vararg function")
    updateFs (·.emitVararg a n line)
  | .name s line => compileName s a line
  | .paren inner _ => compileExpr inner a 1
  | .binop op lhs rhs line =>
    match op with
    | .and | .or =>
      logicalWith (op == .or) (classify lhs) (fun r => compileExpr lhs r 1)
        (fun r => compileExpr rhs r 1) a line
    | .concat =>
      concatWith ((fun r => compileExpr lhs r 1) ::
        if rhs.isBinop .concat then concatParts rhs else [fun r => compileExpr rhs r 1]) a line
    | .pow =>
      powWith ((classify lhs, fun r => compileExpr lhs r 1) ::
        if rhs.isBinop .pow then powParts rhs else [(classify rhs, fun r => compileExpr rhs r 1)])
        a line
    | .eq | .ne | .lt | .le | .gt | .ge =>
      compareWith op
        (operandsWith (classify lhs) (fun r => compileExpr lhs r 1)
          (classify rhs) (fun r => compileExpr rhs r 1) a line) a (n == 0) line
    | _ => do
      let (b, c) ← operandsWith (classify lhs) (fun r => compileExpr lhs r 1)
        (classify rhs) (fun r => compileExpr rhs r 1) a line
      emitABC (arithOpcode op) a b c line
  | .unop op operand line => do
    let b ← alloc line
    compileExpr operand b 1
    free
    emitABC (unopOpcode op) a b 0 line
  | .index t k line =>
    indexWith (classify t) (fun r => compileExpr t r 1) (classify k) (fun r => compileExpr k r 1)
      a line
  | .field t key line =>
    indexWith (classify t) (fun r => compileExpr t r 1) (constOperand (.str key))
      (fun r => updateFs (·.emitLoadK r (.str key) line)) a line
  | .call f args line =>
    callWith (do compileExpr f a 1; pure 0) (compileArgs line args) args.length a n false line
  | .method obj name args line =>
    callWith (methodWith (classify obj) (fun r => compileExpr obj r 1) name a line)
      (compileArgs line args) args.length a n false line
  | .func body => compileFunction body a false
  | .table fields line => do
    unless (← readFs (·.isTop a)) do
      throw (.internal ("table target r" ++ toString a ++ " is not the top register"))
    let nArr := fields.countP Field.isPositional
    updateFs (·.emitNewTable a nArr (fields.length - nArr) line)
    compileFields a line nArr fields.length fields 0 0 0
  termination_by structural e

/-- The operands of a concatenation chain `e`, left to right. -/
def concatParts (e : Expr) : List (Nat → CompileM Unit) :=
  match e with
  | .binop .concat lhs rhs _ =>
    (fun r => compileExpr lhs r 1) ::
      if rhs.isBinop .concat then concatParts rhs else [fun r => compileExpr rhs r 1]
  | _ => []
  termination_by structural e

/-- The operands of a power chain `e`, left to right. -/
def powParts (e : Expr) : List (CompileM Operand × (Nat → CompileM Unit)) :=
  match e with
  | .binop .pow lhs rhs _ =>
    (classify lhs, fun r => compileExpr lhs r 1) ::
      if rhs.isBinop .pow then powParts rhs else [(classify rhs, fun r => compileExpr rhs r 1)]
  | _ => []
  termination_by structural e

/-- The arguments of a call, each into the next register; the last one is left open when it
can yield several values. Says whether it was. -/
def compileArgs (line : Nat) (args : List Expr) : CompileM Bool :=
  match args with
  | [] => pure false
  | [x] => do
    let tmp ← alloc line
    if x.isMultiValued then
      compileExpr x tmp (-1)
      pure true
    else
      compileExpr x tmp 1
      pure false
  | x :: rest => do
    let tmp ← alloc line
    compileExpr x tmp 1
    compileArgs line rest
  termination_by structural args

/-- The fields of a constructor for the table in `a`: list items are stored by `setlist`
every 50 items and after the last one, the other fields one by one. -/
def compileFields (a line nArr nFields : Nat) (fields : List Field) (i arrIdx pending : Nat) :
    CompileM Unit :=
  match fields with
  | [] => pure ()
  | .positional v :: rest => do
    let arrIdx := arrIdx + 1
    let pending := pending + 1
    let tmp ← alloc line
    let isOpen := i + 1 == nFields && v.isMultiValued
    compileExpr v tmp (if isOpen then -1 else 1)
    if arrIdx % 50 == 0 || arrIdx == nArr then
      freeN pending
      updateFs (·.emitSetList a (if isOpen then 0 else pending) ((arrIdx - 1) / 50 + 1) line)
      compileFields a line nArr nFields rest (i + 1) arrIdx 0
    else
      compileFields a line nArr nFields rest (i + 1) arrIdx pending
  | .named name v :: rest => do
    entryWith (constOperand (.str name)) (fun r => updateFs (·.emitLoadK r (.str name) line))
      (classify v) (fun r => compileExpr v r 1) a line
    compileFields a line nArr nFields rest (i + 1) arrIdx pending
  | .keyed k v :: rest => do
    entryWith (classify k) (fun r => compileExpr k r 1) (classify v) (fun r => compileExpr v r 1)
      a line
    compileFields a line nArr nFields rest (i + 1) arrIdx pending
  termination_by structural fields

/-- A nested function into `a` as a closure. A method takes `self` before its parameters. -/
def compileFunction (body : FuncBody) (a : Nat) (isMethod : Bool) : CompileM Unit :=
  match body with
  | .mk params vararg blk line => do
    openFunction params vararg isMethod line
    compileBlock blk
    updateFs (·.emitReturn 0 0 blk.line)
    leaveFunction blk.line a line
  termination_by structural body

/-- The statements of a block, then its `return`. -/
def compileBlock (b : Block) : CompileM Unit :=
  match b with
  | .mk stmts ret _ => do
    compileStmts stmts
    match ret with
    | some r => compileReturn r
    | none => pure ()
  termination_by structural b

/-- Statements in order. -/
def compileStmts (stmts : List Stmt) : CompileM Unit :=
  match stmts with
  | [] => pure ()
  | s :: rest => do
    compileStmt s
    compileStmts rest
  termination_by structural stmts

/-- Values into `nVars` fresh consecutive registers, those from position `i` on: surplus
values are evaluated and dropped, missing ones come from a last multi-valued expression or
are `nil`. `kept` counts the values left after trailing `nil`s are dropped. Says whether a
last multi-valued expression filled the missing ones. -/
def adjustValues (nVars kept line : Nat) (values : List Expr) (i : Nat) : CompileM Bool :=
  match values with
  | [] => pure false
  | v :: rest => do
    if i ≥ kept then pure false
    else
      let a ← alloc line
      if kept ≥ nVars then
        let dropAll := i ≥ nVars && i + 1 == kept && v.isMultiValued
        compileExpr v a (if dropAll then 0 else 1)
        adjustValues nVars kept line rest (i + 1)
      else if i + 1 == kept && v.isMultiValued then
        let n := nVars - kept + 1
        compileExpr v a n
        let _ ← onFs (·.allocRegs (n - 1) line)
        pure true
      else
        compileExpr v a 1
        adjustValues nVars kept line rest (i + 1)
  termination_by structural values

/-- The targets of an assignment, left to right: a table and key are evaluated now, into
fresh registers; a global name is interned only when stored. -/
def resolveTargets (targets : List Expr) : CompileM (List Target) :=
  match targets with
  | [] => pure []
  | t :: rest => do
    let target ← (match t with
      | .name s line => nameTarget s line
      | .index tbl key line => do
        let tr ← alloc line
        compileExpr tbl tr 1
        let kr ← alloc line
        compileExpr key kr 1
        pure (.indexed tr kr)
      | .field tbl key line => do
        let tr ← alloc line
        compileExpr tbl tr 1
        let kr ← alloc line
        updateFs (·.emitLoadK kr (.str key) line)
        pure (.indexed tr kr)
      | other => throw (.compile other.line "syntax error: cannot assign to this expression"))
    let rest ← resolveTargets rest
    pure (target :: rest)
  termination_by structural targets

/-- The values of a general `return`, each into the next register; the last one open when it
can yield several values. -/
def compileReturnValues (line : Nat) (values : List Expr) : CompileM Unit :=
  match values with
  | [] => pure ()
  | [v] => do
    let a ← alloc line
    compileExpr v a (if v.isMultiValued then -1 else 1)
  | v :: rest => do
    let a ← alloc line
    compileExpr v a 1
    compileReturnValues line rest
  termination_by structural values

/-- Compiles `return`: nothing, a single local in place, a single call as a tail call, or the values
in fresh registers. -/
def compileReturn (r : Return) : CompileM Unit :=
  match r with
  | .mk values line =>
    if values.isEmpty then updateFs (·.emitReturn 0 0 line)
    else if values.length == 1 && values.all Expr.isCall then
      match values with
      | [.call f args cl] => do
        let a ← alloc line
        callWith (do compileExpr f a 1; pure 0) (compileArgs cl args) args.length a 0 true cl
        free
        updateFs (·.emitReturn a (-1) line)
      | [.method obj name args cl] => do
        let a ← alloc line
        callWith (methodWith (classify obj) (fun r => compileExpr obj r 1) name a cl)
          (compileArgs cl args) args.length a 0 true cl
        free
        updateFs (·.emitReturn a (-1) line)
      | _ => pure ()
    else do
      match ← singleLocal values with
      | some slot => updateFs (·.emitReturn slot 1 line)
      | none =>
        let isOpen := match values.getLast? with
          | some v => v.isMultiValued
          | none => false
        compileReturnValues line values
        freeN values.length
        let base ← readFs (·.usedRegs)
        updateFs (·.emitReturn base (if isOpen then -1 else values.length) line)
  termination_by structural r

/-- The clauses of an `if` after the first, each a test, its block in a scope of its own, and
(unless it is the last clause) a jump to the end, whose positions are returned. -/
def compileClauses (hasElse : Bool) (clauses : List (Expr × Block)) : CompileM (List Nat) :=
  match clauses with
  | [] => pure []
  | (cond, body) :: rest => do
    let exit ← clauseWith cond (compileExpr cond) (compileBlock body) body.line
      (!rest.isEmpty || hasElse)
    let exits ← compileClauses hasElse rest
    pure (exit.toList ++ exits)
  termination_by structural clauses

/-- The `else` block of an `if`, in a scope of its own. -/
def compileElse (elseBody : Option Block) : CompileM Unit :=
  match elseBody with
  | some body => scopedWith (compileBlock body) body.line
  | none => pure ()
  termination_by structural elseBody

/-- The step of a numeric `for` into `r`: `1` when it is left out. -/
def compileStep (step : Option Expr) (line r : Nat) : CompileM Unit :=
  match step with
  | some st => compileExpr st r 1
  | none => updateFs (·.emitLoadK r (.int 1) line)
  termination_by structural step

/-- A statement. -/
def compileStmt (s : Stmt) : CompileM Unit :=
  match s with
  | .localDecl names values line =>
    let kept := keptValues names.length values
    localWith names kept (adjustValues names.length kept line values 0) line
  | .assign targets values line =>
    let kept := keptValues targets.length values
    assignWith (resolveTargets targets) targets.length kept
      (adjustValues targets.length kept line values 0) line
  | .callStmt e => callStmtWith e (compileExpr e)
  | .doBlock body => scopedWith (compileBlock body) body.line
  | .whileLoop cond body line => whileWith cond (compileExpr cond) (compileBlock body) line
  | .repeatLoop body cond line => repeatWith (compileBlock body) cond (compileExpr cond) line
  | .ifStmt cond thenBody elseifs elseBody _ =>
    ifWith
      (clauseWith cond (compileExpr cond) (compileBlock thenBody) thenBody.line
        (!elseifs.isEmpty || elseBody.isSome))
      (compileClauses elseBody.isSome elseifs) (compileElse elseBody)
  | .numericFor var start limit step body line =>
    numericForWith var
      (intoFresh line [fun r => compileExpr start r 1, fun r => compileExpr limit r 1,
        compileStep step line])
      (compileBlock body) line
  | .genericFor vars exprs body line =>
    let kept := keptValues 3 exprs
    genericForWith vars kept (adjustValues 3 kept line exprs 0) (compileBlock body) line
  | .functionDef path method body line => functionDefWith path method (compileFunction body) line
  | .localFunction name body line => do
    let r ← onFs (·.addLocal name line)
    compileFunction body r false
  | .breakStmt line => updateFs (·.addBreak line)
  | .gotoStmt _ line | .labelStmt _ line =>
    throw (.compile line "goto and labels are not supported")
  termination_by structural s

end

/-- Compiles a chunk into the prototype of its main function. -/
def compile (block : Block) (source : String) : Except Fault Proto := do
  let run : CompileM Proto := do
    compileBlock block
    updateFs (·.emitReturn 0 0 block.line)
    let fs ← readFs id
    liftM (m := Except Fault) (fs.finish block.line)
  let (p, _) ← run.run { fs := FuncState.main source, enclosing := #[], source }
  pure p

end Compiler

end LuaBytecode
