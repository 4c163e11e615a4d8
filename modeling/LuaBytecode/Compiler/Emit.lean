import LuaBytecode.Compiler.Resolve
/-!
# Instruction shapes

The code each construct compiles to, written once, with the construct's parts given as
actions: how to classify a part (`CompileM Operand`) and how to evaluate it into a register
(`Nat → CompileM Unit`). The recursive compiler (`Compiler.compileExpr` and its companions)
supplies these actions for the parts of each node, so that every shape here is an ordinary,
non-recursive function.
-/

namespace LuaBytecode

namespace Compiler

/-- The RK operand for a part, or a fresh temporary it is evaluated into; also how many
temporaries were taken (0 or 1). -/
def rkOrTemp (op : CompileM Operand) (compile : Nat → CompileM Unit) (line : Nat) :
    CompileM (Nat × Nat) := do
  match (← op).rk? with
  | some rk => pure (rk, 0)
  | none =>
    let tmp ← alloc line
    compile tmp
    pure (tmp, 1)

/-- The RK operand of a part, or the part evaluated into the target `a`; says whether `a`
holds it. -/
def rkOrTarget (op : CompileM Operand) (compile : Nat → CompileM Unit) (a : Nat) :
    CompileM (Nat × Bool) := do
  match (← op).rk? with
  | some rk => pure (rk, false)
  | none => do
    compile a
    pure (a, true)

/-- The two RK operands of a binary instruction into `a`: an operand that is neither a constant
nor a local is evaluated, the left one into `a`, the right one into `a` or, when `a` holds the
left one, into a temporary. -/
def operandsWith (lhsOp : CompileM Operand) (compileLhs : Nat → CompileM Unit)
    (rhsOp : CompileM Operand) (compileRhs : Nat → CompileM Unit) (a line : Nat) :
    CompileM (Nat × Nat) := do
  let (b, lhsInA) ← rkOrTarget lhsOp compileLhs a
  let c ← rkOrInto rhsOp compileRhs a line lhsInA
  pure (b, c)

/-- The opcode of an arithmetic or bitwise operator. -/
def arithOpcode : BinOp → Opcode
  | .add => .add | .sub => .sub | .mul => .mul | .div => .div | .idiv => .idiv | .mod => .mod
  | .pow => .pow | .band => .band | .bor => .bor | .bxor => .bxor | .shl => .shl
  | _ => .shr

/-- The opcode of a unary operator. -/
def unopOpcode : UnOp → Opcode
  | .neg => .unm
  | .not => .not
  | .len => .len
  | .bnot => .bnot

/-- The opcode and operands of a comparison: `>` and `>=` are `<` and `<=` with the operands
swapped, and `~=` is `==` with the test negated. -/
def compareOperands (op : BinOp) (b c : Nat) : Opcode × Nat × Nat :=
  match op with
  | .eq | .ne => (.eq, b, c)
  | .lt => (.lt, b, c)
  | .le => (.le, b, c)
  | .gt => (.lt, c, b)
  | _ => (.le, c, b)

/-- A comparison. As a condition it is the test followed by a jump, to be patched, that is
taken when the comparison fails; as a value it loads `true` or `false` into `a`. -/
def compareWith (op : BinOp) (operands : CompileM (Nat × Nat)) (a : Nat) (cond : Bool)
    (line : Nat) : CompileM Unit := do
  let (b, c) ← operands
  let (code, b, c) := compareOperands op b c
  let negate := op == .ne
  if cond then
    emitABC code (if negate then 1 else 0) b c line
    let _ ← emitJump .jmp 0 line
  else
    emitABC code (if negate then 0 else 1) b c line
    updateFs (·.emitAsBx .jmp 0 1 line)
    updateFs (·.emitLoadBool a false true line)
    updateFs (·.emitLoadBool a true false line)

/-- Tests the left operand of `and` (`c = 0`) or `or` (`c = 1`) and leaves it in `a` when it
decides: a local is tested in place and copied, anything else is evaluated into `a`. -/
def testInto (lhsOp : CompileM Operand) (compileLhs : Nat → CompileM Unit) (a c line : Nat) :
    CompileM Unit := do
  match ← lhsOp with
  | .reg r => emitABC .testSet a r c line
  | _ => do
    compileLhs a
    updateFs (·.emitTest a c line)

/-- Compiles `and` and `or`: the left operand goes to `a` (tested in place when it is a local), and a
jump skips the right operand when the left one decides. -/
def logicalWith (isOr : Bool) (lhsOp : CompileM Operand) (compileLhs : Nat → CompileM Unit)
    (compileRhs : Nat → CompileM Unit) (a line : Nat) : CompileM Unit := do
  testInto lhsOp compileLhs a (if isOr then 1 else 0) line
  let j ← emitJump .jmp 0 line
  compileRhs a
  patchJump j (← pc)

/-- Evaluates each part into a fresh register, in order. -/
def intoFresh (line : Nat) : List (Nat → CompileM Unit) → CompileM Unit
  | [] => pure ()
  | part :: rest => do
    let tmp ← alloc line
    part tmp
    intoFresh line rest

/-- A chain `p₀ .. p₁ .. ⋯ .. pₖ`: the parts into consecutive registers from `a`, then one
`concat`. The target must be the top register. -/
def concatWith (parts : List (Nat → CompileM Unit)) (a line : Nat) : CompileM Unit := do
  unless (← readFs (·.isTop a)) do
    throw (.internal ("concat target r" ++ toString a ++ " is not the top register"))
  match parts with
  | [] => pure ()
  | first :: rest =>
    first a
    intoFresh line rest
    freeN rest.length
    emitABC .concat a a (a + rest.length) line

/-- The operands of a power chain, left to right: RK operands where possible, else the first
such part evaluated into `a` and later ones into temporaries. Returns the operands, which part
went to `a`, and how many temporaries were taken. -/
def powOperands (a line : Nat) :
    List (CompileM Operand × (Nat → CompileM Unit)) → Nat → Option Nat → Nat →
      CompileM (List Nat × Option Nat × Nat)
  | [], _, inA, temps => pure ([], inA, temps)
  | (op, compile) :: rest, i, inA, temps => do
    match (← op).rk? with
    | some rk => do
      let (ops, inA, temps) ← powOperands a line rest (i + 1) inA temps
      pure (rk :: ops, inA, temps)
    | none =>
      match inA with
      | none => do
        compile a
        let (ops, inA, temps) ← powOperands a line rest (i + 1) (some i) temps
        pure (a :: ops, inA, temps)
      | some _ => do
        let tmp ← alloc line
        compile tmp
        let (ops, inA, temps) ← powOperands a line rest (i + 1) inA (temps + 1)
        pure (tmp :: ops, inA, temps)

/-- The register a step of a power fold writes: `a`, or the scratch register, which is taken on
first use. -/
def powDest (a line : Nat) (useScratch : Bool) (scratch : Option Nat) :
    CompileM (Nat × Option Nat) :=
  if useScratch then
    match scratch with
    | some s => pure (s, some s)
    | none => do
      let s ← alloc line
      pure (s, some s)
  else pure (a, scratch)

/-- Folds a power chain from the right: `pow` of operand `i` and the result so far, into `a`,
or into a scratch register while a later step still reads `a`. -/
def powFold (operands : Array Nat) (inA : Option Nat) (a line : Nat) :
    List Nat → Nat → Option Nat → CompileM (Option Nat)
  | [], _, scratch => pure scratch
  | i :: rest, acc, scratch => do
    let useScratch := i > 0 && (match inA with | some j => j < i | none => false)
    let (dest, scratch) ← powDest a line useScratch scratch
    emitABC .pow dest (operands.getD i 0) acc line
    powFold operands inA a line rest dest scratch

/-- A chain `p₀ ^ p₁ ^ ⋯ ^ pₖ`, which groups to the right. -/
def powWith (parts : List (CompileM Operand × (Nat → CompileM Unit))) (a line : Nat) :
    CompileM Unit := do
  let (ops, inA, temps) ← powOperands a line parts 0 none 0
  let operands := ops.toArray
  let last := operands.size - 1
  let scratch ← powFold operands inA a line (List.range last).reverse (operands.getD last 0) none
  freeN (temps + (if scratch.isSome then 1 else 0))

/-- A call into the top register `a`: the callee (which returns how many arguments it placed
itself: 1 for a method's object), then the arguments (which say whether the last one is left
open), then `call` or `tailcall`. -/
def callWith (callee : CompileM Nat) (args : CompileM Bool) (argCount a : Nat) (n : Int)
    (tail : Bool) (line : Nat) : CompileM Unit := do
  unless (← readFs (·.isTop a)) do
    throw (.internal ("call target r" ++ toString a ++ " is not the top register"))
  let own ← callee
  let isOpen ← args
  let nArgs := own + argCount
  freeN nArgs
  let b : Int := if isOpen then -1 else nArgs
  if tail then updateFs (·.emitTailCall a b line) else updateFs (·.emitCall a b n line)

/-- The register of a part: a local's own, else `a`, into which it is evaluated. -/
def regOrTarget (op : CompileM Operand) (compile : Nat → CompileM Unit) (a : Nat) :
    CompileM Nat := do
  match ← op with
  | .reg r => pure r
  | _ => do
    compile a
    pure a

/-- Runs `emit` with the RK operand of the string constant `name`: the constant itself when its
index is at most 255, else a register above the top, into which it is loaded first. -/
def withNameKey (name : String) (line : Nat) (emit : Nat → CompileM Unit) : CompileM Unit := do
  let idx ← addConstant (.str name)
  if idx ≤ 255 then emit (Instruction.constOperand idx)
  else
    let k ← alloc line
    updateFs (·.emitLoadK k (.str name) line)
    emit k
    free

/-- The callee of `obj:name(…)`: `self` puts the object in `a + 1` and the method in `a`; a
method name past constant 255 is loaded into a register above `a + 1` first. The register
taken for the object must be `a + 1`. -/
def methodWith (objOp : CompileM Operand) (compileObj : Nat → CompileM Unit) (name : String)
    (a line : Nat) : CompileM Nat := do
  let objReg ← regOrTarget objOp compileObj a
  let selfReg ← alloc line
  withNameKey name line fun k => emitABC .method a objReg k line
  unless selfReg == a + 1 do
    throw (.panic ("assertion `left == right` failed\n  left: " ++ toString selfReg ++
      "\n right: " ++ toString (a + 1)))
  pure 1

/-- One keyed entry of a table constructor: `settable` with the key and value as RK operands or
temporaries. -/
def entryWith (keyOp : CompileM Operand) (compileKey : Nat → CompileM Unit)
    (valOp : CompileM Operand) (compileVal : Nat → CompileM Unit) (a line : Nat) :
    CompileM Unit := do
  let (b, t1) ← rkOrTemp keyOp compileKey line
  let (c, t2) ← rkOrTemp valOp compileVal line
  freeN (t1 + t2)
  emitABC .setTable a b c line

/-- A block in a scope of its own, closing its captured locals at its end. -/
def scopedWith (body : CompileM Unit) (line : Nat) : CompileM Unit := do
  modifyFs (·.enterScope false)
  body
  updateFs (·.closeOpenUpvals line)
  updateFs FuncState.exitScope

/-- The register a condition is tested in: a local's own, else a temporary that it is evaluated
into and that is given back at once. -/
def testedReg (cond : Expr) (compileCond : Nat → Int → CompileM Unit) (line : Nat) :
    CompileM Nat := do
  match ← classify cond with
  | .reg r => pure r
  | _ => do
    let tmp ← alloc line
    compileCond tmp 1
    free
    pure tmp

/-- The test of a condition, returning the position of the jump, still to be patched, that is
taken when the condition is false. A comparison jumps by itself; a local is tested in place;
anything else is evaluated into a temporary and tested. -/
def branchWith (cond : Expr) (compileCond : Nat → Int → CompileM Unit) : CompileM Nat := do
  let line := cond.line
  if cond.isComparison then
    let tmp ← alloc line
    compileCond tmp 0
    free
    pure ((← pc) - 1)
  else
    let reg ← testedReg cond compileCond line
    updateFs (·.emitTest reg 0 line)
    emitJump .jmp 0 line

/-- The test of a loop condition, unless it is always true: the position of its exit jump. -/
def exitTest (cond : Expr) (compileCond : Nat → Int → CompileM Unit) : CompileM (Option Nat) :=
  if cond.isAlwaysTrue then pure none else some <$> branchWith cond compileCond

/-- Compiles `while cond do body end`. A condition that is always true is not tested. -/
def whileWith (cond : Expr) (compileCond : Nat → Int → CompileM Unit) (body : CompileM Unit)
    (line : Nat) : CompileM Unit := do
  let start ← pc
  let exit ← exitTest cond compileCond
  modifyFs (·.enterScope true)
  body
  updateFs (·.closeOpenUpvals line)
  let back ← emitJump .jmp 0 line
  patchJump back start
  updateFs FuncState.exitScope
  match exit with
  | some j => patchJump j (← pc)
  | none => pure ()

/-- The test that ends a `repeat` loop, unless its condition is always true: a jump back to
`start` when it is false, closing the upvalues of the loop's scope on the way. -/
def untilTest (cond : Expr) (compileCond : Nat → Int → CompileM Unit) (start : Nat) :
    CompileM Unit := do
  unless cond.isAlwaysTrue do
    let back ← branchWith cond compileCond
    let a ← readFs FuncState.jmpArgA
    updateFs (·.setJumpA back a)
    patchJump back start

/-- Compiles `repeat body until cond`. The condition is compiled inside the body's scope, so it sees
the body's locals; a nil condition is false, and one that is always true is not tested. -/
def repeatWith (body : CompileM Unit) (cond : Expr) (compileCond : Nat → Int → CompileM Unit)
    (line : Nat) : CompileM Unit := do
  let (cond, compileCond) : Expr × (Nat → Int → CompileM Unit) := match cond with
    | .nil l => (.bool false l, fun r _ => updateFs (·.emitLoadBool r false false l))
    | c => (c, compileCond)
  modifyFs (·.enterScope true)
  let start ← pc
  body
  untilTest cond compileCond start
  updateFs (·.closeOpenUpvals line)
  updateFs FuncState.exitScope

/-- A jump to the end of an `if`, when a clause follows. -/
def exitJump (needed : Bool) (line : Nat) : CompileM (Option Nat) :=
  if needed then some <$> emitJump .jmp 0 line else pure none

/-- The register of a `return`'s single value when it is a local, to be returned in place. -/
def singleLocal (values : List Expr) : CompileM (Option Nat) :=
  match values with
  | [.name s _] => readFs (·.slotOf s)
  | _ => pure none

/-- The number of values kept from a list: trailing `nil` literals are dropped as long as more
values than `nVars` remain. -/
def keptValues (nVars : Nat) (values : List Expr) : Nat :=
  let n := values.length
  if n ≤ nVars then n
  else max (n - (values.reverse.takeWhile fun | .nil _ => true | _ => false).length) nVars

/-- Fills the registers that a list of `kept` values left without one with `nil`, unless its
last multi-valued expression filled them. -/
def fillNils (nVars kept : Nat) (filled : Bool) (line : Nat) : CompileM Unit := do
  if kept < nVars && !filled then
    let n := nVars - kept
    let a ← onFs (·.allocRegs n line)
    updateFs (·.emitLoadNil a n line)

/-- Declares locals, in order, at the next registers. -/
def addLocals (names : List String) (line : Nat) : CompileM Unit :=
  match names with
  | [] => pure ()
  | name :: rest => do
    let _ ← onFs (·.addLocal name line)
    addLocals rest line

/-- Where an assignment stores. -/
inductive Target where
  | local (slot : Nat)
  | upval (idx : Nat)
  | global (name : String)
  /-- A table and key already evaluated into registers. -/
  | indexed (table key : Nat)

/-- Emits `table[name] := R(v)` with a string key, loaded into a register when its constant index
is past 255. -/
def storeField (op : Opcode) (table : Nat) (name : String) (v line : Nat) : CompileM Unit :=
  withNameKey name line fun k => emitABC op table k v line

/-- Stores `R(v)` into a target. A global is a field of `_ENV`. -/
def store (t : Target) (v line : Nat) : CompileM Unit := do
  match t with
  | .local slot => updateFs (·.emitMove slot v line)
  | .upval idx => emitABC .setUpval v idx 0 line
  | .indexed table key => emitABC .setTable table key v line
  | .global name =>
    match (← get).fs.slotOf "_ENV" with
    | some slot => storeField .setTable slot name v line
    | none =>
      match ← resolveUpvalue "_ENV" line with
      | some idx => storeField .setTabUp idx name v line
      | none => throw (.internal "_ENV is not in scope")

/-- Stores consecutive registers from `first` into the targets, in order. -/
def storeAll (targets : List Target) (first line : Nat) : CompileM Unit :=
  match targets with
  | [] => pure ()
  | t :: rest => do
    store t first line
    storeAll rest (first + 1) line

/-- The target a plain name assigns to. -/
def nameTarget (name : String) (line : Nat) : CompileM Target := do
  match (← get).fs.slotOf name with
  | some slot => pure (.local slot)
  | none =>
    match ← resolveUpvalue name line with
    | some idx => pure (.upval idx)
    | none => pure (.global name)

/-- Where a dotted path `p₀.p₁.⋯` given last part first can be read without evaluating it. -/
def classifyRevPath (line : Nat) : List String → CompileM Operand
  | [p] => classifyName p line
  | _ => pure .temp

/-- Evaluates `R(a) := p₀.p₁.⋯.pₖ` for a path given last part first. -/
def compileRevPath (line : Nat) : List String → Nat → CompileM Unit
  | [], _ => pure ()
  | [p], a => compileName p a line
  | last :: revInit, a =>
    indexWith (classifyRevPath line revInit) (compileRevPath line revInit)
      (constOperand (.str last)) (fun r => updateFs (·.emitLoadK r (.str last) line)) a line

/-- Declares `names` with values: `adjust` evaluates the values into fresh registers and says
whether a last multi-valued one filled those of the `kept` values that are missing; the rest
are `nil`. The registers taken since the start are given back before the names take theirs. -/
def localWith (names : List String) (kept : Nat) (adjust : CompileM Bool) (line : Nat) :
    CompileM Unit := do
  let mark ← readFs (·.usedRegs)
  let filled ← adjust
  fillNils names.length kept filled line
  updateFs (·.resetRegs mark)
  addLocals names line

/-- An assignment: the targets resolved first (tables and keys into fresh registers), then the
values into the next registers, then the stores, in order. -/
def assignWith (resolve : CompileM (List Target)) (nTargets kept : Nat) (adjust : CompileM Bool)
    (line : Nat) : CompileM Unit := do
  let mark ← readFs (·.usedRegs)
  let resolved ← resolve
  let first ← readFs (·.usedRegs)
  let filled ← adjust
  fillNils nTargets kept filled line
  storeAll resolved first line
  updateFs (·.resetRegs mark)

/-- A call used as a statement: the call into a fresh register, with no value wanted; any other
expression is refused. -/
def callStmtWith (e : Expr) (compile : Nat → Int → CompileM Unit) : CompileM Unit :=
  if e.isCall then do
    let tmp ← alloc e.line
    compile tmp 0
    free
  else throw (.compile e.line "syntax error: expected a call")

/-- One clause of an `if`: its test, its block in a scope of its own, a jump to the end when
`needed`, whose position is returned, and the test's jump patched to what follows. -/
def clauseWith (cond : Expr) (compileCond : Nat → Int → CompileM Unit) (body : CompileM Unit)
    (bodyLine : Nat) (needed : Bool) : CompileM (Option Nat) := do
  let skip ← branchWith cond compileCond
  scopedWith body bodyLine
  let exit ← exitJump needed bodyLine
  patchJump skip (← pc)
  pure exit

/-- An `if`: its first clause, the others (which return their jumps to the end), the `else`
block, then every jump to the end patched. -/
def ifWith (first : CompileM (Option Nat)) (rest : CompileM (List Nat)) (elseBody : CompileM Unit) :
    CompileM Unit := do
  let exit ← first
  let exits ← rest
  elseBody
  patchAll (exit.toList ++ exits) (← pc)

/-- A numeric `for`, in a scope of its own: the control values (`control` evaluates them into
three fresh registers) as hidden locals, the loop variable after them, and the body between
`forprep` and `forloop`. -/
def numericForWith (var : String) (control : CompileM Unit) (body : CompileM Unit) (line : Nat) :
    CompileM Unit := do
  modifyFs (·.enterScope true)
  localWith ["(for index)", "(for limit)", "(for step)"] 3 (do control; pure false) line
  let base := (← readFs (·.usedRegs)) - 3
  addLocals [var] line
  let prep ← emitJump .forPrep base line
  body
  updateFs (·.closeOpenUpvals line)
  let lp ← emitJump .forLoop base line
  patchJump prep lp
  patchJump lp (prep + 1)
  updateFs FuncState.exitScope

/-- A generic `for`, in a scope of its own: the iterator's three values as hidden locals, the loop
variables after them, and the body followed by `tforcall` and `tforloop`. -/
def genericForWith (vars : List String) (kept : Nat) (adjust : CompileM Bool) (body : CompileM Unit)
    (line : Nat) : CompileM Unit := do
  modifyFs (·.enterScope true)
  localWith ["(for generator)", "(for state)", "(for control)"] kept adjust line
  let base := (← readFs (·.usedRegs)) - 3
  addLocals vars line
  let toCall ← emitJump .jmp 0 line
  body
  updateFs (·.closeOpenUpvals line)
  patchJump toCall (← pc)
  emitABC .tforCall base 0 vars.length line
  let lp ← emitJump .tforLoop (base + 2) line
  patchJump lp (toCall + 1)
  updateFs FuncState.exitScope

/-- `function a.b.c:m() … end`, given how to compile the function into a register (and whether
it is a method): a plain name is assigned like a variable; otherwise the table the path leads to
goes to a fresh register and the function is stored into its field. -/
def functionDefWith (path : List String) (method : Option String)
    (compileBody : Nat → Bool → CompileM Unit) (line : Nat) : CompileM Unit :=
  match (path ++ method.toList).reverse with
  | [] => throw (.compile line "syntax error: empty function name")
  | [key] => do
    let mark ← readFs (·.usedRegs)
    let target ← nameTarget key line
    let v ← alloc line
    compileBody v false
    store target v line
    updateFs (·.resetRegs mark)
  | key :: revPrefix => do
    let mark ← readFs (·.usedRegs)
    let t ← alloc line
    compileRevPath line revPrefix t
    let v ← alloc line
    compileBody v method.isSome
    storeField .setTable t key v line
    updateFs (·.resetRegs mark)

/-- Starts a nested function: the current one becomes the innermost enclosing function. -/
def enterFunction (line : Nat) (isVararg : Bool) : CompileM Unit :=
  modify fun c => { c with fs := FuncState.new c.source line isVararg, enclosing := c.enclosing.push c.fs }

/-- Starts a nested function and declares its parameters, `self` first for a method. -/
def openFunction (params : List String) (isVararg isMethod : Bool) (line : Nat) :
    CompileM Unit := do
  enterFunction line isVararg
  addLocals (if isMethod then "self" :: params else params) line
  modifyFs fun fs => { fs with numParams := params.length + (if isMethod then 1 else 0) }

/-- Ends a nested function: freezes it, adds it to the enclosing function's prototypes and
emits `closure` into `a`. -/
def leaveFunction (lastLine a line : Nat) : CompileM Unit := do
  let c ← get
  match c.enclosing.back? with
  | none => throw (.internal "function nesting underflow")
  | some parent =>
    let child := c.fs
    set { c with fs := parent, enclosing := c.enclosing.pop }
    let p ← liftM (m := Except Fault) (child.finish lastLine)
    let idx ← onFs fun fs => .ok (fs.addProto p)
    updateFs (·.emitABx .closure a idx line)

end Compiler

end LuaBytecode
