import LuaBytecode.Compiler.FuncState
import LuaBytecode.Ast.Basic
/-!
# Names, upvalues and operands

The compiler works on a stack of function states: the function being written (`Compiler.fs`)
and the functions that enclose it, outermost first. A name resolves to the innermost active
local of that name in the current function; failing that, to an upvalue, which is found by
walking outward through the enclosing functions (`Compiler.capture`) and recorded in every
function on the way; failing that, it is a global, read from `_ENV`.

`classify` says where the value of an expression can be read without evaluating it: a
constant that fits an RK operand, a local's register, an upvalue, a global, or nowhere
(`Operand.temp`). Classifying interns literals and global names in the constant pool.
-/

namespace LuaBytecode

/-- The compiler's state: the function being written, the functions enclosing it (outermost
first) and the chunk's source name. -/
structure Compiler where
  fs : FuncState
  enclosing : Array FuncState := #[]
  source : String
  deriving Inhabited

/-- Compilation: a state with failure. -/
abbrev CompileM := StateT Compiler (Except Fault)

namespace Compiler

/-- Runs a fallible step on the current function's state. -/
def onFs {α : Type} (f : FuncState → Except Fault (FuncState × α)) : CompileM α := do
  let c ← get
  let (fs, x) ← liftM (m := Except Fault) (f c.fs)
  set { c with fs }
  pure x

/-- Runs a step on the current function's state. -/
def modifyFs (f : FuncState → FuncState) : CompileM Unit :=
  modify fun c => { c with fs := f c.fs }

/-- Runs a fallible step on the current function's state that returns nothing else. -/
def updateFs (f : FuncState → Except Fault FuncState) : CompileM Unit :=
  onFs fun fs => (f fs).map (·, ())

/-- Reads the current function's state. -/
def readFs {α : Type} (f : FuncState → α) : CompileM α := do
  pure (f (← get).fs)

/-- Takes a register. -/
def alloc (line : Nat) : CompileM Nat := onFs (·.allocReg line)

/-- Gives back the top register. -/
def free : CompileM Unit := updateFs FuncState.freeReg

/-- Gives back the `n` top registers. -/
def freeN (n : Nat) : CompileM Unit := updateFs (·.freeRegs n)

/-- Appends an ABC instruction. -/
def emitABC (op : Opcode) (a b c line : Nat) : CompileM Unit := updateFs (·.emitABC op a b c line)

/-- Appends a jump to be patched, returning its position. -/
def emitJump (op : Opcode) (a line : Nat) : CompileM Nat := onFs (·.emitJump op a line)

/-- Patches the jump at `pc` to `target`. -/
def patchJump (pc target : Nat) : CompileM Unit := updateFs (·.patchJump pc target)

/-- Patches each of the jumps to `target`. -/
def patchAll (jumps : List Nat) (target : Nat) : CompileM Unit :=
  match jumps with
  | [] => pure ()
  | j :: rest => do
    patchJump j target
    patchAll rest target

/-- The position of the next instruction. -/
def pc : CompileM Nat := readFs FuncState.pc

/-- Interns a constant, returning its index. -/
def addConstant (k : Constant) : CompileM Nat := onFs fun fs => .ok (fs.addConstant k)

/-! ## Upvalues -/

/-- How the function at nesting `level` (0 is the main chunk) reaches `name` in its parent:
a local of the parent (marked captured), an upvalue the parent already has, or an upvalue the
parent gets from further out. None means the name is global. -/
def capture (name : String) (line : Nat) : Nat → CompileM (Option UpvalSource)
  | 0 => pure none
  | level + 1 => do
    let c ← get
    let parent := c.enclosing.getD level default
    match parent.captureLocal name with
    | some (parent, slot) =>
      set { c with enclosing := c.enclosing.set! level parent }
      pure (some (.register slot))
    | none =>
      match parent.upvalueIndex name with
      | some idx => pure (some (.upvalue idx))
      | none =>
        match ← capture name line level with
        | some src => do
          let c ← get
          let parent := c.enclosing.getD level default
          let (parent, idx) ← liftM (m := Except Fault) (parent.addUpvalue name src line)
          set { c with enclosing := c.enclosing.set! level parent }
          pure (some (.upvalue idx))
        | none => pure none

/-- The upvalue index of `name` in the current function, capturing it from an enclosing
function on first use; none for a global. -/
def resolveUpvalue (name : String) (line : Nat) : CompileM (Option Nat) := do
  match (← get).fs.upvalueIndex name with
  | some idx => pure (some idx)
  | none =>
    match ← capture name line (← get).enclosing.size with
    | some src => some <$> onFs (·.addUpvalue name src line)
    | none => pure none

end Compiler

/-- Where an expression's value can be read without evaluating it. -/
inductive Operand where
  /-- A constant, as its RK operand. -/
  | const (rk : Nat)
  /-- A local's register. -/
  | reg (r : Nat)
  | upval (idx : Nat)
  /-- A global name, read from `_ENV`. -/
  | global
  /-- Anything else: it must be evaluated into a register. -/
  | temp
  deriving DecidableEq, Repr

/-- The RK operand of a constant or register. -/
def Operand.rk? : Operand → Option Nat
  | .const k => some k
  | .reg r => some r
  | _ => none

/-- The constant a literal stands for. -/
def Expr.literal? : Expr → Option Constant
  | .nil _ => some .nil
  | .bool b _ => some (.bool b)
  | .int n _ => some (.int n)
  | .float bits _ => some (.float bits)
  | .str s _ => some (.str s)
  | _ => none

namespace Compiler

/-- A constant as an operand: its RK form when its index is at most 255. -/
def constOperand (k : Constant) : CompileM Operand := do
  let idx ← addConstant k
  pure (if idx ≤ 255 then .const (Instruction.constOperand idx) else .temp)

/-- Where a name's value lives. -/
def classifyName (name : String) (line : Nat) : CompileM Operand := do
  match (← get).fs.slotOf name with
  | some slot => pure (.reg slot)
  | none =>
    match ← resolveUpvalue name line with
    | some idx => pure (.upval idx)
    | none =>
      let _ ← addConstant (.str name)
      pure .global

/-- Where an expression's value can be read without evaluating it. -/
def classify (e : Expr) : CompileM Operand :=
  match e.literal?, e with
  | some k, _ => constOperand k
  | none, .name s line => classifyName s line
  | none, _ => pure .temp

/-- Evaluates `R(a) := _ENV`: the local or upvalue named `_ENV`. -/
def compileEnv (a line : Nat) : CompileM Unit := do
  match (← get).fs.slotOf "_ENV" with
  | some slot => updateFs (·.emitMove a slot line)
  | none =>
    match ← resolveUpvalue "_ENV" line with
    | some idx => emitABC .getUpval a idx 0 line
    | none => throw (.internal "_ENV is not in scope")

/-- The RK operand of a part, or the part evaluated into the target `a`, or into a fresh
temporary when `a` already holds another operand. -/
def rkOrInto (op : CompileM Operand) (compile : Nat → CompileM Unit) (a line : Nat)
    (taken : Bool) : CompileM Nat := do
  match (← op).rk? with
  | some rk => pure rk
  | none =>
    if taken then do
      let tmp ← alloc line
      compile tmp
      free
      pure tmp
    else do
      compile a
      pure a

/-- Where the table of an index is read: in place for a local or an upvalue, else from `a`,
into which it is evaluated. Says whether `a` holds it. -/
def tableIn (t : Operand) (compileTable : Nat → CompileM Unit) (a : Nat) : CompileM (Nat × Bool) :=
  match t with
  | .reg r | .upval r => pure (r, false)
  | _ => do
    compileTable a
    pure (a, true)

/-- Evaluates `R(a) := t[k]`, given how to classify and evaluate the table and the key: the table is
read in place from a local or an upvalue, else evaluated into `a`; the key is read as an RK
operand, else evaluated into a temporary (when `a` holds the table) or into `a`. -/
def indexWith (tableOp : CompileM Operand) (compileTable : Nat → CompileM Unit)
    (keyOp : CompileM Operand) (compileKey : Nat → CompileM Unit) (a line : Nat) :
    CompileM Unit := do
  let t ← tableOp
  let (tab, tableInA) ← tableIn t compileTable a
  let rk ← rkOrInto keyOp compileKey a line tableInA
  let op : Opcode := match t with
    | .upval _ => .getTabUp
    | _ => .getTable
  emitABC op a tab rk line

/-- Evaluates `R(a) := name` for a name: a local is moved, an upvalue read, and a global read from
`_ENV` with the name as a string key. -/
def compileName (name : String) (a line : Nat) : CompileM Unit := do
  match (← get).fs.slotOf name with
  | some slot => updateFs (·.emitMove a slot line)
  | none =>
    match ← resolveUpvalue name line with
    | some idx => emitABC .getUpval a idx 0 line
    | none =>
      if name == "_ENV" then throw (.internal "_ENV is not in scope")
      else
        indexWith (classifyName "_ENV" line) (fun r => compileEnv r line)
          (constOperand (.str name)) (fun r => updateFs (·.emitLoadK r (.str name) line)) a line

end Compiler

end LuaBytecode
