import LuaBytecode.Proto.Basic
import LuaBytecode.Instruction.FloatByte
import LuaBytecode.Fault
/-!
# The state of one function being compiled

`FuncState` is everything the compiler knows about the function it is writing: the code so
far, the constant pool, the upvalues, the prototypes of nested functions, the active locals with
their registers and scope depths, the enclosing loops with their pending `break` jumps, and the
register window.

Registers are handed out as a stack (`allocReg`, `freeReg`): the active locals hold the bottom
registers in declaration order, and temporaries are taken and given back above them. A
function may use at most 255 registers and 255 upvalues.

Jumps are written with a zero displacement and patched once their target is known
(`emitJump`, `patchJump`); `finish` refuses a function that still has an unpatched jump.

The compiler checks its own work as it goes and stops with `Fault.panic` when a check fails:
every instruction is built only from operands that fit its fields (`buildABC`, `buildABx`,
`buildAx`), a register is given back only above the active locals (`freeReg`), and registers
are reset only to a mark at or below the top (`resetRegs`).
-/

namespace LuaBytecode

/-- An active local: its name, register, scope depth, whether a closure captured it, and the
position of its debug record. -/
structure ActiveLocal where
  name : String
  slot : Nat
  depth : Nat
  captured : Bool
  record : Nat
  deriving Inhabited

/-- A loop being compiled: its scope depth, its first register, its pending `break` jumps, and
whether a closure captured a local declared in it. -/
structure LoopInfo where
  depth : Nat
  base : Nat
  breaks : List Nat
  captured : Bool
  deriving Inhabited

/-- The compiler's state for one function. -/
structure FuncState where
  code : Array Instruction := #[]
  lines : Array Nat := #[]
  constants : Array Constant := #[]
  upvalues : Array (String × UpvalSource) := #[]
  protos : Array Proto := #[]
  actives : Array ActiveLocal := #[]
  locals : Array LocalInfo := #[]
  depth : Nat := 0
  loops : Array LoopInfo := #[]
  usedRegs : Nat := 0
  maxRegs : Nat := 0
  pending : List Nat := []
  numParams : Nat := 0
  isVararg : Bool := false
  source : String := ""
  lineDefined : Nat := 0
  deriving Inhabited

namespace FuncState

/-- The most registers a function may use. -/
def maxRegisters : Nat := 255

/-- The most upvalues a function may have. -/
def maxUpvalues : Nat := 255

/-- A fresh function defined at `line`. -/
def new (source : String) (line : Nat) (isVararg : Bool) : FuncState :=
  { source, lineDefined := line, isVararg }

/-- The state for a main chunk: it takes `...`, and its upvalue 0 is `_ENV`. -/
def main (source : String) : FuncState :=
  { new source 0 true with upvalues := #[("_ENV", .register 0)] }

/-! ## Registers -/

/-- Is `r` the most recently allocated register? -/
def isTop (fs : FuncState) (r : Nat) : Bool := r + 1 == fs.usedRegs

/-- Takes the next register. -/
def allocReg (fs : FuncState) (line : Nat) : Except Fault (FuncState × Nat) :=
  if fs.usedRegs ≥ maxRegisters then
    .error (.compile line "function or expression needs too many registers")
  else
    let r := fs.usedRegs
    .ok ({ fs with usedRegs := r + 1, maxRegs := max fs.maxRegs (r + 1) }, r)

/-- Takes `n` consecutive registers and returns the first. -/
def allocRegs (fs : FuncState) (n line : Nat) : Except Fault (FuncState × Nat) :=
  let first := fs.usedRegs
  let rec go (fs : FuncState) : Nat → Except Fault FuncState
    | 0 => .ok fs
    | k + 1 => do
      let (fs, _) ← fs.allocReg line
      go fs k
  (go fs n).map fun fs => (fs, first)

/-- The registers the active locals hold: up to the last local's register. -/
def activeRegCount (fs : FuncState) : Nat :=
  match fs.actives.back? with
  | some l => l.slot + 1
  | none => 0

/-- Gives back the most recently allocated register, which must not be a local's. -/
def freeReg (fs : FuncState) : Except Fault FuncState :=
  if fs.activeRegCount < fs.usedRegs then .ok { fs with usedRegs := fs.usedRegs - 1 }
  else .error (.panic "freed a local's register")

/-- Gives back the `n` most recently allocated registers, one at a time. -/
def freeRegs (fs : FuncState) : Nat → Except Fault FuncState
  | 0 => .ok fs
  | n + 1 => do
    let fs ← fs.freeReg
    fs.freeRegs n

/-- Gives back every register above `mark`, which must be at most the top. -/
def resetRegs (fs : FuncState) (mark : Nat) : Except Fault FuncState :=
  if mark ≤ fs.usedRegs then .ok { fs with usedRegs := mark }
  else .error (.panic "assertion failed: mark <= self.used_regs")

/-! ## Building instructions -/

/-- An ABC instruction, provided its operands fit their fields. -/
def buildABC (op : Opcode) (a b c : Nat) : Except Fault Instruction :=
  if a ≤ Instruction.maxA ∧ b ≤ Instruction.maxBC ∧ c ≤ Instruction.maxBC then
    .ok (Instruction.abc op a b c)
  else .error (.panic "assertion failed: a <= MAXARG_A && b <= MAXARG_B && c <= MAXARG_C")

/-- An ABx instruction, provided its operands fit their fields. -/
def buildABx (op : Opcode) (a bx : Nat) : Except Fault Instruction :=
  if a ≤ Instruction.maxA ∧ bx ≤ Instruction.maxBx then .ok (Instruction.abx op a bx)
  else .error (.panic "assertion failed: a <= MAXARG_A && bx <= MAXARG_BX")

/-- An integer as a 32-bit word: a negative one wraps around to a word past every field. -/
def word32 (x : Int) : Nat := (x % 4294967296).toNat

/-- An AsBx instruction: the displacement is biased into Bx, which must then fit. -/
def buildAsBx (op : Opcode) (a : Nat) (sbx : Int) : Except Fault Instruction :=
  buildABx op a (word32 (sbx + Instruction.sbxBias))

/-- An Ax instruction, provided its operand fits. -/
def buildAx (op : Opcode) (x : Nat) : Except Fault Instruction :=
  if x ≤ Instruction.maxAx then .ok (Instruction.ax op x)
  else .error (.panic "assertion failed: ax <= MAXARG_AX")

/-! ## Code -/

/-- The position the next instruction will take. -/
def pc (fs : FuncState) : Nat := fs.code.size

/-- Appends an instruction at a source line, returning its position. -/
def emit (fs : FuncState) (i : Instruction) (line : Nat) : FuncState × Nat :=
  ({ fs with code := fs.code.push i, lines := fs.lines.push line }, fs.code.size)

/-- Appends an instruction, dropping its position. -/
def emit' (fs : FuncState) (i : Instruction) (line : Nat) : FuncState := (fs.emit i line).1

/-- Appends an ABC instruction. -/
def emitABC (fs : FuncState) (op : Opcode) (a b c line : Nat) : Except Fault FuncState := do
  let i ← buildABC op a b c
  pure (fs.emit' i line)

/-- Appends an ABx instruction. -/
def emitABx (fs : FuncState) (op : Opcode) (a bx line : Nat) : Except Fault FuncState := do
  let i ← buildABx op a bx
  pure (fs.emit' i line)

/-- Appends an AsBx instruction. -/
def emitAsBx (fs : FuncState) (op : Opcode) (a : Nat) (sbx : Int) (line : Nat) :
    Except Fault FuncState := do
  let i ← buildAsBx op a sbx
  pure (fs.emit' i line)

/-- Appends an Ax instruction. -/
def emitAx (fs : FuncState) (op : Opcode) (x line : Nat) : Except Fault FuncState := do
  let i ← buildAx op x
  pure (fs.emit' i line)

/-- Appends a jump-like instruction whose displacement is patched later. -/
def emitJump (fs : FuncState) (op : Opcode) (a line : Nat) : Except Fault (FuncState × Nat) := do
  let fs' ← fs.emitAsBx op a 0 line
  pure ({ fs' with pending := fs.pc :: fs'.pending }, fs.pc)

/-- Points the jump at `pc` to `target`: its displacement becomes `target - pc - 1`. -/
def patchJump (fs : FuncState) (pc target : Nat) : Except Fault FuncState :=
  let sbx : Int := (target : Int) - pc - 1
  if sbx.natAbs > 131071 then .error (.compile (fs.lines.getD pc 0) "control structure too long")
  else
    .ok { fs with
      code := fs.code.modify pc (·.setSbx sbx)
      pending := fs.pending.filter (· != pc) }

/-- Sets operand A of the instruction at `pc`, provided it fits. -/
def setJumpA (fs : FuncState) (pc a : Nat) : Except Fault FuncState :=
  if a ≤ Instruction.maxA then .ok { fs with code := fs.code.modify pc (·.setA a) }
  else .error (.panic "assertion failed: a <= MAXARG_A")

/-- Emits `R(a) := R(b)`. -/
def emitMove (fs : FuncState) (a b line : Nat) : Except Fault FuncState :=
  fs.emitABC .move a b 0 line

/-- Emits `R(a) … R(a+n-1) := nil`, for at least one register. -/
def emitLoadNil (fs : FuncState) (a n line : Nat) : Except Fault FuncState :=
  if n = 0 then .error (.panic "attempt to subtract with overflow")
  else fs.emitABC .loadNil a (n - 1) 0 line

/-- Emits `R(a) := b`, skipping the next instruction when `skip`. -/
def emitLoadBool (fs : FuncState) (a : Nat) (b skip : Bool) (line : Nat) :
    Except Fault FuncState :=
  fs.emitABC .loadBool a (if b then 1 else 0) (if skip then 1 else 0) line

/-- The index of a constant in the pool, adding it at the end when new. -/
def addConstant (fs : FuncState) (c : Constant) : FuncState × Nat :=
  match fs.constants.idxOf? c with
  | some i => (fs, i)
  | none => ({ fs with constants := fs.constants.push c }, fs.constants.size)

/-- Emits `R(a) := c` for a constant; past index 262143 the index travels in an `extraArg`. -/
def emitLoadK (fs : FuncState) (a : Nat) (c : Constant) (line : Nat) : Except Fault FuncState :=
  let (fs, idx) := fs.addConstant c
  if idx ≤ Instruction.maxBx then fs.emitABx .loadK a idx line
  else do
    let fs ← fs.emitABx .loadKx a 0 line
    fs.emitAx .extraArg idx line

/-- Emits `R(a) …` := the varargs, `n` of them, or all when `n = -1`. -/
def emitVararg (fs : FuncState) (a : Nat) (n : Int) (line : Nat) : Except Fault FuncState :=
  fs.emitABC .vararg a (word32 (n + 1)) 0 line

/-- A new table with size hints for its two parts. -/
def emitNewTable (fs : FuncState) (a narr nrec line : Nat) : Except Fault FuncState :=
  fs.emitABC .newTable a (FloatByte.encode narr) (FloatByte.encode nrec) line

/-- Stores `n` list items above `a` (all up to top when `n = 0`) as batch `batch`; past 511
the batch travels in an `extraArg`. -/
def emitSetList (fs : FuncState) (a n batch line : Nat) : Except Fault FuncState :=
  if batch ≤ Instruction.maxBC then fs.emitABC .setList a n batch line
  else do
    let fs ← fs.emitABC .setList a n 0 line
    fs.emitAx .extraArg batch line

/-- A call with `nArgs` arguments (all up to top for -1) and `nResults` results (all for -1). -/
def emitCall (fs : FuncState) (a : Nat) (nArgs nResults : Int) (line : Nat) :
    Except Fault FuncState :=
  fs.emitABC .call a (word32 (nArgs + 1)) (word32 (nResults + 1)) line

/-- A tail call with `nArgs` arguments. -/
def emitTailCall (fs : FuncState) (a : Nat) (nArgs : Int) (line : Nat) : Except Fault FuncState :=
  fs.emitABC .tailCall a (word32 (nArgs + 1)) 0 line

/-- A return of `n` values from `a` (all up to top for -1). -/
def emitReturn (fs : FuncState) (a : Nat) (n : Int) (line : Nat) : Except Fault FuncState :=
  fs.emitABC .ret a (word32 (n + 1)) 0 line

/-- Skips the next instruction unless the truth of `R(a)` is `c`. -/
def emitTest (fs : FuncState) (a c line : Nat) : Except Fault FuncState :=
  fs.emitABC .test a 0 c line

/-! ## Scopes and locals -/

/-- Opens a scope; a breakable one is a loop. -/
def enterScope (fs : FuncState) (breakable : Bool) : FuncState :=
  let depth := fs.depth + 1
  let loops :=
    if breakable then fs.loops.push { depth, base := fs.usedRegs, breaks := [], captured := false }
    else fs.loops
  { fs with depth, loops }

/-- Patches each of the jumps to `target`, with operand A set to `a`. -/
def patchBreaks (fs : FuncState) (a target : Nat) : List Nat → Except Fault FuncState
  | [] => .ok fs
  | pc :: rest => do
    let fs ← fs.setJumpA pc a
    let fs ← fs.patchJump pc target
    patchBreaks fs a target rest

/-- Retires the active locals of the innermost scope, ending their live ranges at `endPc`. -/
def retireLocals (fs : FuncState) (endPc : Nat) (fuel : Nat) : FuncState :=
  match fuel with
  | 0 => fs
  | fuel + 1 =>
    match fs.actives.back? with
    | some l =>
      if l.depth == fs.depth then
        let fs := { fs with
          actives := fs.actives.pop
          locals := fs.locals.modify l.record fun r => { r with endPc := endPc }
          usedRegs := l.slot }
        retireLocals fs endPc fuel
      else fs
    | none => fs

/-- Closes the innermost loop when it is the innermost scope: its breaks are patched to
`endPc`, closing upvalues when a local of the loop was captured. -/
def closeLoop (fs : FuncState) (endPc : Nat) : Except Fault FuncState :=
  match fs.loops.back? with
  | some lp =>
    if lp.depth == fs.depth then
      let fs := { fs with loops := fs.loops.pop }
      fs.patchBreaks (if lp.captured then lp.base + 1 else 0) endPc lp.breaks.reverse
    else pure fs
  | none => pure fs

/-- Closes the innermost scope: a loop's breaks are patched to the current position, and the
scope's locals are retired. -/
def exitScope (fs : FuncState) : Except Fault FuncState := do
  let endPc := fs.pc
  let fs ← fs.closeLoop endPc
  let fs := fs.retireLocals endPc fs.actives.size
  pure { fs with depth := fs.depth - 1 }

/-- Takes the next register for a new local `name`. -/
def addLocal (fs : FuncState) (name : String) (line : Nat) : Except Fault (FuncState × Nat) := do
  let (fs, slot) ← fs.allocReg line
  let record := fs.locals.size
  let fs := { fs with
    locals := fs.locals.push { name, startPc := fs.pc, endPc := 0 }
    actives := fs.actives.push { name, slot, depth := fs.depth, captured := false, record } }
  pure (fs, slot)

/-- The register of the innermost active local named `name`. -/
def slotOf (fs : FuncState) (name : String) : Option Nat :=
  (fs.actives.toList.reverse.find? (·.name == name)).map (·.slot)

/-- Marks the innermost local named `name` as captured by a closure, and with it every loop
that encloses its declaration; returns its register. -/
def captureLocal (fs : FuncState) (name : String) : Option (FuncState × Nat) :=
  match (fs.actives.toList.reverse.findIdx? (·.name == name)) with
  | none => none
  | some j =>
    let i := fs.actives.size - 1 - j
    let l := fs.actives.getD i default
    let actives := fs.actives.set! i { l with captured := true }
    let loops := fs.loops.map fun lp => if lp.depth ≤ l.depth then { lp with captured := true } else lp
    some ({ fs with actives, loops }, l.slot)

/-- The A operand for a jump that closes the captured locals of the innermost scope: one more
than the lowest register of the scope's named locals, or 0 when none of them was captured. -/
def jmpArgA (fs : FuncState) : Nat :=
  let scope := fs.actives.toList.reverse.takeWhile (·.depth == fs.depth)
  let captured := scope.any (·.captured)
  let minSlot := scope.foldl (fun m l => if l.name.startsWith "(" then m else min m l.slot) fs.maxRegs
  if captured then minSlot + 1 else 0

/-- Emits `jmp(A,0)` when the innermost scope has captured locals. -/
def closeOpenUpvals (fs : FuncState) (line : Nat) : Except Fault FuncState :=
  let a := fs.jmpArgA
  if a > 0 then fs.emitAsBx .jmp a 0 line else .ok fs

/-- Records a `break` out of the innermost loop. -/
def addBreak (fs : FuncState) (line : Nat) : Except Fault FuncState :=
  match fs.loops.back? with
  | none => .error (.compile line "break outside a loop")
  | some lp => do
    let (fs, pc) ← fs.emitJump .jmp 0 line
    pure { fs with loops := fs.loops.set! (fs.loops.size - 1) { lp with breaks := pc :: lp.breaks } }

/-! ## Upvalues and nested functions -/

/-- The index of the upvalue named `name`. -/
def upvalueIndex (fs : FuncState) (name : String) : Option Nat := fs.upvalues.findIdx? (·.1 == name)

/-- Adds an upvalue. -/
def addUpvalue (fs : FuncState) (name : String) (src : UpvalSource) (line : Nat) :
    Except Fault (FuncState × Nat) :=
  if fs.upvalues.size ≥ maxUpvalues then .error (.compile line "too many upvalues")
  else .ok ({ fs with upvalues := fs.upvalues.push (name, src) }, fs.upvalues.size)

/-- Adds the prototype of a nested function, returning its index. -/
def addProto (fs : FuncState) (p : Proto) : FuncState × Nat :=
  ({ fs with protos := fs.protos.push p }, fs.protos.size)

/-- Freezes the function into a prototype; every jump must have been patched. -/
def finish (fs : FuncState) (lastLine : Nat) : Except Fault Proto :=
  match fs.pending.min? with
  | some pc => .error (.internal ("unpatched jump at pc " ++ toString pc ++ " in " ++ fs.source))
  | none =>
    let endPc := fs.pc
    let locals := fs.actives.foldl (fun ls l => ls.modify l.record fun r => { r with endPc := endPc })
      fs.locals
    .ok {
      code := fs.code
      lines := fs.lines
      constants := fs.constants
      upvalues := fs.upvalues.map (·.2)
      upvalueNames := fs.upvalues.map (·.1)
      protos := fs.protos
      numParams := fs.numParams
      isVararg := fs.isVararg
      maxStack := max fs.maxRegs 2
      locals
      source := fs.source
      lineDefined := fs.lineDefined
      lastLineDefined := lastLine }

end FuncState

end LuaBytecode
