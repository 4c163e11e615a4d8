import LuaBytecode.Machine.Enter
import LuaBytecode.Machine.Library
import LuaBytecode.Instruction.FloatByte
/-!
# Executing instructions

`VM.step` fetches the next instruction of the running Lua function and `VM.dispatch` executes
it. It returns the results when the instruction is a `return`, and none otherwise, also after a
tail call to a Lua function, which replaces the running frame by the callee's.

Numeric `for` loops run on three registers. With an integer start and step the loop counts its
iterations in advance (`Loop.iterations`): a float limit is first rounded toward the start
(`Loop.clampLimit`), and the count is kept in the limit's register. Otherwise all three are
floats and the loop goes on while the next value has not passed the limit.
-/

namespace LuaBytecode

namespace Loop

/-- The 64-bit bound of a float `for` limit: rounded down for an ascending loop and up for a
descending one, clamped to the integer range; a NaN limit becomes the end of the range the loop
moves away from. -/
def clampLimit (f : Float) (ascending : Bool) : Int64 :=
  let lo : Int64 := Int64.ofInt (-9223372036854775808)
  let hi : Int64 := Int64.ofInt 9223372036854775807
  if Binary64.isNaN f then (if ascending then lo else hi)
  else if !Binary64.isFinite f then (if Binary64.signBit f then lo else hi)
  else
    let n := if ascending then Binary64.floor f else Binary64.ceil f
    if n ≥ 9223372036854775807 then hi
    else if n ≤ -9223372036854775808 then lo
    else Int64.ofInt n

/-- How many times an integer loop from `init` to `limit` by `step` (not zero) runs, as an
unsigned 64-bit count. -/
def iterations (init limit step : Int64) : UInt64 :=
  let plusOne (x : UInt64) : UInt64 := if x == 18446744073709551615 then x else x + 1
  if step > 0 then
    if init > limit then 0
    else plusOne ((limit.toUInt64 - init.toUInt64) / step.toUInt64)
  else
    if init < limit then 0
    else
      let stride := (-(step + 1)).toUInt64 + 1
      plusOne ((init.toUInt64 - limit.toUInt64) / stride)

end Loop

namespace VM

/-- The failure of a `for` control value that is not a number. -/
def forError (what : String) : Fault := .runtime ("'for' " ++ what ++ " value must be a number")

/-- Reads register `r` of the running frame. -/
def reg (r : Nat) : VM Value := do pure ((← frame).reg r)

/-- Writes register `r` of the running frame. -/
def setReg (r : Nat) (v : Value) : VM Unit := modifyFrame (·.setReg r v)

/-- Moves the running frame's next instruction by `sbx`. -/
def jump (sbx : Int) : VM Unit := modifyFrame fun f => { f with pc := ((f.pc : Int) + sbx).toNat }

/-- Skips the next instruction. -/
def skip : VM Unit := modifyFrame fun f => { f with pc := f.pc + 1 }

/-- Fetches the next instruction of `p` and moves past it. -/
def fetch (p : Proto) : VM Instruction := do
  let f ← frame
  match p.code[f.pc]? with
  | some i =>
    modifyFrame fun f => { f with pc := f.pc + 1 }
    pure i
  | none => throw (.internal ("pc " ++ toString f.pc ++ " outside the function"))

/-- Constant `idx` of the pool. -/
def constant (p : Proto) (idx : Nat) : VM Value :=
  match p.constants[idx]? with
  | some k => pure k.toValue
  | none => throw (.internal ("constant " ++ toString idx ++ " out of range"))

/-- An RK operand: a constant or a register. -/
def rk (p : Proto) (x : Nat) : VM Value :=
  if Instruction.isConst x then constant p (Instruction.constIndex x) else reg x

/-- The value of upvalue `idx` of a closure; nil for a missing one. -/
def getUpval (c : Closure) (idx : Nat) : VM Value :=
  match c.cells[idx]? with
  | some cell => readCell cell
  | none => pure .nil

/-- Writes upvalue `idx` of a closure; nothing for a missing one. -/
def setUpval (c : Closure) (idx : Nat) (v : Value) : VM Unit :=
  match c.cells[idx]? with
  | some cell => writeCell cell v
  | none => pure ()

/-- Sets the top for a call at `a` with `b - 1` arguments (up to the top for `b = 0`) and
returns the argument count. -/
def callArgs (a b : Nat) : VM Nat := do
  if b != 0 then modifyFrame (·.setTop (a + b))
  pure ((← top) - (a + 1))

/-- Prepares a numeric loop (`forprep`): checks and converts the control values. -/
def forPrep (a : Nat) : VM Unit := do
  let init ← match (← reg a).toNumber? with
    | some v => pure v
    | none => throw (forError "initial")
  let limit ← match (← reg (a + 1)).toNumber? with
    | some v => pure v
    | none => throw (forError "limit")
  let step ← match (← reg (a + 2)).toNumber? with
    | some v => pure v
    | none => throw (forError "step")
  match init, step with
  | .int i, .int s =>
    if s == 0 then throw (.runtime "'for' step is zero")
    let l ← match limit with
      | .int l => pure l
      | .float f => pure (Loop.clampLimit f (s > 0))
      | _ => throw (forError "limit")
    let count := Loop.iterations i l s
    setReg a (.int (i - s))
    setReg (a + 1) (.int count.toInt64)
  | _, _ =>
    match init.toFloat?, limit.toFloat?, step.toFloat? with
    | some i, some l, some s =>
      if Binary64.eq s 0 then throw (.runtime "'for' step is zero")
      setReg a (.float (i - s))
      setReg (a + 1) (.float l)
      setReg (a + 2) (.float s)
    | _, _, _ => throw (forError "initial")

/-- Advances a numeric loop (`forloop`); says whether it goes on. -/
def forLoop (a : Nat) : VM Bool := do
  let next ← match ← reg a, ← reg (a + 1), ← reg (a + 2) with
    | .int i, .int count, .int step =>
      let c := count.toUInt64
      if c == 0 then pure none
      else
        setReg (a + 1) (.int (c - 1).toInt64)
        pure (some (Value.int (i + step)))
    | .float i, .float limit, .float step =>
      let n := i + step
      let goOn := if Binary64.lt 0 step then Binary64.le n limit else Binary64.le limit n
      pure (if goOn then some (Value.float n) else none)
    | _, _, _ => pure none
  match next with
  | some v =>
    setReg a v
    setReg (a + 3) v
    pure true
  | none => pure false

/-- Stores list items (`setlist`): the `n` registers above `a` into the table in `a`, from position
`(batch - 1) · 50 + 1`. -/
def setList (a n batch : Nat) : VM Unit := do
  match ← reg a with
  | .table t =>
    let first := (batch - 1) * 50
    for j in List.range n do
      rawSet t (.int (Int64.ofNat (first + j + 1))) (← reg (a + j + 1))
  | _ => throw (.internal "SETLIST target is not a table")

/-- The arithmetic operator of an opcode. -/
def arithOf : Opcode → ArithOp
  | .add => .add | .sub => .sub | .mul => .mul | .mod => .mod | .pow => .pow | .div => .div
  | .idiv => .idiv | .band => .band | .bor => .bor | .bxor => .bxor | .shl => .shl
  | .shr => .shr | .unm => .unm | _ => .bnot

/-- The closure running in the current frame. -/
def runningClosure : VM Closure := do
  match (← frame).running with
  | some (.closure id) =>
    match (← get).closures[id]? with
    | some c => pure c
    | none => throw (.internal "no function in the current frame")
  | some _ => throw (.internal "native function in a Lua frame")
  | none => throw (.internal "no function in the current frame")

/-- Executes instruction `i` of the running closure `lc`, fetched already: the results on
`return`, none otherwise. -/
def dispatch (call : Call) (lc : Closure) (i : Instruction) : VM (Option (Array Value)) := do
  let p := lc.proto
  let nRegs := p.maxStack
  let a := i.a
  match i.opcode with
  | .move => do setReg a (← reg i.b); pure none
  | .loadK => do setReg a (← constant p i.bx); pure none
  | .loadKx => do
    let extra ← fetch p
    setReg a (← constant p extra.axArg)
    pure none
  | .loadBool => do
    setReg a (.bool (i.b != 0))
    if i.c != 0 then skip
    pure none
  | .loadNil => do
    for r in List.range (i.b + 1) do
      setReg (a + r) .nil
    pure none
  | .getUpval => do setReg a (← getUpval lc i.b); pure none
  | .setUpval => do setUpval lc i.b (← reg a); pure none
  | .getTabUp => do
    let t ← getUpval lc i.b
    let k ← rk p i.c
    setReg a (← index call t k)
    pure none
  | .getTable => do
    let t ← reg i.b
    let k ← rk p i.c
    setReg a (← index call t k)
    pure none
  | .setTabUp => do
    let t ← getUpval lc a
    let k ← rk p i.b
    let v ← rk p i.c
    setIndex call t k v
    pure none
  | .setTable => do
    let t ← reg a
    let k ← rk p i.b
    let v ← rk p i.c
    setIndex call t k v
    pure none
  | .newTable => do
    setReg a (← newTable (Table.withRoom (FloatByte.decode i.b) (FloatByte.decode i.c)))
    pure none
  | .method => do
    let obj ← reg i.b
    let k ← rk p i.c
    setReg (a + 1) obj
    setReg a (← index call obj k)
    pure none
  | .add | .sub | .mul | .mod | .pow | .div | .idiv | .band | .bor | .bxor | .shl | .shr => do
    let x ← rk p i.b
    let y ← rk p i.c
    setReg a (← arith call (arithOf i.opcode) x y)
    pure none
  | .unm | .bnot => do
    let x ← reg i.b
    setReg a (← arith call (arithOf i.opcode) x x)
    pure none
  | .not => do setReg a (.bool !(← reg i.b).isTruthy); pure none
  | .len => do setReg a (← len call (← reg i.b)); pure none
  | .concat => do
    let f ← frame
    let values := ((List.range (i.c + 1 - i.b)).map fun r => f.reg (i.b + r)).toArray
    setReg a (← concat call values)
    pure none
  | .jmp => do
    jump i.sbx
    if a != 0 then closeCells (a - 1)
    pure none
  | .eq | .lt | .le => do
    let x ← rk p i.b
    let y ← rk p i.c
    let holds ← match i.opcode with
      | .eq => equals call x y
      | .lt => lessThan call x y
      | _ => lessEqual call x y
    if holds != (a != 0) then skip
    pure none
  | .test => do
    if (← reg a).isTruthy != (i.c != 0) then skip
    pure none
  | .testSet => do
    let v ← reg i.b
    if v.isTruthy == (i.c != 0) then setReg a v else skip
    pure none
  | .call => do
    let nArgs ← callArgs a i.b
    call nArgs ((i.c : Int) - 1)
    if i.c != 0 then modifyFrame (·.resetTop nRegs)
    pure none
  | .tailCall => do
    let nArgs ← callArgs a i.b
    let (callee, nArgs) ← resolveCallee a nArgs
    match callee with
    | .closure _ =>
      let f ← enterLua callee nArgs
      closeCells 0
      modifyFrame fun _ => f
    | _ => call nArgs (-1)
    pure none
  | .ret => do
    let f ← frame
    let values :=
      if i.b == 0 then f.valuesFrom a
      else ((List.range (i.b - 1)).map fun r => f.reg (a + r)).toArray
    pure (some values)
  | .forPrep => do
    forPrep a
    jump i.sbx
    pure none
  | .forLoop => do
    if ← forLoop a then jump i.sbx
    pure none
  | .tforCall => do
    modifyFrame (·.resetTop (a + 3))
    for r in List.range 3 do
      push (← reg (a + r))
    call 2 i.c
    modifyFrame (·.resetTop nRegs)
    pure none
  | .tforLoop => do
    let control ← reg (a + 1)
    if !control.isNil then
      setReg a control
      jump i.sbx
    pure none
  | .setList => do
    let n ← if i.b == 0 then pure ((← top) - (a + 1)) else pure i.b
    let batch ← if i.c == 0 then pure (← fetch p).axArg else pure i.c
    setList a n batch
    if i.b == 0 then modifyFrame (·.resetTop nRegs)
    pure none
  | .closure => do
    match p.protos[i.bx]? with
    | some sub => setReg a (← makeClosure lc sub)
    | none => throw (.internal "prototype index out of range")
    pure none
  | .vararg => do
    let varargs := (← frame).varargs
    if i.b == 0 then
      modifyFrame (·.resetTop a)
      for v in varargs do
        push v
    else
      for r in List.range (i.b - 1) do
        setReg (a + r) (varargs.getD r .nil)
    pure none
  | .extraArg => throw (.internal "EXTRAARG executed on its own")

/-- Executes the next instruction of the running Lua function: the results on `return`, none
otherwise. -/
def step (call : Call) : VM (Option (Array Value)) := do
  let lc ← runningClosure
  let i ← fetch lc.proto
  dispatch call lc i

end VM

end LuaBytecode
