import LuaBytecode.Machine.Meta
/-!
# Entering functions

* `VM.resolveCallee` finds the function a call runs: the value itself when it is a function,
  or else its `__call` metamethod, which then takes the value as an extra first argument.
* `VM.enterLua` takes the arguments and the function off the running frame and builds the
  frame of a Lua function: its fixed parameters in the first registers (missing ones nil), the
  arguments beyond them kept aside when the function is vararg, and the top at its register
  count.
* `VM.makeClosure` builds a closure of a nested prototype: an upvalue from a local of the
  running function shares the cell open on that slot; one from an upvalue of the running
  function shares that cell.
* `VM.load` pushes the closure of a main chunk: its first upvalue holds the globals table, the
  others nil.
-/

namespace LuaBytecode

/-- The value of a constant of the pool. -/
def Constant.toValue : Constant → Value
  | .nil => .nil
  | .bool b => .bool b
  | .int n => .int n
  | .float bits => .float (Float.ofBits bits)
  | .str s => .str s

namespace VM

/-- The function a call of the value in `slot` with `nArgs` arguments runs, and its argument
count. -/
def resolveCallee (slot nArgs : Nat) : VM (Value × Nat) := do
  let m ← get
  let callee := m.frame.reg slot
  match callee with
  | .builtin .. | .closure _ => pure (callee, nArgs)
  | _ =>
    match m.metamethod callee "__call" with
    | mm@(.builtin ..) | mm@(.closure _) =>
      modifyFrame fun f => (f.setReg slot mm).insertAt (slot + 1) callee
      pure (mm, nArgs + 1)
    | _ => throw (.notCallable callee.typeName)

/-- The closure of a Lua function object. -/
def closureOf (v : Value) : VM Closure := do
  match v with
  | .closure id =>
    match (← get).closures[id]? with
    | some c => pure c
    | none => throw (.internal "dangling closure")
  | .builtin b _ => throw (.internal (b.name ++ " is not a Lua function"))
  | _ => throw (.internal "not a function")

/-- Takes `nArgs` arguments and the Lua function below them off the running frame, and builds
the function's frame. -/
def enterLua (callee : Value) (nArgs : Nat) : VM Frame := do
  let c ← closureOf callee
  let nRegs := c.proto.maxStack
  let nParams := c.proto.numParams
  let args ← popN nArgs
  let _ ← pop
  let (fixed, varargs) :=
    if c.proto.isVararg && args.size > nParams then (args.extract 0 nParams, args.extract nParams args.size)
    else (args, #[])
  let f : Frame := { running := some callee, varargs }
  pure ((f.pushN fixed nParams).resetTop nRegs)

/-- A closure of prototype `p` made by the running function, whose closure is `parent`. -/
def makeClosure (parent : Closure) (p : Proto) : VM Value := do
  let mut cells : Array Nat := #[]
  for src in p.upvalues do
    let cell ← match src with
      | .register slot => openCell slot
      | .upvalue idx =>
        match parent.cells[idx]? with
        | some cell => pure cell
        | none => newCell (.closed .nil)
    cells := cells.push cell
  newClosure { proto := p, cells }

/-- Pushes the closure of a main chunk on the running frame. -/
def load (p : Proto) : VM Unit := do
  let g := (← get).globals
  let mut cells : Array Nat := #[]
  for i in List.range p.upvalues.size do
    cells := cells.push (← newCell (.closed (if i == 0 then .table g else .nil)))
  push (← newClosure { proto := p, cells })

end VM

end LuaBytecode
