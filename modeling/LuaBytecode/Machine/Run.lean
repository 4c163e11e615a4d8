import LuaBytecode.Machine.Step
/-!
# Running calls

`VM.callValue` calls the function below `nArgs` arguments on the running frame and leaves its
results there, adjusted to `nResults` (all of them for a negative count); `VM.runFunction` executes the
running Lua function to its `return`. The two call each other: a call of a Lua function enters
its frame and runs it, and every instruction that calls (including metamethods and library
functions that call back) goes through `callValue`.

Both take a budget of steps: each call and each instruction spends one, and running out is an
internal failure. `VM.execute` runs a compiled chunk from the host's frame; on a failure it
leaves the frames it entered and restores the host's top before passing the failure on.
-/

namespace LuaBytecode

namespace VM

/-- The failure of a run that used up its budget of steps. -/
def budgetSpent : Fault := .internal "step budget exhausted"

mutual

/-- Calls the function below `nArgs` arguments on the running frame. -/
def callValue : Nat → Nat → Int → VM Unit
  | 0, _, _ => throw budgetSpent
  | fuel + 1, nArgs, nResults => do
    let t ← top
    if t < nArgs + 1 then throw (.internal "call below the stack bottom")
    let (callee, nArgs) ← resolveCallee (t - (nArgs + 1)) nArgs
    match callee with
    | .builtin b _ =>
      let args ← popN nArgs
      let _ ← pop
      pushFrame { running := some callee, slots := args, top := args.size }
      let n ← b.run (callValue fuel)
      let results ← popN n
      popFrame
      modifyFrame (·.pushN results nResults)
    | _ =>
      let f ← enterLua callee nArgs
      pushFrame f
      let results ← runFunction fuel
      popFrame
      modifyFrame (·.pushN results nResults)

/-- Runs the running Lua function until it returns, and gives its results. -/
def runFunction : Nat → VM (Array Value)
  | 0 => throw budgetSpent
  | fuel + 1 => do
    match ← step (callValue fuel) with
    | some values => pure values
    | none => runFunction fuel

end

/-- The budget of steps of a host request. -/
def budget : Nat := 4611686018427387904

/-- Loads a compiled chunk on the running frame and calls it with no arguments, returning all
its results. On a failure the frames entered are left and the top is restored. -/
def execute (p : Proto) : VM (Array Value) := do
  let d := (← get).callers.size
  let base ← top
  load p
  tryCatch
    (do
      callValue budget 0 (-1)
      popN ((← top) - base))
    fun err => do
      unwindTo d
      modifyFrame (·.setTop base)
      throw err

end VM

end LuaBytecode
