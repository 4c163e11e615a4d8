import LuaBytecode.Machine.Run
/-!
# The host's interface

A fresh machine (`Machine.boot`) has one frame, the host's, and a globals table holding the
base library, registered in the order of `Builtin.globals`. The host works on its frame with
indices from 1 at the bottom or negative from the top, and calls functions it has pushed; a
failed call is not unwound, so the frames it entered stay in use.
-/

namespace LuaBytecode

namespace Machine

/-- A fresh machine whose calls may use `maxDepth` frames. -/
def boot (maxDepth : Nat) : Machine :=
  let (g, n) := Builtin.globals.foldl (fun (g, n) b =>
    match g.set (.str b.name) (.builtin b n) with
    | .ok g => (g, n + 1)
    | .error _ => (g, n + 1)) (Table.empty, 0)
  { tables := #[g], globals := 0, maxDepth, nextBuiltin := n }

end Machine

namespace VM

/-- Moves the host's top to an index; a negative index counts from the top. -/
def setTopAt (idx : Int) : VM Unit := do
  let abs := (← frame).absIndex idx
  if abs < 0 then throw (.runtime ("invalid new top " ++ toString idx))
  modifyFrame (·.setTop abs.toNat)

/-- Calls the function below `nArgs` arguments. -/
def call (nArgs : Nat) (nResults : Int) : VM Unit := callValue budget nArgs nResults

/-- Calls the function below `nArgs` arguments under protection; says whether it succeeded. -/
def pcall (nArgs : Nat) (nResults msgh : Int) : VM Bool :=
  protectedCall (callValue budget) nArgs nResults msgh

/-- The value of a global, read without metamethods. -/
def getGlobal (name : String) : VM Value := do
  let m ← get
  pure ((m.table m.globals).getStr name)

/-- Sets a global, without metamethods. -/
def setGlobal (name : String) (v : Value) : VM Unit := do
  rawSet (← get).globals (.str name) v

/-- Reads `t[k]` with metamethods. -/
def getTable (t k : Value) : VM Value := index (callValue budget) t k

/-- Saving a function as bytecode is not provided. -/
def dump : VM Unit := throw (.unsupported "dump")

/-- Calls with continuations are not provided. -/
def callK : VM Unit := throw (.unsupported "call with continuation")

/-- Protected calls with continuations are not provided. -/
def pcallK : VM Unit := throw (.unsupported "protected call with continuation")

end VM

end LuaBytecode
