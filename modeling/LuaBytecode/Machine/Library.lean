import LuaBytecode.Machine.Meta
/-!
# The base library

The library functions run on their own frame, which holds exactly their arguments (argument `n`
at host index `n`), and return how many values they left on top as results.

* Argument checks fail with `bad argument #n to 'name' (…)`: a missing argument is `no value`.
* `tostring` and `print` use `__tostring`, which must give a string.
* `tonumber` reads strings as numerals, or as integers in a base from 2 to 36.
* `pcall` runs its function under `VM.protectedCall` and reports `true` and the results, or
  `false` and the error object.
* `select`, `rawget`, `rawset`, `rawequal`, `setmetatable`, `getmetatable`, `next`, `pairs`
  and `ipairs` are the usual ones; the iterators `pairs` and `ipairs` return are new function
  objects on each call.

A protected call leaves the frames it entered, restores the top below the called function, and
turns the error into an error object: a raised string stays as it is, a raised table gives its
`_ERR` field, other raised values give `unknown error`, and any other failure gives its text.
-/

namespace LuaBytecode

namespace VM

/-- The failure of a bad argument. -/
def argError (n : Nat) (fname msg : String) : Fault :=
  .runtime ("bad argument #" ++ toString n ++ " to '" ++ fname ++ "' (" ++ msg ++ ")")

/-- Argument `n`, which must be present. -/
def checkAny (n : Nat) (fname : String) : VM Value := do
  if n > (← top) then throw (argError n fname "value expected")
  getAt n

/-- Argument `n`, which must be a table. -/
def checkTable (n : Nat) (fname : String) : VM Nat := do
  let v ← getAt n
  match v with
  | .table id => pure id
  | _ =>
    let got := if n > (← top) then "no value" else v.typeName
    throw (argError n fname ("table expected, got " ++ got))

/-- The arguments, in order. -/
def args : VM (List Value) := do
  let f ← frame
  pure ((List.range f.top).map fun (i : Nat) => f.get ((i : Int) + 1))

/-- The text of a value, through `__tostring`. -/
def tostring (call : Call) (v : Value) : VM String := do
  let mm := (← get).metamethod v "__tostring"
  if mm.isNil then pure v.render
  else
    push mm
    push v
    call 1 1
    match ← pop with
    | .str s => pure s
    | _ => throw (.runtime "'__tostring' must return a string")

/-- The object a caught error leaves for the protected caller. -/
def errorObject (err : Fault) : VM Value := do
  match err with
  | .raised (.table id) =>
    let field := ((← get).table id).getStr "_ERR"
    pure (if field.isNil then .str "unknown error" else field)
  | .raised (.str s) => pure (.str s)
  | .raised _ => pure (.str "unknown error")
  | other => pure (.str other.message)

/-- Calls the function below `nArgs` arguments, catching its failure. Returns whether it
succeeded; after a failure the frames it entered are left, the top is back below the function,
and the error object is pushed (or, for a negative handler, raised). A positive handler is not
supported. -/
def protectedCall (call : Call) (nArgs : Nat) (nResults : Int) (msgh : Int) : VM Bool := do
  if msgh > 0 then throw (.unsupported "message handler")
  let d := (← get).callers.size
  let funcSlot := (← top) - (nArgs + 1)
  tryCatch (do call nArgs nResults; pure true) fun err => do
    unwindTo d
    modifyFrame (·.setTop funcSlot)
    let obj ← errorObject err
    if msgh < 0 then throw (.raised obj)
    push obj
    pure false

/-- The library function `tonumber(v [, base])`. -/
def tonumber : VM Nat := do
  let result ← match ← getAt 2 with
    | .nil =>
      match ← checkAny 1 "tonumber" with
      | .int n => pure (Value.int n)
      | .float x => pure (.float x)
      | .str s => pure ((Coerce.number? s).getD .nil)
      | _ => pure .nil
    | base =>
      let b ← match base with
        | .int b => if 2 ≤ b && b ≤ 36 then pure b.toInt.toNat else throw (argError 2 "tonumber" "base out of range")
        | _ => throw (argError 2 "tonumber" "base out of range")
      match ← getAt 1 with
      | .str s => pure ((Coerce.intInBase? s b).map Value.int |>.getD .nil)
      | other => throw (argError 1 "tonumber" ("string expected, got " ++ other.typeName))
  push result
  pure 1

/-- The library function `select(n, …)`, or `select('#', …)` for the count. -/
def select : VM Nat := do
  let n : Int := (← top)
  match ← getAt 1 with
  | .str "#" =>
    push (.int (Int64.ofInt (n - 1)))
    pure 1
  | v =>
    let i ← match v.toInteger? with
      | some i => pure i.toInt
      | none => throw (argError 1 "select" "number expected")
    let i := if i < 0 then n + i else min i n
    if i < 1 then throw (argError 1 "select" "index out of range")
    pure (n - i).toNat

/-- The library function `next(t [, k])`. -/
def next : VM Nat := do
  let t ← checkTable 1 "next"
  match ((← get).table t).next (← getAt 2) with
  | .error e => throw (.runtime e.message)
  | .ok (some (k, v)) =>
    push k
    push v
    pure 2
  | .ok none =>
    push .nil
    pure 1

/-- The step of an `ipairs` traversal: the entry after integer `i`, through `__index`. -/
def ipairsStep (call : Call) : VM Nat := do
  let t ← getAt 1
  let i := ((← getAt 2).toInteger?.getD 0) + 1
  let v ← index call t (.int i)
  if v.isNil then
    push .nil
    pure 1
  else
    push (.int i)
    push v
    pure 2

end VM

namespace Builtin

open VM in
/-- Runs a library function on its frame and returns how many results it left. -/
def run (call : Call) : Builtin → VM Nat
  | .print => do
    let mut parts : Array String := #[]
    for v in ← args do
      parts := parts.push (← VM.tostring call v)
    write ("\t".intercalate parts.toList ++ "\n")
    pure 0
  | .type => do
    let v ← checkAny 1 "type"
    push (.str v.typeName)
    pure 1
  | .tostring => do
    let v ← checkAny 1 "tostring"
    let s ← VM.tostring call v
    push (.str s)
    pure 1
  | .tonumber => VM.tonumber
  | .assert => do
    let v ← checkAny 1 "assert"
    if v.isTruthy then top
    else
      match ← getAt 2 with
      | .nil => throw (.raised (.str "assertion failed!"))
      | msg => throw (.raised msg)
  | .error => do throw (.raised (← getAt 1))
  | .pcall => do
    let _ ← checkAny 1 "pcall"
    let nArgs := (← top) - 1
    let ok ← protectedCall call nArgs (-1) 0
    push (.bool ok)
    insert 1
    top
  | .select => VM.select
  | .rawget => do
    let t ← checkTable 1 "rawget"
    let v := ((← get).table t).get (← getAt 2)
    push v
    pure 1
  | .rawset => do
    let t ← checkTable 1 "rawset"
    rawSet t (← getAt 2) (← getAt 3)
    push (.table t)
    pure 1
  | .rawequal => do
    let a ← checkAny 1 "rawequal"
    let b ← checkAny 2 "rawequal"
    push (.bool (a.rawEq b))
    pure 1
  | .setmetatable => do
    let t ← checkTable 1 "setmetatable"
    let mt ← match ← getAt 2 with
      | .nil => pure none
      | .table id => pure (some id)
      | _ => throw (argError 2 "setmetatable" "nil or table expected")
    modifyTable t fun tb => { tb with metatable := mt }
    push (.table t)
    pure 1
  | .getmetatable => do
    let m ← get
    let mt := match ← getAt 1 with
      | .table id => (m.table id).metatable
      | _ => none
    push (match mt with
      | some id => .table id
      | none => .nil)
    pure 1
  | .next => VM.next
  | .pairs => do
    let t ← checkAny 1 "pairs"
    let mm := (← get).metamethod t "__pairs"
    if !mm.isNil then
      push mm
      push t
      call 1 3
      pure 3
    else
      let _ ← checkTable 1 "pairs"
      push (← newBuiltin .next)
      push t
      push .nil
      pure 3
  | .ipairs => do
    let t ← checkAny 1 "ipairs"
    push (← newBuiltin .ipairsStep)
    push t
    push (.int 0)
    pure 3
  | .ipairsStep => VM.ipairsStep call

end Builtin

end LuaBytecode
