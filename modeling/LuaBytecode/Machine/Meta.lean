import LuaBytecode.Machine.State
import LuaBytecode.Machine.Arith
/-!
# Operations with metamethods

Indexing, assignment to fields, arithmetic, concatenation, length and comparison, each first
tried on the primitive values and then through the operands' metatables. A metamethod is
called through `call`, the machine's own call of the function below `n` arguments on the
running frame, so that these operations do not depend on how calls run.

* `VM.index` follows `__index` from table to table, at most 100 steps; a function handler is
  called with the object and the key. Indexing a value other than a table fails.
* `VM.setIndex` writes raw when the key is present or there is no `__newindex`, and otherwise
  follows `__newindex` the same way.
* A binary metamethod is looked up on the left operand, then on the right one.
* `a <= b` falls back to `__le`, then to `not (b < a)` through `__lt`.
-/

namespace LuaBytecode

namespace VM

/-- The machine's call: calls the function below `n` arguments on the running frame, leaving
its results adjusted to the wanted count (all for a negative count). -/
abbrev Call := Nat → Int → VM Unit

/-- Calls a metamethod with the given arguments and returns its first result. -/
def callMeta (call : Call) (mm : Value) (args : List Value) : VM Value := do
  push mm
  for a in args do
    push a
  call args.length 1
  pop

/-- Calls the metamethod `event` of `a`, or else of `b`, with `a` and `b`; none when neither
has one. -/
def tryBinaryMeta (call : Call) (a b : Value) (event : String) : VM (Option Value) := do
  let m ← get
  let mm := m.metamethod a event
  let mm := if mm.isNil then m.metamethod b event else mm
  if mm.isNil then pure none else some <$> callMeta call mm [a, b]

/-- Is the value a function? -/
def isFunction : Value → Bool
  | .builtin .. | .closure _ => true
  | _ => false

/-- The longest chain of `__index` or `__newindex` handlers followed. -/
def metaChainLimit : Nat := 100

/-- Reads `t[k]`, through `__index` handlers. -/
def index (call : Call) (t k : Value) : VM Value :=
  go metaChainLimit t
where
  go : Nat → Value → VM Value
    | 0, _ => throw (.runtime "'__index' chain too long; possible loop")
    | n + 1, cur => do
      let m ← get
      match cur with
      | .table id =>
        let raw := (m.table id).get k
        if !raw.isNil then pure raw
        else
          let h := m.metamethod cur "__index"
          if h.isNil then pure .nil
          else if isFunction h then callMeta call h [cur, k]
          else go n h
      | other => throw (.typeMismatch "index" other.typeName)

/-- Writes `t[k] = v`, through `__newindex` handlers. -/
def setIndex (call : Call) (t k v : Value) : VM Unit :=
  go metaChainLimit t
where
  go : Nat → Value → VM Unit
    | 0, _ => throw (.runtime "'__newindex' chain too long; possible loop")
    | n + 1, cur => do
      let m ← get
      match cur with
      | .table id =>
        let h := if ((m.table id).get k).isNil then m.metamethod cur "__newindex" else .nil
        if h.isNil then rawSet id k v
        else if isFunction h then
          let _ ← callMeta call h [cur, k, v]
        else go n h
      | other => throw (.typeMismatch "index" other.typeName)

/-- Runs a computation of the primitive layer in the machine. -/
def lift {α : Type} (x : Except Fault α) : VM α :=
  match x with
  | .ok a => pure a
  | .error e => throw e

/-- An arithmetic or bitwise operator, through its metamethod when the operands are not
numbers. A unary operator is given its operand twice. -/
def arith (call : Call) (op : ArithOp) (a b : Value) : VM Value := do
  match ← lift (Arith.apply op a b) with
  | some v => pure v
  | none =>
    match ← tryBinaryMeta call a b op.event with
    | some v => pure v
    | none =>
      let culprit := if a.toNumber?.isNone then a else b
      if op.isBitwise then
        if culprit.toNumber?.isSome then throw (.runtime "number has no integer representation")
        else throw (.typeMismatch "perform bitwise operation on" culprit.typeName)
      else throw (.typeMismatch "perform arithmetic on" culprit.typeName)

/-- The concatenation of values, from the right: strings and numbers join as text, other pairs
go through `__concat`. -/
def concat (call : Call) (values : Array Value) : VM Value := do
  match values.toList.reverse with
  | [] => pure .nil
  | last :: rest =>
    let step (acc lhs : Value) : VM Value := do
      match lhs.concatText?, acc.concatText? with
      | some l, some r => pure (.str (l ++ r))
      | _, _ =>
        match ← tryBinaryMeta call lhs acc "__concat" with
        | some v => pure v
        | none =>
          let culprit := if lhs.concatText?.isNone then lhs else acc
          throw (.typeMismatch "concatenate" culprit.typeName)
    rest.foldlM step last

/-- The length of a value: a string's size in bytes, `__len`, or a table's border. -/
def len (call : Call) (v : Value) : VM Value := do
  match v with
  | .str s => pure (.int (Int64.ofNat s.utf8ByteSize))
  | _ =>
    let mm := (← get).metamethod v "__len"
    if !mm.isNil then callMeta call mm [v]
    else
      match v with
      | .table id => pure (.int (Int64.ofNat ((← get).table id).length))
      | other => throw (.typeMismatch "get length of" other.typeName)

/-- Equality: primitive, or for two tables through `__eq`. -/
def equals (call : Call) (a b : Value) : VM Bool := do
  if a.rawEq b then pure true
  else
    match a, b with
    | .table _, .table _ =>
      match ← tryBinaryMeta call a b "__eq" with
      | some v => pure v.isTruthy
      | none => pure false
    | _, _ => pure false

/-- The failure of comparing two values without an order. -/
def compareError (a b : Value) : Fault :=
  if a.typeName == b.typeName then .runtime ("attempt to compare two " ++ a.typeName ++ " values")
  else .runtime ("attempt to compare " ++ a.typeName ++ " with " ++ b.typeName)

/-- Decides `a < b`, through `__lt`. -/
def lessThan (call : Call) (a b : Value) : VM Bool := do
  match Arith.lessThan? a b with
  | some r => pure r
  | none =>
    match ← tryBinaryMeta call a b "__lt" with
    | some v => pure v.isTruthy
    | none => throw (compareError a b)

/-- Decides `a <= b`, through `__le`, or else as `not (b < a)` through `__lt`. -/
def lessEqual (call : Call) (a b : Value) : VM Bool := do
  match Arith.lessEqual? a b with
  | some r => pure r
  | none =>
    match ← tryBinaryMeta call a b "__le" with
    | some v => pure v.isTruthy
    | none =>
      match ← tryBinaryMeta call b a "__lt" with
      | some v => pure !v.isTruthy
      | none => throw (compareError a b)

end VM

end LuaBytecode
