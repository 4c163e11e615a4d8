import LuaBytecode.Machine.Frame
import LuaBytecode.Table.Basic
import LuaBytecode.Proto.Basic
import LuaBytecode.Fault
/-!
# Machine state

The machine holds the running frame and the frames of its callers, and the heap: tables, Lua
closures and upvalue cells, each named by its position. Objects are never freed, so a position
names one object for the machine's whole life.

An upvalue cell is open while the local it captures lives: it then names the frame (by depth)
and the slot, and reading or writing the upvalue goes to that slot. When the frame returns, or a
block that captured the local ends, the cell is closed and keeps the slot's last value.

`VM` is the machine's monad: a failed step keeps the state it reached, as the machine does not
roll anything back on an error.
-/

namespace LuaBytecode

/-- An upvalue cell. -/
inductive Cell where
  /-- Captures slot `slot` of the frame at depth index `frame`. -/
  | isOpen (frame slot : Nat)
  /-- Holds its own value. -/
  | closed (v : Value)
  deriving Inhabited

/-- A Lua function object: its prototype and its upvalue cells. -/
structure Closure where
  proto : Proto
  cells : Array Nat
  deriving Inhabited

/-- The whole state of a machine. -/
structure Machine where
  frame : Frame := {}
  /-- The frames below the running one, the host's own frame first. -/
  callers : Array Frame := #[]
  tables : Array Table := #[]
  closures : Array Closure := #[]
  cells : Array Cell := #[]
  /-- The table of globals. -/
  globals : Nat := 0
  /-- Calls fail with a stack overflow once this many frames are in use. -/
  maxDepth : Nat := 200
  /-- The identity the next library function object gets. -/
  nextBuiltin : Nat := 0
  /-- Everything `print` wrote. -/
  out : String := ""
  deriving Inhabited

/-- The machine's monad: failures keep the state reached. -/
abbrev VM := EStateM Fault Machine

namespace Machine

/-- The number of frames in use, the host's own included. -/
def depth (m : Machine) : Nat := m.callers.size + 1

/-- The frame at depth index `i` (0 is the host's frame); none past the running one. -/
def frameAt? (m : Machine) (i : Nat) : Option Frame :=
  if i == m.callers.size then some m.frame else m.callers[i]?

/-- Changes the frame at depth index `i`, if there is one. -/
def modifyFrameAt (m : Machine) (i : Nat) (f : Frame → Frame) : Machine :=
  if i == m.callers.size then { m with frame := f m.frame }
  else if i < m.callers.size then { m with callers := m.callers.modify i f }
  else m

/-- The table at a heap position (an empty one if there is none). -/
def table (m : Machine) (id : Nat) : Table := m.tables.getD id {}

/-- The metamethod `event` of a value: a field of its metatable, read without metamethods. Only
tables have metatables. -/
def metamethod (m : Machine) (v : Value) (event : String) : Value :=
  match v with
  | .table id =>
    match (m.table id).metatable with
    | some mt => (m.table mt).getStr event
    | none => .nil
  | _ => .nil

end Machine

namespace VM

/-- Changes the running frame. -/
def modifyFrame (f : Frame → Frame) : VM Unit := modify fun m => { m with frame := f m.frame }

/-- Reads the running frame. -/
def frame : VM Frame := do pure (← get).frame

/-- Pushes a value on the running frame. -/
def push (v : Value) : VM Unit := modifyFrame (·.push v)

/-- Pops the running frame's top value. -/
def pop : VM Value := modifyGet fun m => let (f, v) := m.frame.pop; (v, { m with frame := f })

/-- Pops the running frame's top `n` values, bottom first. -/
def popN (n : Nat) : VM (Array Value) :=
  modifyGet fun m => let (f, vs) := m.frame.popN n; (vs, { m with frame := f })

/-- The value at a host index of the running frame. -/
def getAt (idx : Int) : VM Value := do pure ((← frame).get idx)

/-- The running frame's top. -/
def top : VM Nat := do pure (← frame).top

/-- Moves the running frame's top value down to a host index. -/
def insert (idx : Int) : VM Unit := do
  match (← frame).insert idx with
  | .ok f => modifyFrame fun _ => f
  | .error msg => throw (.runtime msg)

/-- A new table in the heap. -/
def newTable (t : Table) : VM Value :=
  modifyGet fun m => (.table m.tables.size, { m with tables := m.tables.push t })

/-- Changes the table at a heap position in place. -/
def modifyTable (id : Nat) (f : Table → Table) : VM Unit :=
  modify fun m => { m with tables := m.tables.modify id f }

/-- Raw write into a table; a refused key is a runtime error with the table's text. -/
def rawSet (id : Nat) (k v : Value) : VM Unit :=
  match Key.ofValue? k with
  | none => throw (.runtime (Table.keyError k).message)
  | some hk => modifyTable id (·.write k hk v)

/-- A new library function object. -/
def newBuiltin (b : Builtin) : VM Value :=
  modifyGet fun m => (.builtin b m.nextBuiltin, { m with nextBuiltin := m.nextBuiltin + 1 })

/-- A new upvalue cell. -/
def newCell (c : Cell) : VM Nat :=
  modifyGet fun m => (m.cells.size, { m with cells := m.cells.push c })

/-- A new Lua function object. -/
def newClosure (c : Closure) : VM Value :=
  modifyGet fun m => (.closure m.closures.size, { m with closures := m.closures.push c })

/-- The value an upvalue cell holds now. -/
def readCell (id : Nat) : VM Value := do
  let m ← get
  match m.cells[id]? with
  | some (.isOpen fr slot) => pure ((m.frameAt? fr).map (·.reg slot) |>.getD .nil)
  | some (.closed v) => pure v
  | none => pure .nil

/-- Writes through an upvalue cell. -/
def writeCell (id : Nat) (v : Value) : VM Unit := do
  let m ← get
  match m.cells[id]? with
  | some (.isOpen fr slot) => set (m.modifyFrameAt fr (·.setReg slot v))
  | some (.closed _) => set { m with cells := m.cells.set! id (.closed v) }
  | none => pure ()

/-- The cell open on a slot of the running frame, opened now if there is none yet. -/
def openCell (slot : Nat) : VM Nat := do
  let m ← get
  match m.frame.openCells.find? (·.1 == slot) with
  | some (_, cell) => pure cell
  | none =>
    let cell ← newCell (.isOpen m.callers.size slot)
    modifyFrame fun f => { f with openCells := f.openCells.push (slot, cell) }
    pure cell

/-- Closes the running frame's cells on slots `from` and above, each keeping its slot's value. -/
def closeCells (lo : Nat) : VM Unit := do
  let m ← get
  let f := m.frame
  let (closing, staying) := f.openCells.partition (·.1 ≥ lo)
  let cells := closing.foldl (fun cs (slot, cell) => cs.set! cell (.closed (f.reg slot))) m.cells
  set { m with cells, frame := { f with openCells := staying } }

/-- Enters a new frame on top of the running one; fails once the frames are all in use. -/
def pushFrame (f : Frame) : VM Unit := do
  let m ← get
  if m.depth ≥ m.maxDepth then throw .stackOverflow
  set { m with frame := f, callers := m.callers.push m.frame }

/-- Leaves the running frame, closing its cells, and returns to its caller. -/
def popFrame : VM Unit := do
  let m ← get
  match m.callers.back? with
  | none => throw (.internal "pop of the base frame")
  | some caller =>
    closeCells 0
    modify fun m => { m with frame := caller, callers := m.callers.pop }

/-- Leaves frames until only `d` callers are left. -/
def unwindTo (d : Nat) : VM Unit := do
  let n := (← get).callers.size - d
  for _ in List.range n do
    popFrame

/-- Appends to what `print` wrote. -/
def write (s : String) : VM Unit := modify fun m => { m with out := m.out ++ s }

end VM

end LuaBytecode
