import LuaBytecode.Value.Basic
/-!
# Frames

A frame is the register window of one running function: its slots, the top (the number of
slots in use), the function it runs, the extra arguments of a vararg function, the position of
the next instruction, and the upvalue cells still open on its slots.

Slots above the top keep what they held unless an operation clears them: `Frame.setTop` clears
every slot it passes over, while `Frame.resetTop` only moves the top. Reading a register never
fails; a register past the end reads as nil, and writing one extends the slots.

Host indices count from 1 at the bottom; a negative index counts from the top (`-1` is the top
value).
-/

namespace LuaBytecode

/-- The register window of one running function. -/
structure Frame where
  slots : Array Value := #[]
  top : Nat := 0
  /-- The function running in this frame; none for the host's own frame. -/
  running : Option Value := none
  /-- The arguments beyond the fixed parameters of a vararg function. -/
  varargs : Array Value := #[]
  /-- The position of the next instruction. -/
  pc : Nat := 0
  /-- The upvalue cells open on slots of this frame: slot and cell, in the order they opened. -/
  openCells : Array (Nat × Nat) := #[]
  deriving Inhabited

namespace Frame

/-- The slots, extended with nil up to `n` when shorter. -/
def slotsUpTo (f : Frame) (n : Nat) : Array Value :=
  if f.slots.size < n then f.slots ++ Array.replicate (n - f.slots.size) .nil else f.slots

/-- Puts a value on top. -/
def push (f : Frame) (v : Value) : Frame :=
  if f.top < f.slots.size then { f with slots := f.slots.set! f.top v, top := f.top + 1 }
  else { f with slots := f.slots.push v, top := f.top + 1 }

/-- Takes the top value off, leaving nil in its slot; nil when there is none. -/
def pop (f : Frame) : Frame × Value :=
  if f.top == 0 then (f, .nil)
  else
    let t := f.top - 1
    ({ f with slots := f.slots.set! t .nil, top := t }, f.slots.getD t .nil)

/-- Takes the top `n` values off (all of them when there are fewer), bottom first, leaving nil
in their slots. -/
def popN (f : Frame) (n : Nat) : Frame × Array Value :=
  let n := min n f.top
  let start := f.top - n
  let vals := (f.slots.extract start f.top)
  let slots := (List.range n).foldl (fun s i => s.set! (start + i) .nil) f.slots
  ({ f with slots, top := start }, vals)

/-- Pushes values adjusted to `n` of them: all for a negative `n`, else the first `n`, padded
with nil. -/
def pushN (f : Frame) (vals : Array Value) (n : Int) : Frame :=
  let want := if n < 0 then vals.size else n.toNat
  (List.range want).foldl (fun f i => f.push (vals.getD i .nil)) f

/-- Moves the top to `t`, clearing every slot between the old and the new top. -/
def setTop (f : Frame) (t : Nat) : Frame :=
  let slots := f.slotsUpTo t
  let lo := min f.top t
  let hi := max f.top t
  let slots := (List.range (hi - lo)).foldl (fun s i => s.set! (lo + i) .nil) slots
  { f with slots, top := t }

/-- Moves the top to `t` without clearing anything. -/
def resetTop (f : Frame) (t : Nat) : Frame :=
  { f with slots := f.slotsUpTo t, top := t }

/-- The value of register `r`, also above the top; nil past the end. -/
def reg (f : Frame) (r : Nat) : Value := f.slots.getD r .nil

/-- Writes register `r`, extending the slots when needed. -/
def setReg (f : Frame) (r : Nat) (v : Value) : Frame :=
  { f with slots := (f.slotsUpTo (r + 1)).set! r v }

/-- The values from register `r` (or the top, if lower) up to the top. -/
def valuesFrom (f : Frame) (r : Nat) : Array Value := f.slots.extract (min r f.top) f.top

/-- A host index made absolute: a negative one counts from the top. -/
def absIndex (f : Frame) (idx : Int) : Int := if idx ≥ 0 then idx else f.top + idx + 1

/-- The value at a host index; nil outside `1 … top`. -/
def get (f : Frame) (idx : Int) : Value :=
  let abs := f.absIndex idx
  if abs < 1 || abs > f.top then .nil else f.slots.getD (abs - 1).toNat .nil

/-- Rotates the slots from position `lo` up to the top one step up: the top value comes down to
`lo`. -/
def rotateUp (f : Frame) (lo : Nat) : Frame :=
  if lo < f.top then
    let part := f.slots.extract lo f.top
    let moved := #[part.getD (part.size - 1) .nil] ++ part.extract 0 (part.size - 1)
    let slots := (List.range moved.size).foldl (fun s i => s.set! (lo + i) (moved.getD i .nil)) f.slots
    { f with slots }
  else f

/-- Moves the top value down to a host index, shifting the values above it up. -/
def insert (f : Frame) (idx : Int) : Except String Frame :=
  let abs := f.absIndex idx
  if abs < 1 || abs > f.top then .error ("invalid stack index " ++ toString idx)
  else .ok (f.rotateUp (abs - 1).toNat)

/-- Inserts a value at slot `s`, shifting the values from there up. -/
def insertAt (f : Frame) (s : Nat) (v : Value) : Frame := (f.push v).rotateUp s

end Frame

end LuaBytecode
