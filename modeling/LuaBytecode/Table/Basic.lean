import LuaBytecode.Table.Key
/-!
# Tables

A table has an array part, holding the values of keys `1 … n`, and a hash part, holding every
other entry in the order its key was first inserted. Writing nil to an entry of the hash part
leaves its slot in place with a nil value, so that a traversal can go on from a key it has just
cleared; a later write to that key reuses the slot.

* `Table.get` and `Table.set` read and write an entry; `set` refuses nil and NaN keys.
* A write of a non-nil value to key `n + 1`, for an array part of size `n`, extends the array
  part and pulls the following keys `n + 2, …` over from the hash part while they hold values
  (`Table.absorb`), so that the hash part never holds the key just past the array part.
* The hash part has room reserved for its entries and for its index of keys, grown when a new
  key needs it (`Table.indexRoomFor`). A new key that finds the hash part full first drops the
  slots holding nil; that is the only time cleared slots go away.
* `Table.length` is the last non-nil position of the array part.
* `Table.next` walks the array part, then the hash part in insertion order, skipping nil values.
-/

namespace LuaBytecode

/-- A table: array part, hash part in insertion order, and the metatable's identity. -/
structure Table where
  array : Array Value := #[]
  hash : Array (Key × Value) := #[]
  /-- How many keys the hash part's index has room for. -/
  indexRoom : Nat := 0
  /-- How many entries the hash part has room for. -/
  entryRoom : Nat := 0
  metatable : Option Nat := none
  deriving Inhabited

/-- Why a write to a table was refused. -/
inductive TableError where
  | nilKey
  | nanKey
  /-- A traversal was given a key that is not in the table. -/
  | badNextKey
  deriving DecidableEq, Repr

/-- The text a refused table operation reports. -/
def TableError.message : TableError → String
  | .nilKey => "index is nil"
  | .nanKey => "index is NaN"
  | .badNextKey => "invalid key to 'next'"

namespace Table

/-- The empty table. -/
def empty : Table := {}

/-- The room of an index sized for at least `n` keys: an index of 4 or 8 buckets holds 3 or 7
keys, a larger one, of a power of two of buckets, holds seven eighths of them. -/
def indexRoomFor (n : Nat) : Nat :=
  if n == 0 then 0
  else if n < 4 then 3
  else if n < 8 then 7
  else (n * 8 / 7).nextPowerOfTwo / 8 * 7

/-- An empty table with room for `narr` list items and `nrec` other entries; only the room of
the hash part shows in the table's behaviour. -/
def withRoom (_narr nrec : Nat) : Table :=
  { indexRoom := indexRoomFor nrec, entryRoom := nrec }

/-- Appends a new key to the hash part. When the hash part is full, its nil slots are dropped
first; when the index or the entries are still full, their room grows: the index to the next
size that fits one more key, the entries to match the index. -/
def pushHash (t : Table) (hk : Key) (v : Value) : Table :=
  let t :=
    if t.hash.size == min t.indexRoom t.entryRoom then
      { t with hash := t.hash.filter fun e => !e.2.isNil }
    else t
  let items := t.hash.size
  let indexRoom :=
    if items < t.indexRoom then t.indexRoom
    else indexRoomFor (max (items + 1) (t.indexRoom + 1))
  let entryRoom :=
    if items < t.entryRoom then t.entryRoom
    else if indexRoom - items > 1 then indexRoom
    else items + 1
  { t with hash := t.hash.push (hk, v), indexRoom, entryRoom }

/-- The integer a value stands for as a key, if any: an integer, or an integral float in range. -/
def intKey? : Value → Option Int
  | .int n => some n.toInt
  | .float x => (floatToInt64? x).map Int64.toInt
  | _ => none

/-- The array slot a key falls in: position `i - 1` for a key `i` with `1 ≤ i ≤ size`. -/
def arraySlot? (t : Table) (k : Value) : Option Nat :=
  match intKey? k with
  | some i => if 1 ≤ i && i ≤ t.array.size then some (i - 1).toNat else none
  | none => none

/-- The position of a key in the hash part. -/
def hashSlot? (t : Table) (k : Key) : Option Nat := t.hash.findIdx? (·.1 == k)

/-- The value of a key in the hash part, nil when absent. -/
def hashGet (t : Table) (k : Key) : Value :=
  match t.hashSlot? k with
  | some j => (t.hash.getD j default).2
  | none => .nil

/-- The value stored under a key; nil when there is none. -/
def get (t : Table) (k : Value) : Value :=
  match t.arraySlot? k with
  | some i => t.array.getD i .nil
  | none =>
    match Key.ofValue? k with
    | some hk => t.hashGet hk
    | none => .nil

/-- The value stored under a string key, looked up in the hash part alone, as metamethods are. -/
def getStr (t : Table) (s : String) : Value := t.hashGet (.str s)

/-- Moves the entries for keys `size + 1, size + 2, …` from the hash part to the array part while
they hold values; a slot found with nil is dropped and ends the move. -/
def absorb (t : Table) (fuel : Nat) : Table :=
  match fuel with
  | 0 => t
  | fuel + 1 =>
    let k := Key.int (Int64.ofInt (t.array.size + 1))
    match t.hashSlot? k with
    | none => t
    | some j =>
      let v := (t.hash.getD j default).2
      let t := { t with hash := t.hash.eraseIdxIfInBounds j }
      if v.isNil then t else absorb { t with array := t.array.push v } fuel

/-- Why a key cannot index a table: nil and NaN are refused. -/
def keyError (k : Value) : TableError := if k.isNil then .nilKey else .nanKey

/-- Writes `v` under `k`, whose normalised form is `hk`. An integer key just past the array
part extends it; other keys go to the hash part, a new one only when `v` is not nil. -/
def write (t : Table) (k : Value) (hk : Key) (v : Value) : Table :=
  match t.arraySlot? k with
  | some i => { t with array := t.array.set! i v }
  | none =>
    let grows : Bool :=
      match hk with
      | .int n => !v.isNil && n.toInt == t.array.size + 1
      | _ => false
    if grows then
      let t := { t with array := t.array.push v }
      let t := match t.hashSlot? hk with
        | some j => { t with hash := t.hash.eraseIdxIfInBounds j }
        | none => t
      t.absorb t.hash.size
    else
      match t.hashSlot? hk with
      | some j => { t with hash := t.hash.set! j (hk, v) }
      | none => if v.isNil then t else t.pushHash hk v

/-- Writes `v` under `k`; nil and NaN keys are refused. -/
def set (t : Table) (k v : Value) : Except TableError Table :=
  match Key.ofValue? k with
  | none => .error (keyError k)
  | some hk => .ok (t.write k hk v)

/-- The border of the array part below position `n`: the last position up to `n` holding a
value, or 0. -/
def borderBelow (t : Table) : Nat → Nat
  | 0 => 0
  | n + 1 => if (t.array.getD n .nil).isNil then t.borderBelow n else n + 1

/-- The border of the array part: the last position holding a value, or 0. -/
def length (t : Table) : Nat := t.borderBelow t.array.size

/-- The first array entry at or after position `i` that holds a value. -/
def arrayFrom (t : Table) (i : Nat) : Option (Value × Value) :=
  if h : i < t.array.size then
    let v := t.array[i]
    if v.isNil then t.arrayFrom (i + 1) else some (.int (Int64.ofInt (i + 1)), v)
  else none
termination_by t.array.size - i

/-- The first hash entry at or after slot `j` that holds a value. -/
def hashFrom (t : Table) (j : Nat) : Option (Value × Value) :=
  if h : j < t.hash.size then
    let e := t.hash[j]
    if e.2.isNil then t.hashFrom (j + 1) else some (e.1.toValue, e.2)
  else none
termination_by t.hash.size - j

/-- The entry after key `k` in traversal order (the first one for nil), or none at the end. -/
def next (t : Table) (k : Value) : Except TableError (Option (Value × Value)) :=
  if k.isNil then
    match t.arrayFrom 0 with
    | some e => .ok (some e)
    | none => .ok (t.hashFrom 0)
  else
    match t.arraySlot? k with
    | some i =>
      match t.arrayFrom (i + 1) with
      | some e => .ok (some e)
      | none => .ok (t.hashFrom 0)
    | none =>
      match Key.ofValue? k with
      | none => .error .badNextKey
      | some hk =>
        match t.hashSlot? hk with
        | some j => .ok (t.hashFrom (j + 1))
        | none => .error .badNextKey

/-- Every entry holding a value, in traversal order. -/
def entries (t : Table) : List (Value × Value) :=
  let arr := (List.range t.array.size).filterMap fun j =>
    let v := t.array.getD j .nil
    if v.isNil then none else some (Value.int (Int64.ofInt (j + 1)), v)
  let hsh := t.hash.toList.filterMap fun (k, v) => if v.isNil then none else some (k.toValue, v)
  arr ++ hsh

end Table

end LuaBytecode
