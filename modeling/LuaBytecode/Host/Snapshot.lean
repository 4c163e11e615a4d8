import LuaBytecode.Table.Basic
/-!
# Snapshots of values

A snapshot is a value as the host reports it: plain data, with the objects it reaches written
out. Tables and Lua functions are numbered from 1 in the order they are first met, one count
for both; a table is numbered before its entries are visited, each key before its value, and
the entries before the metatable. A table met again is reported by its number alone
(`Snapshot.seen`), so cycles end. Numbering goes on across all the values of one report
(`Numbering`).

Addresses differ from run to run, so the text of a report writes every address that follows
`table: ` or `function: ` as `ADDR` (`maskAddresses`).
-/

namespace LuaBytecode

/-- A reported value. -/
inductive Snapshot where
  | nil
  | bool (b : Bool)
  | int (n : Int)
  /-- A float, by its text. -/
  | float (text : String)
  | str (s : String)
  | builtin (name : String)
  | closure (number : Nat)
  /-- A table met for the first time: its number, its entries and its metatable. -/
  | table (number : Nat) (entries : List (Snapshot × Snapshot)) (metatable : Option Snapshot)
  /-- A table met before, by its number. -/
  | seen (number : Nat)
  deriving Inhabited

/-- An object that a report numbers. -/
inductive Numbered where
  | closure (id : Nat)
  | table (id : Nat)
  deriving DecidableEq

/-- The objects met so far, the one at position `i` numbered `i + 1`. -/
structure Numbering where
  met : Array Numbered := #[]
  deriving Inhabited

namespace Numbering

/-- The number of an object met before. -/
def find? (n : Numbering) (o : Numbered) : Option Nat := (n.met.findIdx? (· == o)).map (· + 1)

/-- Numbers a new object. -/
def add (n : Numbering) (o : Numbered) : Numbering × Nat := ({ met := n.met.push o }, n.met.size + 1)

end Numbering

/-- Is `c` a hexadecimal digit, in either case? -/
def isHexDigit (c : Char) : Bool := c.isDigit || ('a' ≤ c && c ≤ 'f') || ('A' ≤ c && c ≤ 'F')

/-- Writes `ADDR` for each `table: 0x` and `function: 0x` with the run of hexadecimal digits of
either case after it; a run that goes on past the address itself is taken with it. -/
def maskChars (fuel : Nat) (cs : List Char) : List Char :=
  match fuel, cs with
  | 0, cs => cs
  | _, [] => []
  | fuel + 1, c :: rest =>
    let masked (label : String) : Option (List Char) :=
      let pre := (label ++ ": 0x").toList
      if pre.isPrefixOf (c :: rest) then
        let after := (c :: rest).drop pre.length
        let n := (after.takeWhile isHexDigit).length
        if n > 0 then some ((label ++ ": ADDR").toList ++ maskChars fuel (after.drop n)) else none
      else none
    match masked "table" with
    | some r => r
    | none =>
      match masked "function" with
      | some r => r
      | none => c :: maskChars fuel rest

/-- The text with every object address written `ADDR`. -/
def maskAddresses (s : String) : String := String.ofList (maskChars (s.length + 1) s.toList)

namespace Snapshot

/-- The snapshot of a value, given the heap of tables. The fuel bounds the nesting of tables;
each table is written out once, so the number of tables is enough. -/
def take (heap : Array Table) (fuel : Nat) (v : Value) : StateM Numbering Snapshot :=
  match fuel with
  | 0 => pure .nil
  | fuel + 1 =>
    match v with
    | .nil => pure .nil
    | .bool b => pure (.bool b)
    | .int n => pure (.int n.toInt)
    | .float x => pure (.float (FloatText.render x))
    | .str s => pure (.str (maskAddresses s))
    | .builtin b _ => pure (.builtin b.name)
    | .closure id => do
      match (← get).find? (.closure id) with
      | some k => pure (.closure k)
      | none =>
        let (n, k) := (← get).add (.closure id)
        set n
        pure (.closure k)
    | .table id => do
      match (← get).find? (.table id) with
      | some k => pure (.seen k)
      | none =>
        let (n, k) := (← get).add (.table id)
        set n
        let t := heap.getD id default
        let entries ← t.entries.mapM fun (key, val) => do
          let a ← take heap fuel key
          let b ← take heap fuel val
          pure (a, b)
        let mt ← match t.metatable with
          | some m => do pure (some (← take heap fuel (.table m)))
          | none => pure none
        pure (.table k entries mt)

/-- The snapshots of several values, numbered left to right. -/
def takeAll (heap : Array Table) (vs : List Value) : StateM Numbering (List Snapshot) :=
  vs.mapM (take heap (heap.size + 2))

end Snapshot

end LuaBytecode
