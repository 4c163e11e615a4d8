import LuaBytecode.Instruction.Word
/-!
# Function prototypes

A prototype is what the compiler makes of one function: its code with a source line per
instruction, its constant pool, where each of its upvalues comes from when a closure is made,
the prototypes of the functions nested in it, and the debug record of its locals.
-/

namespace LuaBytecode

/-- A constant of the pool. Integers and floats are different constants, and floats are told
apart by their bits, so `1` and `1.0`, and `0.0` and `-0.0`, each take two entries. -/
inductive Constant where
  | nil
  | bool (b : Bool)
  | int (n : Int64)
  | float (bits : UInt64)
  | str (s : String)
  deriving DecidableEq, Repr, Inhabited

/-- Where a new closure finds an upvalue. -/
inductive UpvalSource where
  /-- The local in this register of the function that makes the closure. -/
  | register (reg : Nat)
  /-- This upvalue of the function that makes the closure. -/
  | upvalue (idx : Nat)
  deriving DecidableEq, Repr, Inhabited

/-- A local variable's name and the instructions during which it is live. -/
structure LocalInfo where
  name : String
  startPc : Nat
  endPc : Nat
  deriving DecidableEq, Repr, Inhabited

/-- A compiled function. -/
structure Proto where
  code : Array Instruction := #[]
  /-- The source line of each instruction. -/
  lines : Array Nat := #[]
  constants : Array Constant := #[]
  upvalues : Array UpvalSource := #[]
  upvalueNames : Array String := #[]
  protos : Array Proto := #[]
  numParams : Nat := 0
  isVararg : Bool := false
  /-- The registers the function needs; never below 2. -/
  maxStack : Nat := 2
  locals : Array LocalInfo := #[]
  source : String := ""
  lineDefined : Nat := 0
  lastLineDefined : Nat := 0
  deriving Inhabited

end LuaBytecode
