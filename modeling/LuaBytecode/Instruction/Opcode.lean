/-!
# Opcodes of the register machine

The 47 operations of Lua 5.3 bytecode in their numbering (`Opcode.index`), each with the layout
of its operand bits (`Opcode.layout`) and the way its B and C operands are read (`Opcode.bArg`,
`Opcode.cArg`). `Opcode.ofIndex_index` says that the numbering is a bijection onto `0 … 46`,
which is what makes a decoded word name the opcode it was built from.
-/

namespace LuaBytecode

/-- How the 26 operand bits above the opcode are split. -/
inductive Layout where
  /-- An 8-bit A, then a 9-bit C, then a 9-bit B. -/
  | abc
  /-- An 8-bit A and an unsigned 18-bit Bx. -/
  | abx
  /-- An 8-bit A and an 18-bit Bx read as signed, in excess-131071 form. -/
  | asbx
  /-- One 26-bit Ax. -/
  | ax
  deriving DecidableEq, Repr

/-- How an instruction reads its B or C operand. -/
inductive ArgUse where
  /-- Not read. -/
  | unused
  /-- Read as a plain number. -/
  | number
  /-- A register, or a jump offset. -/
  | register
  /-- A register, or a constant when bit 8 is set. -/
  | regOrConst
  deriving DecidableEq, Repr

/-- The operations of the machine, in encoding order. -/
inductive Opcode where
  | move | loadK | loadKx | loadBool | loadNil | getUpval | getTabUp | getTable | setTabUp
  | setUpval | setTable | newTable | method | add | sub | mul | mod | pow | div | idiv | band
  | bor | bxor | shl | shr | unm | bnot | not | len | concat | jmp | eq | lt | le | test
  | testSet | call | tailCall | ret | forLoop | forPrep | tforCall | tforLoop | setList
  | closure | vararg | extraArg
  deriving DecidableEq, Repr, Inhabited

namespace Opcode

/-- Every opcode, at the position of its number. -/
def all : List Opcode :=
  [move, loadK, loadKx, loadBool, loadNil, getUpval, getTabUp, getTable, setTabUp, setUpval,
   setTable, newTable, method, add, sub, mul, mod, pow, div, idiv, band, bor, bxor, shl, shr,
   unm, bnot, .not, len, concat, jmp, eq, lt, le, test, testSet, call, tailCall, ret, forLoop,
   forPrep, tforCall, tforLoop, setList, closure, vararg, extraArg]

/-- The number that the low six bits of a word carry. -/
def index : Opcode → Nat
  | move => 0 | loadK => 1 | loadKx => 2 | loadBool => 3 | loadNil => 4 | getUpval => 5
  | getTabUp => 6 | getTable => 7 | setTabUp => 8 | setUpval => 9 | setTable => 10
  | newTable => 11 | method => 12 | add => 13 | sub => 14 | mul => 15 | mod => 16 | pow => 17
  | div => 18 | idiv => 19 | band => 20 | bor => 21 | bxor => 22 | shl => 23 | shr => 24
  | unm => 25 | bnot => 26 | .not => 27 | len => 28 | concat => 29 | jmp => 30 | eq => 31
  | lt => 32 | le => 33 | test => 34 | testSet => 35 | call => 36 | tailCall => 37 | ret => 38
  | forLoop => 39 | forPrep => 40 | tforCall => 41 | tforLoop => 42 | setList => 43
  | closure => 44 | vararg => 45 | extraArg => 46

/-- The opcode numbered `n`; numbers past 46 carry none and read as `extraArg`. -/
def ofIndex (n : Nat) : Opcode := all.getD n extraArg

theorem ofIndex_index (op : Opcode) : ofIndex op.index = op := by
  cases op <;> rfl

theorem index_lt (op : Opcode) : op.index < 47 := by
  cases op <;> decide

/-- The lower-case mnemonic, as listings print it. -/
def mnemonic : Opcode → String
  | move => "move" | loadK => "loadk" | loadKx => "loadkx" | loadBool => "loadbool"
  | loadNil => "loadnil" | getUpval => "getupval" | getTabUp => "gettabup"
  | getTable => "gettable" | setTabUp => "settabup" | setUpval => "setupval"
  | setTable => "settable" | newTable => "newtable" | method => "self" | add => "add"
  | sub => "sub" | mul => "mul" | mod => "mod" | pow => "pow" | div => "div" | idiv => "idiv"
  | band => "band" | bor => "bor" | bxor => "bxor" | shl => "shl" | shr => "shr"
  | unm => "unm" | bnot => "bnot" | .not => "not" | len => "len" | concat => "concat"
  | jmp => "jmp" | eq => "eq" | lt => "lt" | le => "le" | test => "test"
  | testSet => "testset" | call => "call" | tailCall => "tailcall" | ret => "return"
  | forLoop => "forloop" | forPrep => "forprep" | tforCall => "tforcall"
  | tforLoop => "tforloop" | setList => "setlist" | closure => "closure"
  | vararg => "vararg" | extraArg => "extraarg"

/-- The opcode with this mnemonic. -/
def ofMnemonic? (s : String) : Option Opcode := all.find? (·.mnemonic == s)

/-- The operand layout of an opcode. -/
def layout : Opcode → Layout
  | loadK | loadKx | closure => .abx
  | jmp | forLoop | forPrep | tforLoop => .asbx
  | extraArg => .ax
  | _ => .abc

/-- How the B operand (or Bx) is read. -/
def bArg : Opcode → ArgUse
  | move | getTable | method | unm | bnot | .not | len | concat | jmp | testSet | forLoop
  | forPrep | tforLoop => .register
  | loadK | setTabUp | setTable | add | sub | mul | mod | pow | div | idiv | band | bor | bxor
  | shl | shr | eq | lt | le => .regOrConst
  | loadKx | test | tforCall => .unused
  | _ => .number

/-- How the C operand is read. -/
def cArg : Opcode → ArgUse
  | loadBool | newTable | test | testSet | call | tailCall | tforCall | setList
  | extraArg => .number
  | getTabUp | getTable | setTabUp | setTable | method | add | sub | mul | mod | pow | div
  | idiv | band | bor | bxor | shl | shr | eq | lt | le => .regOrConst
  | concat => .register
  | _ => .unused

/-- Opcodes whose sBx is a jump displacement. -/
def isJump : Opcode → Bool
  | jmp | forLoop | forPrep | tforLoop => true
  | _ => false

end Opcode

/-- The letter a listing uses for a layout. -/
def Layout.name : Layout → String
  | .abc => "ABC"
  | .abx => "ABx"
  | .asbx => "AsBx"
  | .ax => "Ax"

/-- The letter a listing uses for an operand's use. -/
def ArgUse.letter : ArgUse → String
  | .unused => "N"
  | .number => "U"
  | .register => "R"
  | .regOrConst => "K"

end LuaBytecode
