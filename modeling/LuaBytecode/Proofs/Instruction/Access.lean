import LuaBytecode.Proofs.Instruction.Fields
import LuaBytecode.Proto.Basic
/-!
# The registers an instruction reads and writes

`Instruction.writes` and `Instruction.reads` say which registers of the running frame an
instruction itself writes and reads, as `VM.step` executes it. An operand that may name a
constant (`readsRK`) reads a register only when its constant bit is clear. Where an instruction
works up to the frame's top (a call with `B = 0`, an open `vararg`, the results of a call) the
range is taken to run to the end of the frame, so that both sets are over-approximations: a
function the instruction calls may touch more through upvalues, which is the callee's doing,
not the instruction's.

A `closure` reads the registers that its prototype captures (`UpvalSource.register`), so
`reads` is given the prototypes nested in the running function.

Both are computable, so facts about single instructions are settled by `decide`.
-/

namespace LuaBytecode

namespace Instruction

/-- Does operand `x`, a register or (with bit 8 set) a constant, read register `r`? -/
def readsRK (x r : Nat) : Bool := !isConst x && x == r

/-- Does the instruction write register `r` of the running frame? -/
def writes (i : Instruction) (r : Nat) : Bool :=
  match i.opcode with
  | .move | .loadK | .loadKx | .loadBool | .getUpval | .getTabUp | .getTable | .newTable
  | .add | .sub | .mul | .mod | .pow | .div | .idiv | .band | .bor | .bxor | .shl | .shr
  | .unm | .bnot | .not | .len | .concat | .testSet | .tforLoop | .closure => r == i.a
  | .loadNil => i.a ≤ r && r ≤ i.a + i.b
  | .method => r == i.a || r == i.a + 1
  -- the arguments, the slots a call clears above them, and the results
  | .call | .tailCall => i.a ≤ r
  | .forLoop => r == i.a || r == i.a + 1 || r == i.a + 3
  | .forPrep => i.a ≤ r && r ≤ i.a + 2
  | .tforCall => i.a + 3 ≤ r
  | .vararg => i.a ≤ r && (i.b == 0 || r + 2 ≤ i.a + i.b)
  | .setTabUp | .setUpval | .setTable | .jmp | .eq | .lt | .le | .test | .ret | .setList
  | .extraArg => false

/-- Does the instruction read register `r` of the running frame? `protos` are the prototypes
nested in the running function. -/
def reads (protos : Array Proto) (i : Instruction) (r : Nat) : Bool :=
  match i.opcode with
  | .move | .unm | .bnot | .not | .len | .testSet => r == i.b
  | .getTabUp => readsRK i.c r
  | .getTable | .method => r == i.b || readsRK i.c r
  | .setTabUp | .add | .sub | .mul | .mod | .pow | .div | .idiv | .band | .bor | .bxor | .shl
  | .shr | .eq | .lt | .le => readsRK i.b r || readsRK i.c r
  | .setUpval | .test => r == i.a
  | .setTable => r == i.a || readsRK i.b r || readsRK i.c r
  | .concat => i.b ≤ r && r ≤ i.c
  | .call | .tailCall => i.a ≤ r && (i.b == 0 || r < i.a + i.b)
  | .ret => i.a ≤ r && (i.b == 0 || r + 2 ≤ i.a + i.b)
  | .forLoop | .forPrep | .tforCall => i.a ≤ r && r ≤ i.a + 2
  | .tforLoop => r == i.a + 1
  | .setList => i.a ≤ r && (i.b == 0 || r ≤ i.a + i.b)
  | .closure =>
    match protos[i.bx]? with
    | some p => p.upvalues.contains (.register r)
    | none => false
  | .loadK | .loadKx | .loadBool | .loadNil | .getUpval | .newTable | .jmp | .vararg
  | .extraArg => false

/-- A register operand below 256 never reads as a constant. -/
theorem readsRK_reg {x r : Nat} (hx : x < 256) : readsRK x r = (x == r) := by
  have : isConst x = false := by
    rw [isConst, Nat.div_eq_of_lt hx]
    rfl
  simp [readsRK, this]

theorem readsRK_const {k r : Nat} (hk : k < 256) : readsRK (constOperand k) r = false := by
  have : isConst (constOperand k) = true := by
    rw [isConst, constOperand, show (k + 256) / 256 = 1 by omega]
    rfl
  simp [readsRK, this]

theorem eq_of_readsRK {x r : Nat} (h : readsRK x r = true) : x = r := by
  simp only [readsRK, Bool.and_eq_true, beq_iff_eq] at h
  exact h.2

/-- A jump reads and writes no register, whatever its displacement. -/
@[simp] theorem writes_jmp {i : Instruction} (h : i.opcode = .jmp) (r : Nat) :
    i.writes r = false := by
  simp [writes, h]

@[simp] theorem reads_jmp {i : Instruction} (h : i.opcode = .jmp) (ps : Array Proto) (r : Nat) :
    i.reads ps r = false := by
  simp [reads, h]

example : (abc .add 3 3 (constOperand 0)).writes 3 = true := by decide
example : (abc .add 3 2 (constOperand 0)).reads #[] 2 = true := by decide

end Instruction

end LuaBytecode
