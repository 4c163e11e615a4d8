import LuaBytecode.Proofs.Instruction.Fields
/-!
# What an instruction asks of the next one

Some instructions of the machine do not stand alone. A comparison or test decides whether the
next instruction, a `jmp`, is skipped. A call that keeps all its results, a `vararg` that copies
all of them and a tail call leave an open number of values up to the top of the frame, which
the next instruction takes (a call, tail call, `return` or `setlist` with B = 0). `loadkx`, and
`setlist` whose batch does not fit C, carry their operand in the `extraArg` word after them. A
`loadbool` with C set, and a jump by one, skip the next instruction, which must then be there
and take a single word.

`Instruction.demand` says which of these an instruction asks of its successor, and
`Demand.admits` whether an instruction meets it. The machine relies on all of it without a
check, as it does on the constant indices an instruction carries (`constsBelow`).

Each predicate reads the opcode and at most the fields that matter for it, so the setters the
compiler applies to jumps it has emitted (`setSbx`, `setA`) change nothing here but a jump's
own demand (`demand_setSbx`, `admits_setSbx`).
-/

namespace LuaBytecode

/-- What an instruction asks of the instruction after it. -/
inductive Demand where
  /-- Nothing more than any instruction does: the next one does not take values up to top and
  is no `extraArg`. -/
  | free
  /-- A test: a `jmp` follows. -/
  | jump
  /-- Values are left open up to top: an instruction that takes them follows. -/
  | top
  /-- The operand is in the next word: an `extraArg` follows. -/
  | extra
  /-- The next instruction is skipped: one follows, and it takes a single word. -/
  | skip
  deriving DecidableEq, Repr

namespace Instruction

/-- Leaves an open number of values up to top: a call keeping all its results (C = 0), a
`vararg` copying all (B = 0), a tail call. -/
def opensTop (i : Instruction) : Bool :=
  match i.opcode with
  | .call => i.c == 0
  | .vararg => i.b == 0
  | .tailCall => true
  | _ => false

/-- Takes the values up to top: a call or tail call with arguments up to top, a `return` of
them, a `setlist` of them (B = 0 each). -/
def readsTop (i : Instruction) : Bool :=
  match i.opcode with
  | .call | .tailCall | .ret | .setList => i.b == 0
  | _ => false

/-- A comparison or test, which skips the next instruction or not. -/
def isTest (i : Instruction) : Bool :=
  match i.opcode with
  | .eq | .lt | .le | .test | .testSet => true
  | _ => false

/-- Carries its operand in the next word: `loadkx`, and `setlist` with C = 0. -/
def needsExtra (i : Instruction) : Bool :=
  match i.opcode with
  | .loadKx => true
  | .setList => i.c == 0
  | _ => false

/-- What the instruction asks of the next one. -/
def demand (i : Instruction) : Demand :=
  match i.opcode with
  | .eq | .lt | .le | .test | .testSet => .jump
  | .call => if i.c = 0 then .top else .free
  | .vararg => if i.b = 0 then .top else .free
  | .tailCall => .top
  | .loadKx => .extra
  | .setList => if i.c = 0 then .extra else .free
  | .loadBool => if i.c = 0 then .free else .skip
  | .jmp | .forLoop | .forPrep | .tforLoop => if i.sbx = 1 then .skip else .free
  | _ => .free

/-- Where a jump at `pc` lands: `pc + 1 + sBx`. -/
def target (pc : Nat) (i : Instruction) : Int := pc + 1 + i.sbx

/-- An RK operand that names a constant names one below `n`. -/
def rkBelow (n x : Nat) : Bool := !isConst x || decide (constIndex x < n)

/-- Every constant the instruction names is below `n`: the index of `loadk` and the B and C
operands that may name a constant. The index of `loadkx` is in the word after it. -/
def constsBelow (n : Nat) (i : Instruction) : Bool :=
  match i.opcode.layout with
  | .abc => (i.opcode.bArg != .regOrConst || rkBelow n i.b) &&
      (i.opcode.cArg != .regOrConst || rkBelow n i.c)
  | .abx => i.opcode != .loadK || decide (i.bx < n)
  | _ => true

end Instruction

/-- Does the instruction meet the demand? -/
def Demand.admits : Demand → Instruction → Bool
  | .free, i => !i.readsTop && i.opcode != .extraArg
  | .jump, i => i.opcode == .jmp
  | .top, i => i.readsTop
  | .extra, i => i.opcode == .extraArg
  | .skip, i => !i.readsTop && i.opcode != .extraArg && !i.needsExtra

namespace Instruction

variable {i : Instruction}

/-! ## An instruction's demand, read off `isTest`, `opensTop` and `needsExtra` -/

theorem demand_eq_jump : i.demand = .jump ↔ i.isTest = true := by
  unfold demand isTest
  generalize i.opcode = op
  cases op <;> simp <;> split <;> simp

theorem demand_eq_top : i.demand = .top ↔ i.opensTop = true := by
  unfold demand opensTop
  generalize i.opcode = op
  cases op <;> simp <;> split <;> simp

theorem demand_eq_extra : i.demand = .extra ↔ i.needsExtra = true := by
  unfold demand needsExtra
  generalize i.opcode = op
  cases op <;> simp <;> split <;> simp

/-- Only a `loadbool` with C set and a jump by one ask for a skipped successor. -/
theorem demand_eq_skip : i.demand = .skip ↔
    (i.opcode = .loadBool ∧ i.c ≠ 0) ∨ (i.isJump = true ∧ i.sbx = 1) := by
  unfold demand isJump
  generalize i.opcode = op
  cases op <;> simp [Opcode.isJump] <;> split <;> simp

/-- An instruction that takes values up to top meets no demand but `top`. -/
theorem eq_top_of_admits_readsTop {d : Demand} (h : d.admits i = true) (hr : i.readsTop = true) :
    d = .top := by
  have hx : i.opcode ≠ .extraArg := fun hx => by simp [readsTop, hx] at hr
  have hj : i.opcode ≠ .jmp := fun hj => by simp [readsTop, hj] at hr
  cases d <;> simp_all [Demand.admits]

/-- An `extraArg` meets no demand but `extra`. -/
theorem eq_extra_of_admits_extraArg {d : Demand} (h : d.admits i = true)
    (hx : i.opcode = .extraArg) : d = .extra := by
  have hr : i.readsTop = false := by simp [readsTop, hx]
  cases d <;> simp_all [Demand.admits]

theorem admits_jump {d : Demand} (h : d.admits i = true) (hd : d = .jump) : i.opcode = .jmp := by
  subst hd
  simpa [Demand.admits] using h

/-- What may follow an instruction that skips the next one may follow any instruction. -/
theorem admits_free_of_skip (h : Demand.skip.admits i = true) : Demand.free.admits i = true := by
  simp_all [Demand.admits]

theorem needsExtra_of_admits_skip (h : Demand.skip.admits i = true) : i.needsExtra = false := by
  simp_all [Demand.admits]

/-- An instruction that takes one word and meets `free` meets `skip`. -/
theorem admits_skip (h : Demand.free.admits i = true) (hx : i.needsExtra = false) :
    Demand.skip.admits i = true := by
  simp_all [Demand.admits]

/-! ## Jumps -/

theorem opcode_of_isJump (hj : i.isJump = true) :
    i.opcode = .jmp ∨ i.opcode = .forLoop ∨ i.opcode = .forPrep ∨ i.opcode = .tforLoop := by
  revert hj
  unfold isJump
  generalize i.opcode = op
  cases op <;> simp [Opcode.isJump]

section Jumps

variable (hj : i.isJump = true)
include hj

theorem readsTop_of_isJump : i.readsTop = false := by
  rcases opcode_of_isJump hj with h | h | h | h <;> simp [readsTop, h]

theorem needsExtra_of_isJump : i.needsExtra = false := by
  rcases opcode_of_isJump hj with h | h | h | h <;> simp [needsExtra, h]

theorem opcode_ne_extraArg_of_isJump : i.opcode ≠ .extraArg := by
  rcases opcode_of_isJump hj with h | h | h | h <;> simp [h]

theorem demand_of_isJump : i.demand = if i.sbx = 1 then .skip else .free := by
  rcases opcode_of_isJump hj with h | h | h | h <;> simp [demand, h]

theorem demand_ne_extra_of_isJump : i.demand ≠ .extra := by
  rw [demand_of_isJump hj]
  split <;> simp

/-- A jump is admitted wherever the demand is not for an `extraArg` or for values up to top;
after a test, only a `jmp` is. -/
theorem admits_of_isJump {d : Demand} : d.admits i =
    match d with
    | .free | .skip => true
    | .jump => i.opcode == .jmp
    | .top | .extra => false := by
  cases d <;>
    simp [Demand.admits, readsTop_of_isJump hj, needsExtra_of_isJump hj,
      opcode_ne_extraArg_of_isJump hj]

theorem constsBelow_of_isJump (n : Nat) : i.constsBelow n = true := by
  rcases opcode_of_isJump hj with h | h | h | h <;> simp [constsBelow, h, Opcode.layout]

end Jumps

/-! ## The setters applied to jumps -/

theorem bx_setA (i : Instruction) (a : Nat) : (i.setA a).bx = i.bx := by
  have hw : i.word.toNat < 4294967296 := i.word.toNat_lt
  have hx := Nat.mod_lt a (by decide : 256 > 0)
  simp only [Instruction.bx, setA, UInt32.toNat_ofNat', Instruction.a]
  generalize a % 256 = x at hx ⊢
  omega

theorem sbx_setA (i : Instruction) (a : Nat) : (i.setA a).sbx = i.sbx := by
  simp only [Instruction.sbx, bx_setA]

theorem isJump_setSbx (i : Instruction) (sbx : Int) : (i.setSbx sbx).isJump = i.isJump := by
  simp only [isJump, opcode_setSbx]

theorem isJump_setA (i : Instruction) (a : Nat) : (i.setA a).isJump = i.isJump := by
  simp only [isJump, opcode_setA]

/-- Setting a jump's operand A leaves what it asks and meets as it was. -/
theorem demand_setA (hj : i.isJump = true) (a : Nat) : (i.setA a).demand = i.demand := by
  rw [demand_of_isJump hj, demand_of_isJump (by rwa [isJump_setA]), sbx_setA]

theorem admits_setA (hj : i.isJump = true) (a : Nat) (d : Demand) :
    d.admits (i.setA a) = d.admits i := by
  rw [admits_of_isJump hj, admits_of_isJump (by rwa [isJump_setA]), opcode_setA]

theorem admits_setSbx (hj : i.isJump = true) (sbx : Int) (d : Demand) :
    d.admits (i.setSbx sbx) = d.admits i := by
  rw [admits_of_isJump hj, admits_of_isJump (by rwa [isJump_setSbx]), opcode_setSbx]

/-- A jump given a displacement in range asks for a skipped successor exactly when it jumps by
one. -/
theorem demand_setSbx (hj : i.isJump = true) {sbx : Int} (hlo : -sbxBias ≤ sbx)
    (hhi : sbx ≤ sbxBias + 1) : (i.setSbx sbx).demand = if sbx = 1 then .skip else .free := by
  rw [demand_of_isJump (by rwa [isJump_setSbx]), sbx_setSbx i hlo hhi]

theorem target_setSbx (pc : Nat) {sbx : Int} (hlo : -sbxBias ≤ sbx) (hhi : sbx ≤ sbxBias + 1) :
    (i.setSbx sbx).target pc = pc + 1 + sbx := by
  rw [target, sbx_setSbx i hlo hhi]

theorem target_setA (pc a : Nat) : (i.setA a).target pc = i.target pc := by
  rw [target, target, sbx_setA]

/-! ## Built instructions -/

section Built

variable {op : Opcode} {a b c : Nat}

/-- An ABC instruction whose opcode asks nothing of the next one by itself. -/
theorem demand_abc (hb : b ≤ maxBC) (hc : c ≤ maxBC) :
    (abc op a b c).demand =
      match op with
      | .eq | .lt | .le | .test | .testSet => .jump
      | .call => if c = 0 then .top else .free
      | .vararg => if b = 0 then .top else .free
      | .tailCall => .top
      | .loadKx => .extra
      | .setList => if c = 0 then .extra else .free
      | .loadBool => if c = 0 then .free else .skip
      | .jmp | .forLoop | .forPrep | .tforLoop =>
        if (abc op a b c).sbx = 1 then .skip else .free
      | _ => .free := by
  rw [demand, opcode_abc', b_abc op a b c hb, c_abc op a b c hc]

theorem readsTop_abc (hb : b ≤ maxBC) :
    (abc op a b c).readsTop =
      match op with
      | .call | .tailCall | .ret | .setList => b == 0
      | _ => false := by
  rw [readsTop, opcode_abc', b_abc op a b c hb]

theorem needsExtra_abc (hc : c ≤ maxBC) :
    (abc op a b c).needsExtra =
      match op with
      | .loadKx => true
      | .setList => c == 0
      | _ => false := by
  rw [needsExtra, opcode_abc', c_abc op a b c hc]

theorem constsBelow_abc {n : Nat} (hl : op.layout = .abc) (hb : b ≤ maxBC) (hc : c ≤ maxBC) :
    (abc op a b c).constsBelow n =
      ((op.bArg != .regOrConst || rkBelow n b) && (op.cArg != .regOrConst || rkBelow n c)) := by
  rw [constsBelow, opcode_abc', hl, b_abc op a b c hb, c_abc op a b c hc]

end Built

/-- A register operand names no constant. -/
theorem rkBelow_of_lt {n x : Nat} (hx : x < 256) : rkBelow n x = true := by
  simp only [rkBelow, isConst]
  have : x / 256 = 0 := Nat.div_eq_of_lt hx
  simp [this]

theorem rkBelow_constOperand {n k : Nat} (hk : k < n) (hk' : k ≤ 255) :
    rkBelow n (constOperand k) = true := by
  simp only [rkBelow, constOperand, constIndex]
  have : (k + 256) % 256 = k := by omega
  simp [this, hk]

theorem rkBelow_mono {n n' x : Nat} (hn : n ≤ n') (h : rkBelow n x = true) :
    rkBelow n' x = true := by
  simp only [rkBelow, Bool.or_eq_true, Bool.not_eq_true', decide_eq_true_eq] at h ⊢
  exact h.imp id fun h => by omega

theorem constsBelow_mono {n n' : Nat} (hn : n ≤ n') (h : i.constsBelow n = true) :
    i.constsBelow n' = true := by
  unfold constsBelow at h ⊢
  split at h <;> simp_all only [Bool.and_eq_true, Bool.or_eq_true, decide_eq_true_eq]
  · exact ⟨h.1.imp id (rkBelow_mono hn), h.2.imp id (rkBelow_mono hn)⟩
  · exact h.imp id (by omega)

end Instruction

end LuaBytecode
