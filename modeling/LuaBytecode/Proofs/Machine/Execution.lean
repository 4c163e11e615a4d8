import Mathlib.Logic.Relation
import LuaBytecode.Proofs.Machine.Plain
/-!
# Running straight-line code

The instructions that evaluate operators only read and write registers of the running frame
and move its position, and they call nothing as long as their operands are no tables. This
module says what each of them does, and gives the vocabulary to run code one instruction after
another:

* `VM.Exec call m m'`: the machine goes from `m` to `m'` by steps that stay in the running
  function; `VM.Fails call m e`: from `m` it reaches a step that fails with `e`;
* `VM.Ends call m o post`: from `m` the machine does what the outcome `o` says, a weakest
  precondition with a failure branch: for `.ok x` it reaches a state satisfying `post x`, for
  `.error e` it fails with `e`. `Ends.bind` follows the outcome's own `bind`, so that a run of
  code is proved in the order its outcome is computed;
* `Machine.Rest m m'`: `m'` differs from `m` only in the running frame's registers and position;
* `step_run` fetches an instruction of the running closure and `dispatch_move`, `dispatch_arith`,
  ... execute one.
-/

namespace LuaBytecode

namespace Frame

theorem size_slotsUpTo (f : Frame) (n : Nat) : n ≤ (f.slotsUpTo n).size := by
  unfold slotsUpTo
  split
  · simp only [Array.size_append, Array.size_replicate]
    omega
  · omega

/-- Padding the slots with nil reads the same. -/
theorem slotsUpTo_getD (f : Frame) (n r : Nat) :
    (f.slotsUpTo n).getD r .nil = f.slots.getD r .nil := by
  unfold slotsUpTo
  split
  · simp only [Array.getD_eq_getD_getElem?, Array.getElem?_append]
    split
    · rfl
    · rw [Array.getElem?_eq_none (by omega : f.slots.size ≤ r), Array.getElem?_replicate]
      split <;> rfl
  · rfl

@[simp] theorem reg_setReg (f : Frame) (r : Nat) (v : Value) (r' : Nat) :
    (f.setReg r v).reg r' = if r' = r then v else f.reg r' := by
  simp only [reg, setReg, Array.set!_eq_setIfInBounds, Array.getD_eq_getD_getElem?,
    Array.getElem?_setIfInBounds]
  split
  · subst_vars
    have := f.size_slotsUpTo (r' + 1)
    rw [if_pos (by omega), if_pos rfl]
    rfl
  · rename_i hne
    rw [← Array.getD_eq_getD_getElem?, slotsUpTo_getD, Array.getD_eq_getD_getElem?,
      if_neg (Ne.symm hne)]

@[simp] theorem setReg_pc (f : Frame) (r : Nat) (v : Value) : (f.setReg r v).pc = f.pc := rfl

/-- The frame moved past its next instruction when `b` holds. -/
def skipIf (f : Frame) (b : Bool) : Frame := if b then { f with pc := f.pc + 1 } else f

@[simp] theorem reg_skipIf (f : Frame) (b : Bool) (r : Nat) : (f.skipIf b).reg r = f.reg r := by
  unfold skipIf
  split <;> rfl

@[simp] theorem pc_skipIf (f : Frame) (b : Bool) :
    (f.skipIf b).pc = if b then f.pc + 1 else f.pc := by
  unfold skipIf
  split <;> rfl

end Frame

namespace Machine

/-- The running frame runs the Lua closure `lc`. -/
def Runs (m : Machine) (lc : Closure) : Prop :=
  ∃ id, m.frame.running = some (.closure id) ∧ m.closures[id]? = some lc

/-- `m'` is `m` with only the running frame's registers and position changed. -/
def Rest (m m' : Machine) : Prop :=
  m' = { m with frame := { m.frame with slots := m'.frame.slots, pc := m'.frame.pc } }

namespace Rest

variable {m m₁ m₂ m₃ : Machine}

@[refl] theorem refl (m : Machine) : Rest m m := rfl

theorem trans (h₁ : Rest m₁ m₂) (h₂ : Rest m₂ m₃) : Rest m₁ m₃ := by
  rw [Rest] at h₁ h₂ ⊢
  rw [h₂, h₁]

theorem setReg (h : Rest m₁ m₂) (r : Nat) (v : Value) :
    Rest m₁ { m₂ with frame := m₂.frame.setReg r v } := by
  rw [Rest] at h ⊢
  rw [h]
  rfl

theorem setPc (h : Rest m₁ m₂) (n : Nat) : Rest m₁ { m₂ with frame := { m₂.frame with pc := n } } := by
  rw [Rest] at h ⊢
  rw [h]

theorem skipIf (h : Rest m₁ m₂) (b : Bool) : Rest m₁ { m₂ with frame := m₂.frame.skipIf b } := by
  unfold Frame.skipIf
  split
  · exact h.setPc _
  · exact h

theorem runs {lc : Closure} (h : Rest m₁ m₂) (hr : m₁.Runs lc) : m₂.Runs lc := by
  rw [Rest] at h
  rw [h]
  exact hr

end Rest

end Machine

namespace VM

variable {α β : Type} {call : Call} {m m₁ m₂ : Machine}

/-! ## Runs of code -/

/-- The machine goes from `m` to `m'` by steps that stay in the running function. -/
def Exec (call : Call) : Machine → Machine → Prop :=
  Relation.ReflTransGen fun m m' => (step call).run m = .ok none m'

/-- From `m` the machine reaches a step that fails with `e`. -/
def Fails (call : Call) (m : Machine) (e : Fault) : Prop :=
  ∃ m₁ m₂, Exec call m m₁ ∧ (step call).run m₁ = .error e m₂

/-- From `m` the machine does what the outcome `o` says: for `.ok x` it reaches a state that
satisfies `post x`, for `.error e` it fails with `e`. -/
def Ends (call : Call) (m : Machine) (o : Except Fault α) (post : α → Machine → Prop) : Prop :=
  match o with
  | .ok x => ∃ m', Exec call m m' ∧ post x m'
  | .error e => Fails call m e

namespace Ends

variable {o : Except Fault α} {post post' : α → Machine → Prop}

theorem here {x : α} (h : post x m) : Ends call m (.ok x) post := ⟨m, .refl, h⟩

/-- Code run before: the machine gets from `m` to `m₁` first. -/
theorem prepend (h₁ : Exec call m m₁) (h : Ends call m₁ o post) : Ends call m o post := by
  cases o with
  | ok x =>
    obtain ⟨m', h₂, hp⟩ := h
    exact ⟨m', h₁.trans h₂, hp⟩
  | error e =>
    obtain ⟨m', m'', h₂, hf⟩ := h
    exact ⟨m', m'', h₁.trans h₂, hf⟩

theorem mono (h : Ends call m o post) (hp : ∀ x m', post x m' → post' x m') :
    Ends call m o post' := by
  cases o with
  | ok x =>
    obtain ⟨m', h₁, h₂⟩ := h
    exact ⟨m', h₁, hp x m' h₂⟩
  | error e => exact h

/-- Running the code of `o` and then, from where it ends, the code of `f x`. -/
theorem bind {f : α → Except Fault β} {post : α → Machine → Prop} {post' : β → Machine → Prop}
    (h : Ends call m o post) (hf : ∀ x m', post x m' → Ends call m' (f x) post') :
    Ends call m (o >>= f) post' := by
  cases o with
  | ok x =>
    obtain ⟨m', h₁, hp⟩ := h
    exact prepend h₁ (hf x m' hp)
  | error e => exact h

/-- One step whose result the outcome `o` decides: on `.ok x` it moves to `next x`, on
`.error e` it fails. -/
theorem step {next : α → Machine}
    (h : (VM.step call).run m = match o with | .ok x => .ok none (next x) | .error e => .error e m₂)
    (hp : ∀ x, o = .ok x → post x (next x)) : Ends call m o post := by
  cases o with
  | ok x => exact ⟨next x, .single h, hp x rfl⟩
  | error e => exact ⟨m, m₂, .refl, h⟩

end Ends

/-! ## Executing one instruction -/

variable {lc : Closure} {i : Instruction}

theorem runningClosure_run (h : m.Runs lc) : runningClosure.run m = .ok lc m := by
  obtain ⟨id, hrun, hc⟩ := h
  simp [runningClosure, frame, hrun, hc]

/-- A step fetches the next instruction of the running closure and executes it. -/
theorem step_run (h : m.Runs lc) (hi : lc.proto.code[m.frame.pc]? = some i) :
    (step call).run m =
      (dispatch call lc i).run { m with frame := { m.frame with pc := m.frame.pc + 1 } } := by
  simp [step, runningClosure_run h, fetch, frame, hi, modifyFrame]

/-- An RK operand below 256 is a register. -/
theorem rk_reg {p : Proto} {r : Nat} (hr : r < 256) : (rk p r).run m = .ok (m.frame.reg r) m := by
  have : Instruction.isConst r = false := by
    simp only [Instruction.isConst, Nat.div_eq_of_lt hr]
    rfl
  simp [rk, this, reg, frame]

/-- An RK operand that names a constant reads it from the pool. -/
theorem rk_const {p : Proto} {idx : Nat} {k : Constant} (hidx : idx < 256)
    (hk : p.constants[idx]? = some k) :
    (rk p (Instruction.constOperand idx)).run m = .ok k.toValue m := by
  have hc : Instruction.isConst (Instruction.constOperand idx) = true := by
    simp only [Instruction.isConst, Instruction.constOperand, beq_iff_eq]
    omega
  have hi : Instruction.constIndex (Instruction.constOperand idx) = idx := by
    simp only [Instruction.constIndex, Instruction.constOperand]
    omega
  simp [rk, hc, hi, constant, hk]

theorem dispatch_move (ho : i.opcode = .move) :
    (dispatch call lc i).run m = .ok none { m with frame := m.frame.setReg i.a (m.frame.reg i.b) } := by
  simp [dispatch, ho, reg, setReg, frame, modifyFrame]

theorem dispatch_loadK {k : Constant} (ho : i.opcode = .loadK)
    (hk : lc.proto.constants[i.bx]? = some k) :
    (dispatch call lc i).run m = .ok none { m with frame := m.frame.setReg i.a k.toValue } := by
  simp [dispatch, ho, constant, hk, setReg, modifyFrame]

/-- `loadkx` takes its constant's index from the `extraArg` after it, and moves past it. -/
theorem dispatch_loadKx {x : Instruction} {k : Constant} (ho : i.opcode = .loadKx)
    (hx : lc.proto.code[m.frame.pc]? = some x) (hk : lc.proto.constants[x.axArg]? = some k) :
    (dispatch call lc i).run m =
      .ok none { m with frame := { m.frame with pc := m.frame.pc + 1 }.setReg i.a k.toValue } := by
  simp [dispatch, ho, fetch, frame, hx, modifyFrame, constant, hk, setReg]

theorem dispatch_loadBool (ho : i.opcode = .loadBool) :
    (dispatch call lc i).run m = .ok none { m with frame :=
      let f := m.frame.setReg i.a (.bool (i.b != 0))
      if i.c != 0 then { f with pc := f.pc + 1 } else f } := by
  by_cases hc : i.c = 0 <;> simp [dispatch, ho, hc, setReg, skip, modifyFrame]

/-- `loadnil` with `B = 0` clears one register. -/
theorem dispatch_loadNil (ho : i.opcode = .loadNil) (hb : i.b = 0) :
    (dispatch call lc i).run m = .ok none { m with frame := m.frame.setReg i.a .nil } := by
  simp [dispatch, ho, hb, setReg, modifyFrame]

/-- A binary arithmetic or bitwise instruction on two stateless operand values. -/
theorem dispatch_arith {x y : Value}
    (ho : i.opcode ∈ [.add, .sub, .mul, .mod, .pow, .div, .idiv, .band, .bor, .bxor, .shl, .shr])
    (hb : (rk lc.proto i.b).run m = .ok x m) (hc : (rk lc.proto i.c).run m = .ok y m)
    (hs : Stateless (arith call (arithOf i.opcode) x y)) :
    (dispatch call lc i).run m = match (arith call (arithOf i.opcode) x y).outcome with
      | .ok v => .ok none { m with frame := m.frame.setReg i.a v }
      | .error e => .error e m := by
  -- the twelve opcodes share one arm of the dispatch
  have key : dispatch call lc i = (do
      let x ← rk lc.proto i.b
      let y ← rk lc.proto i.c
      setReg i.a (← arith call (arithOf i.opcode) x y)
      pure none) := by
    simp only [List.mem_cons, List.not_mem_nil, or_false] at ho
    rcases ho with h | h | h | h | h | h | h | h | h | h | h | h <;> simp only [dispatch, h]
  rw [key]
  simp only [EStateM.run_bind, hb, hc, hs.run]
  cases (arith call (arithOf i.opcode) x y).outcome <;> rfl

/-- `unm` and `bnot` apply their operator to one register, given twice. -/
theorem dispatch_unary (ho : i.opcode = .unm ∨ i.opcode = .bnot)
    (hs : Stateless (arith call (arithOf i.opcode) (m.frame.reg i.b) (m.frame.reg i.b))) :
    (dispatch call lc i).run m =
      match (arith call (arithOf i.opcode) (m.frame.reg i.b) (m.frame.reg i.b)).outcome with
      | .ok v => .ok none { m with frame := m.frame.setReg i.a v }
      | .error e => .error e m := by
  have key : dispatch call lc i = (do
      let x ← reg i.b
      setReg i.a (← arith call (arithOf i.opcode) x x)
      pure none) := by
    rcases ho with h | h <;> simp only [dispatch, h]
  rw [key]
  simp only [EStateM.run_bind, reg, frame, EStateM.run_pure, EStateM.run_get, hs.run]
  cases (arith call (arithOf i.opcode) (m.frame.reg i.b) (m.frame.reg i.b)).outcome <;> rfl

theorem dispatch_not (ho : i.opcode = .not) :
    (dispatch call lc i).run m =
      .ok none { m with frame := m.frame.setReg i.a (.bool !(m.frame.reg i.b).isTruthy) } := by
  simp [dispatch, ho, reg, frame, setReg, modifyFrame]

theorem dispatch_len (ho : i.opcode = .len) (hs : Stateless (len call (m.frame.reg i.b))) :
    (dispatch call lc i).run m = match (len call (m.frame.reg i.b)).outcome with
      | .ok v => .ok none { m with frame := m.frame.setReg i.a v }
      | .error e => .error e m := by
  simp only [dispatch, ho, EStateM.run_bind, reg, frame, EStateM.run_pure, EStateM.run_get,
    hs.run]
  cases (len call (m.frame.reg i.b)).outcome <;> rfl

/-- `concat` joins the registers from B to C. -/
theorem dispatch_concat (ho : i.opcode = .concat)
    (hs : Stateless (concat call ((List.range (i.c + 1 - i.b)).map fun r => m.frame.reg (i.b + r)).toArray)) :
    (dispatch call lc i).run m =
      match (concat call ((List.range (i.c + 1 - i.b)).map fun r => m.frame.reg (i.b + r)).toArray).outcome with
      | .ok v => .ok none { m with frame := m.frame.setReg i.a v }
      | .error e => .error e m := by
  simp only [dispatch, ho, EStateM.run_bind, frame, EStateM.run_pure, EStateM.run_get, hs.run]
  cases (concat call ((List.range (i.c + 1 - i.b)).map fun r => m.frame.reg (i.b + r)).toArray).outcome <;> rfl

/-- A jump that closes nothing moves the position by sBx. -/
theorem dispatch_jmp (ho : i.opcode = .jmp) (ha : i.a = 0) :
    (dispatch call lc i).run m =
      .ok none { m with frame := { m.frame with pc := ((m.frame.pc : Int) + i.sbx).toNat } } := by
  simp [dispatch, ho, ha, jump, modifyFrame]

/-- `eq` skips the next instruction unless the operands' equality is A. -/
theorem dispatch_eq {x y : Value} (ho : i.opcode = .eq) (hb : (rk lc.proto i.b).run m = .ok x m)
    (hc : (rk lc.proto i.c).run m = .ok y m) (hx : x.isTable = false) :
    (dispatch call lc i).run m =
      .ok none { m with frame := m.frame.skipIf (x.rawEq y != (i.a != 0)) } := by
  simp only [dispatch, ho, EStateM.run_bind, hb, hc, equals_plain hx]
  by_cases hs : (x.rawEq y != (i.a != 0)) = true <;> simp [hs, skip, modifyFrame, Frame.skipIf]

/-- `lt` skips the next instruction unless the order of the operands is A. -/
theorem dispatch_lt {x y : Value} (ho : i.opcode = .lt) (hb : (rk lc.proto i.b).run m = .ok x m)
    (hc : (rk lc.proto i.c).run m = .ok y m) (hs : Stateless (lessThan call x y)) :
    (dispatch call lc i).run m = match (lessThan call x y).outcome with
      | .ok h => .ok none { m with frame := m.frame.skipIf (h != (i.a != 0)) }
      | .error e => .error e m := by
  simp only [dispatch, ho, EStateM.run_bind, hb, hc, hs.run]
  cases (lessThan call x y).outcome with
  | error e => rfl
  | ok h => by_cases hh : (h != (i.a != 0)) = true <;> simp [hh, skip, modifyFrame, Frame.skipIf]

/-- `le` skips the next instruction unless the order of the operands is A. -/
theorem dispatch_le {x y : Value} (ho : i.opcode = .le) (hb : (rk lc.proto i.b).run m = .ok x m)
    (hc : (rk lc.proto i.c).run m = .ok y m) (hs : Stateless (lessEqual call x y)) :
    (dispatch call lc i).run m = match (lessEqual call x y).outcome with
      | .ok h => .ok none { m with frame := m.frame.skipIf (h != (i.a != 0)) }
      | .error e => .error e m := by
  simp only [dispatch, ho, EStateM.run_bind, hb, hc, hs.run]
  cases (lessEqual call x y).outcome with
  | error e => rfl
  | ok h => by_cases hh : (h != (i.a != 0)) = true <;> simp [hh, skip, modifyFrame, Frame.skipIf]

/-- `test` skips the next instruction unless the truth of register A is C. -/
theorem dispatch_test (ho : i.opcode = .test) :
    (dispatch call lc i).run m = .ok none
      { m with frame := m.frame.skipIf ((m.frame.reg i.a).isTruthy != (i.c != 0)) } := by
  cases ht : (m.frame.reg i.a).isTruthy <;> cases hc : (i.c != 0) <;>
    simp [dispatch, ho, reg, frame, ht, hc, skip, modifyFrame, Frame.skipIf]

/-- `testset` copies register B into A when its truth is C, and otherwise skips the next
instruction. -/
theorem dispatch_testSet (ho : i.opcode = .testSet) :
    (dispatch call lc i).run m = .ok none { m with frame :=
      if (m.frame.reg i.b).isTruthy == (i.c != 0) then m.frame.setReg i.a (m.frame.reg i.b)
      else { m.frame with pc := m.frame.pc + 1 } } := by
  cases ht : (m.frame.reg i.b).isTruthy <;> cases hc : (i.c != 0) <;>
    simp [dispatch, ho, reg, frame, ht, hc, setReg, skip, modifyFrame]

end VM

end LuaBytecode
