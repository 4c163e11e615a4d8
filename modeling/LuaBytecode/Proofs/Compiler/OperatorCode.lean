import LuaBytecode.Proofs.Compiler.OperatorMeaning
import LuaBytecode.Proofs.Compiler.Settling
import LuaBytecode.Proofs.Compiler.Registers
/-!
# Compiled operator terms compute their meaning

The code an operator term compiles to, once placed in the running function, computes the
term's meaning by steps that call nothing, whatever else the function holds: its own jumps are
patched before it ends, and it writes only its target and the registers above. This module
states that for one evaluation (`Evaluates`) and proves it for each instruction shape of
`Compiler.Emit` from what the parts of the node compute; `compileExpr_evaluates` puts the shapes
together over the tree.

* `Admits isLocal a c`: the state `c` admits an evaluation into `a`: `a` is taken, above every
  local and small enough to be an RK operand, no jump of the code to come is pending yet, and
  every name `isLocal` admits is a local;
* `Sealed c c'`: from `c` to `c'` the settled code stays and no new jump is left pending;
* `Evaluates σ isLocal compile o`: into any target, `compile` seals its code, and from the first
  instruction of that code the machine reaches its end with the value of `o` in the target and
  the registers below it as they were, or fails as `o` does;
* `Classified σ isLocal op o`: the classification `op` of a part writes no code, and an operand
  it yields in place reads the value of `o`.
-/

namespace LuaBytecode

namespace FuncState

/-- What a function's scopes are made of: its active locals, its loops and its scope depth. -/
def scopes (fs : FuncState) : Array ActiveLocal × Array LoopInfo × Nat :=
  (fs.actives, fs.loops, fs.depth)

@[simp] theorem emit'_scopes (fs : FuncState) (i : Instruction) (line : Nat) :
    (fs.emit' i line).scopes = fs.scopes := rfl

@[simp] theorem addConstant_scopes (fs : FuncState) (k : Constant) :
    (fs.addConstant k).1.scopes = fs.scopes := by
  unfold addConstant; split <;> rfl

theorem patchJump_scopes {fs fs' : FuncState} {j t : Nat} (h : fs.patchJump j t = .ok fs') :
    fs'.scopes = fs.scopes := by
  obtain ⟨-, rfl⟩ := patchJump_eq h
  rfl

end FuncState

namespace Compiler

open Instruction

variable {σ : String → Value} {isLocal : String → Bool}

/-! ## Targets and sealed code -/

/-- The state `c` admits an evaluation into `a`: `a` is taken, above every local and small enough
to be an RK operand, every pending jump lies before the code to come, and every name `isLocal`
admits is a local. -/
structure Admits (isLocal : String → Bool) (a : Nat) (c : Compiler) : Prop where
  taken : a < c.fs.usedRegs
  above : ∀ r ∈ c.fs.slots, r < a
  room : c.fs.usedRegs ≤ 255
  settled : ∀ q ∈ c.fs.pending, q < c.fs.code.size
  names : ∀ s, isLocal s = true → (c.fs.slotOf s).isSome

/-- From `c` to `c'` the settled code stays, no jump written since `c` is left pending and every
jump pending at `c` still is, and the scopes are as they were: an expression declares nothing
and opens no block. -/
structure Sealed (c c' : Compiler) : Prop where
  settles : c.fs.Settles c'.fs
  pending : ∀ q ∈ c'.fs.pending, q < c.fs.code.size
  kept : ∀ q ∈ c.fs.pending, q ∈ c'.fs.pending
  scopes : c'.fs.scopes = c.fs.scopes

namespace Sealed

variable {c c₁ c₂ c₃ : Compiler}

theorem trans (h₁ : Sealed c₁ c₂) (h₂ : Sealed c₂ c₃) : Sealed c₁ c₃ where
  settles := h₁.settles.trans h₂.settles
  pending q hq := h₁.pending q (h₂.settles.pending q (h₂.pending q hq) hq)
  kept q hq := h₂.kept q (h₁.kept q hq)
  scopes := h₂.scopes.trans h₁.scopes

/-- A step that settles, adds no pending jump and keeps the scopes seals, when nothing was
pending past the end. -/
theorem of_settles (hs : c₁.fs.Settles c₂.fs) (hp : c₂.fs.pending = c₁.fs.pending)
    (hsc : c₂.fs.scopes = c₁.fs.scopes) (ht : ∀ q ∈ c₁.fs.pending, q < c₁.fs.code.size) :
    Sealed c₁ c₂ :=
  ⟨hs, fun q hq => ht q (hp ▸ hq), fun _ hq => hp ▸ hq, hsc⟩

theorem refl (ht : ∀ q ∈ c₁.fs.pending, q < c₁.fs.code.size) : Sealed c₁ c₁ :=
  ⟨.refl _, ht, fun _ => id, rfl⟩

/-- A step that changes neither the code, nor the pending jumps, nor the pool, nor the scopes. -/
theorem of_eq (hc : c₂.fs.code = c₁.fs.code) (hp : c₂.fs.pending = c₁.fs.pending)
    (hk : c₂.fs.constants = c₁.fs.constants) (hsc : c₂.fs.scopes = c₁.fs.scopes)
    (ht : ∀ q ∈ c₁.fs.pending, q < c₁.fs.code.size) : Sealed c₁ c₂ :=
  .of_settles (.of_eq hc hp hk) hp hsc ht

/-- Nothing pending lies past the end of sealed code. -/
theorem settled (h : Sealed c₁ c₂) : ∀ q ∈ c₂.fs.pending, q < c₂.fs.code.size :=
  fun q hq => Nat.lt_of_lt_of_le (h.pending q hq) h.settles.size

end Sealed

/-- The state `c` admits evaluations into fresh registers at its top: every local lies below
the top, every pending jump lies before the code to come, and every name `isLocal` admits is a
local. -/
structure Opens (isLocal : String → Bool) (c : Compiler) : Prop where
  below : ∀ r ∈ c.fs.slots, r < c.fs.usedRegs
  room : c.fs.usedRegs ≤ 255
  settled : ∀ q ∈ c.fs.pending, q < c.fs.code.size
  names : ∀ s, isLocal s = true → (c.fs.slotOf s).isSome

/-- The register of a local reads as an RK operand. -/
theorem Opens.slot_lt {c : Compiler} {r : Nat} (h : Opens isLocal c) (hr : r ∈ c.fs.slots) :
    r < 256 := by
  have := h.below r hr
  have := h.room
  omega

/-- A register taken at the top of a state that opens is a target, and taking it seals. -/
theorem Opens.alloc {c c' : Compiler} {line r : Nat} (h : Opens isLocal c)
    (hr : (alloc line).run c = .ok (r, c')) : r = c.fs.usedRegs ∧ Admits isLocal r c' ∧ Sealed c c' := by
  obtain ⟨fs', h₁, rfl⟩ := run_onFs hr
  obtain ⟨hlt, rfl, rfl⟩ := FuncState.allocReg_ok h₁
  exact ⟨rfl, ⟨by simp, h.below, by simp; exact hlt, h.settled, h.names⟩,
    .of_eq rfl rfl rfl rfl h.settled⟩

namespace Admits

variable {a : Nat} {c c' : Compiler}

/-- A step that keeps the registers and the locals, and leaves nothing pending past its end,
keeps the target. -/
theorem keep (h : Admits isLocal a c) (hk : Keeps c c') (hu : c'.fs.usedRegs = c.fs.usedRegs)
    (hs : ∀ q ∈ c'.fs.pending, q < c'.fs.code.size) : Admits isLocal a c' where
  taken := hu ▸ h.taken
  above r hr := h.above r (hk.slots ▸ hr)
  room := hu ▸ h.room
  settled := hs
  names s hs' := by rw [FuncState.slotOf_of_unmark hk.actives]; exact h.names s hs'

theorem exprOk {b : Nat} (h : Admits isLocal a c) (he : ExprOk b c c') (hs : Sealed c c') :
    Admits isLocal a c' :=
  h.keep he.toKeeps he.usedRegs hs.settled

/-- A register taken at the top is a target, and taking it seals. -/
theorem alloc {line r : Nat} (h : Admits isLocal a c) (hr : (alloc line).run c = .ok (r, c')) :
    r = c.fs.usedRegs ∧ a < r ∧ Admits isLocal r c' ∧ Sealed c c' := by
  obtain ⟨fs', h₁, rfl⟩ := run_onFs hr
  obtain ⟨hlt, rfl, rfl⟩ := FuncState.allocReg_ok h₁
  refine ⟨rfl, h.taken, ⟨by simp, fun q hq => ?_, by simp; exact hlt, h.settled, h.names⟩,
    .of_eq rfl rfl rfl rfl h.settled⟩
  exact Nat.lt_trans (h.above q hq) h.taken

/-- A state that admits a target admits evaluations at its top. -/
theorem opens (h : Admits isLocal a c) : Opens isLocal c :=
  ⟨fun r hr => Nat.lt_trans (h.above r hr) h.taken, h.room, h.settled, h.names⟩

/-- A target above a lower one that is still above the locals. -/
theorem lower {b : Nat} (h : Admits isLocal b c) (hab : a ≤ b) (hs : ∀ r ∈ c.fs.slots, r < a) :
    Admits isLocal a c :=
  ⟨Nat.lt_of_le_of_lt hab h.taken, hs, h.room, h.settled, h.names⟩

/-- An appended instruction keeps the target. -/
theorem emit' {i : Instruction} {line : Nat} (h : Admits isLocal a c) :
    Admits isLocal a { c with fs := c.fs.emit' i line } :=
  ⟨h.taken, h.above, h.room, fun q hq => by simpa using Nat.lt_succ_of_lt (h.settled q hq),
    h.names⟩

/-- The register of a local reads as an RK operand. -/
theorem slot_lt {r : Nat} (h : Admits isLocal a c) (hr : r ∈ c.fs.slots) : r < 256 := by
  have := h.above r hr
  have := h.taken
  have := h.room
  omega

end Admits

/-! ## What a part computes -/

/-- Into any target, `compile` seals its code, and from the first instruction of that code the
machine reaches its end with the value of `o` in the target and the registers below it as they
were, or fails as `o` does. -/
def Evaluates (σ : String → Value) (isLocal : String → Bool) (compile : Nat → CompileM Unit)
    (o : Except Fault Value) : Prop :=
  ∀ a c c', Admits isLocal a c → (compile a).run c = .ok ((), c') → Sealed c c' ∧
    ∀ lc m, Placed lc.proto c'.fs c.fs.code.size → m.Runs lc → m.frame.pc = c.fs.code.size →
      Env σ isLocal c.fs m.frame → VM.Does m o (Lands a c'.fs.code.size m)

/-- The classification `op` of a part writes no code, and an operand it yields in place reads the
value of the part's outcome `o` wherever the names hold their values and the pool holds the
constants classified so far. -/
def Classified (σ : String → Value) (isLocal : String → Bool) (op : CompileM Operand)
    (o : Except Fault Value) : Prop :=
  ∀ c c' x, Opens isLocal c → op.run c = .ok (x, c') → Sealed c c' ∧ ∀ k, x.rk? = some k →
    ∃ v, o = .ok v ∧ ∀ p (f : Frame), c'.fs.constants.toList <+: p.constants.toList →
      Env σ isLocal c.fs f → Reads p f k v

/-! ## Placed code -/

/-- The instruction a step appended is in place, once nothing before the end was pending. -/
theorem Placed.last {p : Proto} {fs fs' : FuncState} {start : Nat} {i : Instruction} {line : Nat}
    (h : Placed p fs' start) (hs : (fs.emit' i line).Settles fs') (hstart : start ≤ fs.code.size)
    (hpend : ∀ q ∈ fs.pending, q < fs.code.size) : p.code[fs.code.size]? = some i :=
  (h.earlier hs hstart).instr (Nat.le_refl _) (fun hq => Nat.lt_irrefl _ (hpend _ hq)) (by simp)

/-- A jump emitted with a displacement that fits has that displacement. -/
theorem FuncState.emitAsBx_jmp {fs fs' : FuncState} {a' line : Nat} {sbx : Int}
    (h : fs.emitAsBx .jmp a' sbx line = .ok fs') (hlo : -sbxBias ≤ sbx) (hhi : sbx ≤ sbxBias + 1) :
    ∃ j, fs' = fs.emit' j line ∧ j.opcode = .jmp ∧ j.a = a' ∧ j.sbx = sbx := by
  simp only [FuncState.emitAsBx, FuncState.buildAsBx] at h
  cases hb : FuncState.buildABx .jmp a' (FuncState.word32 (sbx + sbxBias)) with
  | error e => rw [hb] at h; cases h
  | ok i =>
    rw [hb] at h
    cases h
    obtain ⟨⟨ha, hbx⟩, rfl⟩ := FuncState.buildABx_ok hb
    refine ⟨_, rfl, opcode_abx _ _ _, a_abx _ _ ha, ?_⟩
    rw [sbx_abx _ _ hbx]
    simp only [FuncState.word32, sbxBias] at hlo hhi ⊢
    omega

/-- Code placed from `start` on, where nothing is pending, is in the prototype. -/
theorem Placed.at {p : Proto} {fs : FuncState} {start q : Nat} {i : Instruction}
    (h : Placed p fs start) (hpend : ∀ r ∈ fs.pending, r < start) (hq : start ≤ q)
    (hi : fs.code[q]? = some i) : p.code[q]? = some i :=
  h.instr hq (fun hp => absurd (hpend q hp) (Nat.not_lt.mpr hq)) hi

theorem Lands.write {a stop : Nat} {m : Machine} {v : Value} (hpc : m.frame.pc + 1 = stop) :
    Lands a stop m v (m.write a v) :=
  ⟨by simpa using hpc, by simp, fun r hr => by simp [Nat.ne_of_lt hr], .write⟩

/-! ## Loads -/

variable {line : Nat}

/-- An appended instruction seals, and the state after it admits what the state before it did. -/
theorem sealed_emit' {c : Compiler} {i : Instruction}
    (ht : ∀ q ∈ c.fs.pending, q < c.fs.code.size) :
    Sealed c { c with fs := c.fs.emit' i line } :=
  .of_settles (.emit' _ _ _) rfl rfl ht

/-- Appending to sealed code keeps it sealed. -/
theorem Sealed.emit' {c₀ c₁ : Compiler} {i : Instruction} (h : Sealed c₀ c₁) :
    Sealed c₀ { c₁ with fs := c₁.fs.emit' i line } :=
  h.trans (sealed_emit' h.settled)

/-- One instruction into the target that moves to its successor with the target written. -/
theorem evaluates_single {op : Opcode} {b x : Nat} {v : Value}
    (hmove : ∀ a lc m, m.Runs lc → lc.proto.code[m.frame.pc]? = some (abc op a b x) →
      a ≤ maxA → VM.Moves m (m.write a v)) :
    Evaluates σ isLocal (fun a => emitABC op a b x line) (.ok v) := by
  intro a c c' ht h
  obtain ⟨hfit, rfl⟩ := emitABC_spec h
  refine ⟨sealed_emit' ht.settled, fun lc m hp hr hpc _ => ?_⟩
  have hi := hp.last (.refl _) (Nat.le_refl _) ht.settled
  rw [← hpc] at hi
  exact .move (hmove a lc m hr hi hfit.1) (.write (by simp [hpc]))

theorem emitLoadNil_evaluates :
    Evaluates σ isLocal (fun a => updateFs (·.emitLoadNil a 1 line)) (.ok .nil) := by
  have e : (fun a => updateFs (·.emitLoadNil a 1 line)) = fun a => emitABC .loadNil a 0 0 line := rfl
  rw [e]
  refine evaluates_single fun a lc m hr hi ha => ?_
  have hm := VM.moves_loadNil hr hi (opcode_abc _ _ _ _)
  rw [b_abc _ _ _ _ (by decide), a_abc _ _ _ _ ha] at hm
  -- one register is cleared: `a` itself
  exact hm

theorem emitLoadBool_evaluates (b : Bool) :
    Evaluates σ isLocal (fun a => updateFs (·.emitLoadBool a b false line)) (.ok (.bool b)) := by
  have e : (fun a => updateFs (·.emitLoadBool a b false line)) =
      fun a => emitABC .loadBool a (if b then 1 else 0) 0 line := rfl
  rw [e]
  refine evaluates_single fun a lc m hr hi ha => ?_
  have hm := VM.moves_loadBool hr hi (opcode_abc _ _ _ _) (c_abc _ _ _ _ (by decide))
  rw [a_abc _ _ _ _ ha, b_abc _ _ _ _ (by cases b <;> decide)] at hm
  cases b <;> exact hm

theorem emitLoadK_evaluates (k : Constant) :
    Evaluates σ isLocal (fun a => updateFs (·.emitLoadK a k line)) (.ok k.toValue) := by
  intro a c c' ht h
  obtain ⟨fs', h₁, rfl⟩ := run_updateFs h
  simp only [FuncState.emitLoadK] at h₁
  -- the constant is interned first, which changes the pool alone
  obtain ⟨hk, -, hcode, -, -⟩ := FuncState.addConstant_spec
    (show c.fs.addConstant k = ((c.fs.addConstant k).1, (c.fs.addConstant k).2) from rfl)
  have hs₀ := FuncState.Settles.addConstant c.fs k
  have hpend : (c.fs.addConstant k).1.pending = c.fs.pending := by simp
  have ht₀ : ∀ q ∈ (c.fs.addConstant k).1.pending, q < (c.fs.addConstant k).1.code.size := by
    rw [hpend, hcode]; exact ht.settled
  split at h₁
  · obtain ⟨hfit, rfl⟩ := FuncState.emitABx_ok h₁
    refine ⟨.of_settles (hs₀.trans (.emit' _ _ _)) hpend (by simp) ht.settled,
      fun lc m hp hr hpc _ => ?_⟩
    have hi := hp.last (.refl _) (by rw [hcode]) ht₀
    rw [hcode, ← hpc] at hi
    have hkp := hp.constant (k := (c.fs.addConstant k).2) (by simpa using hk)
    rw [← bx_abx .loadK a hfit.2] at hkp
    have hm := VM.moves_loadK hr hi (opcode_abx _ _ _) hkp
    rw [a_abx _ _ hfit.1] at hm
    exact .move hm (.write (by simp [hpc]))
  · -- a constant past the reach of `loadk` travels in an `extraArg`
    cases h₂ : (c.fs.addConstant k).1.emitABx .loadKx a 0 line with
    | error e => rw [h₂] at h₁; cases h₁
    | ok fs₁ =>
      rw [h₂] at h₁
      obtain ⟨hfit, rfl⟩ := FuncState.emitABx_ok h₂
      have hx : (c.fs.addConstant k).2 ≤ maxAx := by
        simp only [FuncState.emitAx] at h₁
        cases hb : FuncState.buildAx .extraArg (c.fs.addConstant k).2 with
        | error e => rw [hb] at h₁; cases h₁
        | ok i => exact (FuncState.buildAx_ok hb).1
      obtain rfl := FuncState.emitAx_ok h₁
      have hs₁ := hs₀.trans (.emit' _ (abx .loadKx a 0) line)
      refine ⟨.of_settles (hs₁.trans (.emit' _ _ _)) hpend (by simp) ht.settled,
        fun lc m hp hr hpc _ => ?_⟩
      have hi₁ := hp.last (.emit' _ _ _) (by rw [hcode]) ht₀
      have hi₂ := hp.last (.refl _) (by simp) (fun q hq => by
        have := ht₀ q hq; simp only [FuncState.emit'_code, Array.size_push]; omega)
      rw [hcode, ← hpc] at hi₁
      simp only [FuncState.emit'_code, Array.size_push, hcode, ← hpc] at hi₂
      have hkp := hp.constant (k := (c.fs.addConstant k).2) (by simpa using hk)
      rw [← axArg_ax .extraArg hx] at hkp
      have hm := VM.moves_loadKx hr hi₁ (opcode_abx _ _ _) hi₂ hkp
      rw [a_abx _ _ hfit.1] at hm
      exact .move hm (.write (by simp [hpc]))

/-- A local is moved from its register. -/
theorem compileName_evaluates {s : String} (hs : isLocal s = true) :
    Evaluates σ isLocal (fun a => compileName s a line) (.ok (σ s)) := by
  intro a c c' ht h
  unfold compileName at h
  obtain ⟨c₀, c₁, h₀, h₁⟩ := run_bind_ok h
  obtain ⟨rfl, rfl⟩ := run_get_ok h₀
  obtain ⟨slot, hslot⟩ := Option.isSome_iff_exists.mp (ht.names s hs)
  rw [hslot] at h₁
  obtain ⟨fs', h₂, rfl⟩ := run_updateFs h₁
  obtain ⟨hfit, rfl⟩ := FuncState.emitABC_ok h₂
  refine ⟨sealed_emit' ht.settled, fun lc m hp hr hpc henv => ?_⟩
  have hi := hp.last (.refl _) (Nat.le_refl _) ht.settled
  rw [← hpc] at hi
  have hm := VM.moves_move hr hi (opcode_abc _ _ _ _)
  rw [a_abc _ _ _ _ hfit.1, b_abc _ _ _ _ hfit.2.1] at hm
  obtain ⟨r, hr', hv⟩ := henv s hs
  rw [hslot] at hr'
  cases hr'
  rw [hv] at hm
  exact .move hm (.write (by simp [hpc]))

/-! ## Registers kept -/

/-- The machine went from `m` to `m'` keeping the registers below `a`, and all but the running
frame's registers and position. -/
def Kept (a : Nat) (m m' : Machine) : Prop :=
  (∀ r < a, m'.frame.reg r = m.frame.reg r) ∧ m.Rest m'

namespace Kept

variable {a b : Nat} {m m₁ m₂ : Machine}

theorem refl (a : Nat) (m : Machine) : Kept a m m := ⟨fun _ _ => rfl, .refl m⟩

theorem trans (h₁ : Kept a m m₁) (h₂ : Kept a m₁ m₂) : Kept a m m₂ :=
  ⟨fun r hr => (h₂.1 r hr).trans (h₁.1 r hr), h₁.2.trans h₂.2⟩

theorem mono (h : Kept a m m₁) (hb : b ≤ a) : Kept b m m₁ :=
  ⟨fun r hr => h.1 r (Nat.lt_of_lt_of_le hr hb), h.2⟩

theorem write {v : Value} (hb : a ≤ b) : Kept a m (m.write b v) :=
  ⟨fun r hr => by simp [Nat.ne_of_lt (Nat.lt_of_lt_of_le hr hb)], .write⟩

theorem fetched : Kept a m m.fetched := ⟨fun _ _ => rfl, .fetched⟩

theorem setPc (n : Nat) : Kept a m { m with frame := { m.frame with pc := n } } :=
  ⟨fun _ _ => rfl, (Machine.Rest.refl m).setPc n⟩

theorem skip (s : Bool) : Kept a m { m.fetched with frame := m.fetched.frame.skipIf s } :=
  ⟨fun _ _ => by simp, Machine.Rest.fetched.skipIf s⟩

theorem of_lands {stop : Nat} {v : Value} (h : Lands a stop m v m₁) : Kept a m m₁ := ⟨h.2.2.1, h.2.2.2⟩

/-- The names keep their values while the registers of the locals, all below `a`, are kept. -/
theorem env {fs fs' : FuncState} (h : Kept a m m₁) (he : Env σ isLocal fs m.frame)
    (hs : ∀ r ∈ fs.slots, r < a) (hslot : fs'.slotOf = fs.slotOf) : Env σ isLocal fs' m₁.frame :=
  he.keep hslot fun r hr => h.1 r (hs r hr)

/-- An operand that is a constant, or a register below `a`, reads the same. -/
theorem reads {p : Proto} {x : Nat} {v : Value} (h : Kept a m m₁) (hr : Reads p m.frame x v)
    (hx : isConst x = true ∨ x < a) : Reads p m₁.frame x v :=
  hr.keep fun hc => h.1 x (hx.resolve_left (by simp [hc]))

end Kept

theorem Lands.of_kept {a stop : Nat} {m m' : Machine} (h : Kept a m m') (hpc : m'.frame.pc = stop) :
    Lands a stop m (m'.frame.reg a) m' :=
  ⟨hpc, rfl, h.1, h.2⟩

theorem Kept.lands {a stop : Nat} {m m' : Machine} {v : Value} (h : Kept a m m')
    (hpc : m'.frame.pc = stop) (hv : m'.frame.reg a = v) : Lands a stop m v m' :=
  ⟨hpc, hv, h.1, h.2⟩

/-- Writing the target after code that kept the registers below it. -/
theorem Kept.lands_write {a stop : Nat} {m m' : Machine} {v : Value} (h : Kept a m m')
    (hpc : m'.frame.pc + 1 = stop) : Lands a stop m v (m'.write a v) :=
  ⟨by simpa using hpc, by simp, (h.trans (.write (Nat.le_refl a))).1, (h.trans (.write (Nat.le_refl a))).2⟩

/-! ## Operands -/

variable {call : VM.Call}

theorem outcome_literal {e : Expr} {k : Constant} (h : e.literal? = some k) :
    (e.evalOp call σ).outcome = .ok k.toValue := by
  cases e <;> simp only [Expr.literal?, Option.some.injEq, reduceCtorEq] at h <;> subst h <;> rfl

/-- Interning a constant seals, and the constant stays at its index. -/
theorem addConstant_sealed {c c' : Compiler} {k : Constant} {idx : Nat}
    (ht : ∀ q ∈ c.fs.pending, q < c.fs.code.size) (h : (addConstant k).run c = .ok (idx, c')) :
    Sealed c c' ∧ c'.fs.constants[idx]? = some k ∧ c'.fs.code = c.fs.code := by
  obtain ⟨fs', hfs, rfl⟩ := run_onFs h
  have e := Except.ok.inj hfs
  obtain ⟨hk, -, hcode, -, -⟩ := FuncState.addConstant_spec e
  have e₁ : fs' = (c.fs.addConstant k).1 := by rw [e]
  subst e₁
  exact ⟨.of_settles (.addConstant _ _) (by simp) (by simp) ht, hk, hcode⟩

/-- An operator term is read in place when it is a literal whose constant fits an RK operand,
or a local. -/
theorem classify_classified (e : Expr) (he : e.isOperatorTerm isLocal = true) :
    Classified σ isLocal (classify e) (e.evalOp call σ).outcome := by
  intro c c' x ht h
  unfold classify at h
  split at h
  · -- a literal: its constant, in place when its index fits
    rename_i k hk
    obtain ⟨idx, c₁, h₁, h₂⟩ := run_bind_ok h
    obtain ⟨rfl, rfl⟩ := run_pure_ok h₂
    obtain ⟨hs, hidx, -⟩ := addConstant_sealed ht.settled h₁
    refine ⟨hs, fun k' hk' => ⟨k.toValue, outcome_literal hk, fun p f hpre _ => ?_⟩⟩
    split at hk'
    · rename_i hle
      cases hk'
      exact .const (by omega) (constant_of_extends hpre hidx)
    · cases hk'
  · -- a local, read in its register
    rename_i s l _
    obtain ⟨c₀, c₁, h₀, h₁⟩ := run_bind_ok h
    obtain ⟨rfl, rfl⟩ := run_get_ok h₀
    have hs : isLocal s = true := he
    obtain ⟨slot, hslot⟩ := Option.isSome_iff_exists.mp (ht.names s hs)
    rw [hslot] at h₁
    obtain ⟨rfl, rfl⟩ := run_pure_ok h₁
    refine ⟨.refl ht.settled, fun k hk => ⟨σ s, rfl, fun p f _ henv => ?_⟩⟩
    cases hk
    obtain ⟨r, hr, hv⟩ := henv s hs
    rw [hslot] at hr
    cases hr
    rw [← hv]
    exact .reg (ht.slot_lt (FuncState.slotOf_mem hslot))
  · obtain ⟨rfl, rfl⟩ := run_pure_ok h
    exact ⟨.refl ht.settled, fun k hk => by cases hk⟩

/-- A part of a node: how it is classified and how it is evaluated, keeping to its target, with
its outcome. -/
structure EvalPart (σ : String → Value) (isLocal : String → Bool) (op : CompileM Operand)
    (compile : Nat → CompileM Unit) (o : Except Fault Value) : Prop where
  classifies : Classifies op
  into : Into compile
  classified : Classified σ isLocal op o
  evaluates : Evaluates σ isLocal compile o
  plain : ∀ v, o = .ok v → v.isTable = false

variable {op : CompileM Operand} {compile : Nat → CompileM Unit} {o : Except Fault Value}
  {a x : Nat} {c c' : Compiler}

/-- The classification of a part, with what its operand reads. -/
theorem EvalPart.classify (hp : EvalPart σ isLocal op compile o) {y : Operand}
    (ht : Admits isLocal a c) (h : op.run c = .ok (y, c')) :
    Sealed c c' ∧ Quiet c c' ∧ Admits isLocal a c' ∧ ∀ k, y.rk? = some k →
      (isConst k = true ∨ k < a) ∧ ∃ v, o = .ok v ∧ ∀ p (f : Frame),
        c'.fs.constants.toList <+: p.constants.toList → Env σ isLocal c.fs f → Reads p f k v := by
  obtain ⟨hq, hfit⟩ := hp.classifies c c' y h
  obtain ⟨hs, hread⟩ := hp.classified c c' y ht.opens h
  refine ⟨hs, hq, ht.keep hq.toKeeps hq.usedRegs hs.settled, fun k hk => ⟨?_, hread k hk⟩⟩
  cases y <;> simp only [Operand.rk?, Option.some.injEq, reduceCtorEq] at hk <;> subst hk
  · exact .inl hfit
  · exact .inr (ht.above _ hfit)

/-- The left operand of a binary instruction: read in place, or evaluated into `a`. -/
theorem rkOrTarget_does {inA : Bool} (hp : EvalPart σ isLocal op compile o)
    (ht : Admits isLocal a c) (h : (rkOrTarget op compile a).run c = .ok ((x, inA), c')) :
    Sealed c c' ∧ ExprOk a c c' ∧ (isConst x = true ∨ x < a ∨ inA = true ∧ x = a) ∧
    ∀ lc m, Placed lc.proto c'.fs c.fs.code.size → m.Runs lc → m.frame.pc = c.fs.code.size →
      Env σ isLocal c.fs m.frame → VM.Does m o fun v m' =>
        m'.frame.pc = c'.fs.code.size ∧ Reads lc.proto m'.frame x v ∧ Kept a m m' := by
  obtain ⟨y, c₁, h₁, h₂⟩ := run_bind_ok h
  obtain ⟨hs₁, hq, ht₁, hread⟩ := hp.classify ht h₁
  split at h₂
  · rename_i k hk
    obtain ⟨he, rfl⟩ := run_pure_ok h₂
    cases he
    obtain ⟨hx, v, rfl, hrd⟩ := hread x hk
    refine ⟨hs₁, hq.exprOk a, hx.imp_right .inl, fun lc m hpl _ hpc henv => ?_⟩
    exact .here ⟨by rw [hpc, hq.code], hrd _ _ hpl.constants henv, .refl a m⟩
  · obtain ⟨u, c₂, h₃, h₄⟩ := run_bind_ok h₂
    obtain ⟨he, rfl⟩ := run_pure_ok h₄
    cases he
    obtain ⟨hs₂, hrun⟩ := hp.evaluates a c₁ c₂ ht₁ h₃
    refine ⟨hs₁.trans hs₂, (hq.exprOk a).trans (hp.into a c₁ c₂ ht₁.taken h₃),
      .inr (.inr ⟨rfl, rfl⟩), fun lc m hpl hr hpc henv => ?_⟩
    rw [← hq.code] at hpl hpc
    refine (hrun lc m hpl hr hpc (henv.keep (FuncState.slotOf_of_unmark hq.actives)
      fun _ _ => rfl)).mono fun v m' hl => ⟨hl.1, ?_, .of_lands hl⟩
    rw [← hl.2.1]
    exact .reg (by have := ht.taken; have := ht.room; omega)

/-- The right operand of a binary instruction: read in place, or evaluated into `a`, or into a
temporary above it when `a` is taken by the left one. -/
theorem rkOrInto_does {line : Nat} {taken : Bool} (hp : EvalPart σ isLocal op compile o)
    (ht : Admits isLocal a c) (h : (rkOrInto op compile a line taken).run c = .ok (x, c')) :
    Sealed c c' ∧ ExprOk a c c' ∧
    ∀ lc m, Placed lc.proto c'.fs c.fs.code.size → m.Runs lc → m.frame.pc = c.fs.code.size →
      Env σ isLocal c.fs m.frame → VM.Does m o fun v m' =>
        m'.frame.pc = c'.fs.code.size ∧ Reads lc.proto m'.frame x v ∧
          Kept (if taken then a + 1 else a) m m' := by
  obtain ⟨y, c₁, h₁, h₂⟩ := run_bind_ok h
  obtain ⟨hs₁, hq, ht₁, hread⟩ := hp.classify ht h₁
  have henv₁ {m : Machine} (henv : Env σ isLocal c.fs m.frame) : Env σ isLocal c₁.fs m.frame :=
    henv.keep (FuncState.slotOf_of_unmark hq.actives) fun _ _ => rfl
  split at h₂
  · rename_i k hk
    obtain ⟨rfl, rfl⟩ := run_pure_ok h₂
    obtain ⟨-, v, rfl, hrd⟩ := hread x hk
    refine ⟨hs₁, hq.exprOk a, fun lc m hpl _ hpc henv => ?_⟩
    exact .here ⟨by rw [hpc, hq.code], hrd _ _ hpl.constants henv, .refl _ m⟩
  · split at h₂
    · -- `a` holds the left operand: a temporary above it
      rename_i htk
      simp only [htk, if_true]
      obtain ⟨r, c₂, h₃, h₄⟩ := run_bind_ok h₂
      obtain ⟨rfl, har, ht₂, hs₂⟩ := ht₁.alloc h₃
      obtain ⟨u, c₃, h₅, h₆⟩ := run_bind_ok h₄
      obtain ⟨u', c₄, h₇, h₈⟩ := run_bind_ok h₆
      obtain ⟨rfl, rfl⟩ := run_pure_ok h₈
      obtain ⟨hs₃, hrun⟩ := hp.evaluates _ c₂ c₃ ht₂ h₅
      obtain ⟨fs', hf, rfl⟩ := run_updateFs h₇
      obtain ⟨-, rfl⟩ := FuncState.freeReg_ok hf
      have hs₄ : Sealed c₃ { c₃ with fs := { c₃.fs with usedRegs := c₃.fs.usedRegs - 1 } } :=
        .of_eq rfl rfl rfl rfl hs₃.settled
      obtain ⟨-, hu₁, hk₁, hcode₁⟩ := alloc_spec h₃
      obtain ⟨hex, hu₂⟩ := (hp.into _ c₂ c₃ ht₂.taken h₅)
      refine ⟨hs₁.trans (hs₂.trans (hs₃.trans hs₄)), ?_, fun lc m hpl hr hpc henv => ?_⟩
      · obtain ⟨c₅, hc₅, h₉⟩ := temp_exprOk (a := a) (hp.into) (Nat.le_of_lt ht₁.taken) h₂
        obtain ⟨he, rfl⟩ := run_pure_ok h₉
        exact (hq.exprOk a).trans hc₅
      · have hcode₂ : c₂.fs.code = c.fs.code := hcode₁.trans hq.code
        rw [← hcode₂] at hpc
        refine (hrun lc m (hpl.earlier hs₄.settles (by rw [hcode₂])) hr hpc
          ((henv₁ henv).keep (FuncState.slotOf_of_unmark hk₁.actives) fun _ _ => rfl)).mono
          fun v m' hl => ⟨hl.1, ?_, (Kept.of_lands hl).mono (by omega)⟩
        rw [← hl.2.1]
        exact .reg (by have := ht₂.taken; have := ht₂.room; omega)
    · rename_i htk
      simp only [htk, Bool.false_eq_true, if_false]
      obtain ⟨u, c₂, h₃, h₄⟩ := run_bind_ok h₂
      obtain ⟨hxa, rfl⟩ := run_pure_ok h₄
      subst x
      obtain ⟨hs₂, hrun⟩ := hp.evaluates a c₁ c₂ ht₁ h₃
      refine ⟨hs₁.trans hs₂, (hq.exprOk a).trans (hp.into a c₁ c₂ ht₁.taken h₃),
        fun lc m hpl hr hpc henv => ?_⟩
      rw [← hq.code] at hpl hpc
      refine (hrun lc m hpl hr hpc (henv₁ henv)).mono fun v m' hl => ⟨hl.1, ?_, .of_lands hl⟩
      rw [← hl.2.1]
      exact .reg (by have := ht.taken; have := ht.room; omega)

/-- The two operands of a binary instruction into `a`, followed by code that is given what they
read: the left operand is evaluated first, then the right one. -/
theorem operandsWith_does {lhsOp rhsOp : CompileM Operand} {compileLhs compileRhs : Nat → CompileM Unit}
    {o₁ o₂ : Except Fault Value} {line b : Nat} (hl : EvalPart σ isLocal lhsOp compileLhs o₁)
    (hr : EvalPart σ isLocal rhsOp compileRhs o₂) (ht : Admits isLocal a c)
    (h : (operandsWith lhsOp compileLhs rhsOp compileRhs a line).run c = .ok ((b, x), c')) :
    Sealed c c' ∧ ExprOk a c c' ∧
    ∀ lc m, Placed lc.proto c'.fs c.fs.code.size → m.Runs lc → m.frame.pc = c.fs.code.size →
      Env σ isLocal c.fs m.frame → ∀ {β : Type} {g : Value → Value → Except Fault β}
        {post : β → Machine → Prop}, (∀ v w m', m'.frame.pc = c'.fs.code.size →
          Reads lc.proto m'.frame b v → Reads lc.proto m'.frame x w → Kept a m m' →
          v.isTable = false → w.isTable = false → VM.Does m' (g v w) post) →
        VM.Does m (o₁ >>= fun v => o₂ >>= fun w => g v w) post := by
  obtain ⟨⟨b', inA⟩, c₁, h₁, h₂⟩ := run_bind_ok h
  obtain ⟨hs₁, he₁, hb, hrun₁⟩ := rkOrTarget_does hl ht h₁
  obtain ⟨x', c₂, h₃, h₄⟩ := run_bind_ok h₂
  obtain ⟨he, rfl⟩ := run_pure_ok h₄
  cases he
  obtain ⟨hs₂, he₂, hrun₂⟩ := rkOrInto_does hr (ht.exprOk he₁ hs₁) h₃
  refine ⟨hs₁.trans hs₂, he₁.trans he₂, fun lc m hpl hrun hpc henv β g post hg => ?_⟩
  refine (hrun₁ lc m (hpl.earlier hs₂.settles (Nat.le_refl _)) hrun hpc henv).bind
    fun v m₁ hv ⟨hpc₁, hrd₁, hk₁⟩ => ?_
  have henv₁ := hk₁.env henv ht.above (FuncState.slotOf_of_unmark he₁.actives)
  refine (hrun₂ lc m₁ (hpl.earlier (.refl _) he₁.size_le) (hk₁.2.runs hrun) hpc₁
    henv₁).bind
    fun w m₂ hw ⟨hpc₂, hrd₂, hk₂⟩ => ?_
  have hk₂' : Kept a m₁ m₂ := hk₂.mono (by split <;> omega)
  refine hg v w m₂ hpc₂ ?_ hrd₂ (hk₁.trans hk₂') (hl.plain v hv) (hr.plain w hw)
  -- the left operand is a constant or a local, or it is in `a` and the right one went above
  rcases hb with hb | hb | ⟨rfl, rfl⟩
  · exact hk₂'.reads hrd₁ (.inl hb)
  · exact hk₂'.reads hrd₁ (.inr hb)
  · exact hk₂.reads hrd₁ (.inr (by simp))

/-! ## Arithmetic and comparisons -/

theorem arithOf_arithOpcode {op : BinOp} (h : op.isPlainArith = true) :
    VM.arithOf (arithOpcode op) = op.toArith := by
  cases op <;> cases h <;> rfl

/-- A register operand reads what its register holds. -/
theorem Reads.reg_eq {p : Proto} {f : Frame} {y : Nat} {v : Value} (h : Reads p f y v)
    (hy : y < 256) : f.reg y = v := by
  have hc : isConst y = false := by
    simp only [isConst, Nat.div_eq_of_lt hy]
    rfl
  simpa [Reads, hc] using h

/-- An operand read by an instruction is read the same once the instruction is fetched. -/
theorem Reads.fetched {p : Proto} {m : Machine} {y : Nat} {v : Value} (h : Reads p m.frame y v) :
    (VM.rk p y).run m.fetched = .ok v m.fetched :=
  Reads.rk (m := m.fetched) (h.keep fun _ => rfl)

/-- An arithmetic or bitwise operator: its operands, then one instruction into `a`. -/
theorem arith_evaluates {opr : BinOp} {lhsOp rhsOp : CompileM Operand}
    {compileLhs compileRhs : Nat → CompileM Unit} {o₁ o₂ : Except Fault Value} {line : Nat}
    (hop : opr.isPlainArith = true) (hl : EvalPart σ isLocal lhsOp compileLhs o₁)
    (hr : EvalPart σ isLocal rhsOp compileRhs o₂) :
    Evaluates σ isLocal (fun a => do
        let (b, x) ← operandsWith lhsOp compileLhs rhsOp compileRhs a line
        emitABC (arithOpcode opr) a b x line)
      (o₁ >>= fun v => o₂ >>= fun w => (VM.arith call opr.toArith v w).outcome) := by
  intro a c c' ht h
  obtain ⟨⟨b, x⟩, c₁, h₁, h₂⟩ := run_bind_ok h
  obtain ⟨hs₁, he₁, hrun⟩ := operandsWith_does hl hr ht h₁
  obtain ⟨hfit, rfl⟩ := emitABC_spec h₂
  refine ⟨hs₁.trans (sealed_emit' hs₁.settled), fun lc m hpl hr' hpc henv => ?_⟩
  have hi := hpl.last (.refl _) he₁.size_le hs₁.settled
  refine hrun lc m (hpl.earlier (.emit' _ _ _) (Nat.le_refl _)) hr' hpc henv
    fun v w m' hpc' hb hx hk hv hw => ?_
  rw [← hpc'] at hi
  have hd := VM.does_arith (hk.2.runs hr') hi call
    (by rw [opcode_abc]; exact arithOpcode_mem opr) (by rw [b_abc _ _ _ _ hfit.2.1]; exact hb.fetched)
    (by rw [c_abc _ _ _ _ hfit.2.2]; exact hx.fetched) hv hw
  rw [opcode_abc, arithOf_arithOpcode hop, a_abc _ _ _ _ hfit.1] at hd
  exact hd.mono fun u m'' e => e ▸ hk.lands_write (by simp [hpc'])

/-- The comparison instruction of a binary comparison, on operands that read `v` and `w`: it
gives the comparison's outcome and skips the next instruction unless it equals what A and the
negation of `~=` say. -/
theorem does_cmp (call : VM.Call) {op : BinOp} (hop : op = .eq ∨ op = .ne ∨ op = .lt ∨ op = .le ∨ op = .gt ∨ op = .ge)
    {m : Machine} {lc : Closure} {code : Opcode} {A b x b' x' : Nat} {v w : Value} (hr : m.Runs lc)
    (hco : compareOperands op b x = (code, b', x'))
    (hi : lc.proto.code[m.frame.pc]? = some (abc code A b' x'))
    (hfit : A ≤ maxA ∧ b ≤ maxBC ∧ x ≤ maxBC) (hrb : Reads lc.proto m.frame b v)
    (hrx : Reads lc.proto m.frame x w) (hv : v.isTable = false) (hw : w.isTable = false) :
    VM.Does m (op.compare call v w) fun r m' =>
      m' = { m.fetched with frame := m.fetched.frame.skipIf (r != ((A != 0) != (op == .ne))) } := by
  obtain ⟨hA, hb, hx⟩ := hfit
  have hb' := hrb.fetched
  have hx' := hrx.fetched
  -- the flag the instruction tests, read off A, for each comparison
  have flag {r : Bool} {neg : Bool} (hn : (op == .ne) = neg) :
      (r != ((A != 0) != neg)) = ((if neg then !r else r) != (A != 0)) := by
    generalize (A != 0) = t
    cases r <;> cases t <;> cases neg <;> rfl
  rcases hop with rfl | rfl | rfl | rfl | rfl | rfl <;>
    simp only [compareOperands, Prod.mk.injEq] at hco <;> obtain ⟨rfl, rfl, rfl⟩ := hco
  · have hm := VM.moves_eq hr hi (opcode_abc _ _ _ _) (by rw [b_abc _ _ _ _ hb]; exact hb')
      (by rw [c_abc _ _ _ _ hx]; exact hx') hv
    rw [a_abc _ _ _ _ hA] at hm
    simp only [BinOp.compare, VM.equals_plain hv]
    exact .move hm (by rw [flag rfl]; rfl)
  · have hm := VM.moves_eq hr hi (opcode_abc _ _ _ _) (by rw [b_abc _ _ _ _ hb]; exact hb')
      (by rw [c_abc _ _ _ _ hx]; exact hx') hv
    rw [a_abc _ _ _ _ hA] at hm
    simp only [BinOp.compare, VM.equals_plain hv]
    exact .move hm (by rw [flag rfl]; simp)
  · refine (VM.does_lt hr hi (opcode_abc _ _ _ _) (by rw [b_abc _ _ _ _ hb]; exact hb')
      (by rw [c_abc _ _ _ _ hx]; exact hx') hv hw).mono fun r m' e => ?_
    rw [e, a_abc _ _ _ _ hA, flag rfl]
    rfl
  · refine (VM.does_le hr hi (opcode_abc _ _ _ _) (by rw [b_abc _ _ _ _ hb]; exact hb')
      (by rw [c_abc _ _ _ _ hx]; exact hx') hv hw).mono fun r m' e => ?_
    rw [e, a_abc _ _ _ _ hA, flag rfl]
    rfl
  · -- `>` is `<` with the operands swapped
    refine (VM.does_lt hr hi (opcode_abc _ _ _ _) (by rw [b_abc _ _ _ _ hx]; exact hx')
      (by rw [c_abc _ _ _ _ hb]; exact hb') hw hv).mono fun r m' e => ?_
    rw [e, a_abc _ _ _ _ hA, flag rfl]
    rfl
  · refine (VM.does_le hr hi (opcode_abc _ _ _ _) (by rw [b_abc _ _ _ _ hx]; exact hx')
      (by rw [c_abc _ _ _ _ hb]; exact hb') hw hv).mono fun r m' e => ?_
    rw [e, a_abc _ _ _ _ hA, flag rfl]
    rfl

/-- The value of a test, loaded into `a`: a jump over the load of `false` is taken when the test
holds (the instruction at `pc₀ + 1` is reached), and either load lands at the end. -/
theorem does_loadTest {lc : Closure} {m₀ m₁ : Machine} {a : Nat} (pc₀ : Nat) {s : Bool} (hk : Kept a m₀ m₁)
    (hr : m₁.Runs lc) (hpc : m₁.frame.pc = pc₀ + 1 + (if s then 1 else 0))
    (hj : ∃ j, lc.proto.code[pc₀ + 1]? = some j ∧ j.opcode = .jmp ∧ j.a = 0 ∧ j.sbx = 1)
    (hf : lc.proto.code[pc₀ + 2]? = some (abc .loadBool a 0 1))
    (ht : lc.proto.code[pc₀ + 3]? = some (abc .loadBool a 1 0)) (ha : a ≤ maxA) :
    VM.Does m₁ (.ok (Value.bool !s)) (Lands a (pc₀ + 4) m₀) := by
  cases s with
  | true =>
    -- the test failed: `false`, skipping the other load
    simp only [if_true] at hpc
    rw [show pc₀ + 2 = m₁.frame.pc by omega] at hf
    have hm := VM.moves_loadBool_skip hr hf (opcode_abc _ _ _ _) (by rw [c_abc _ _ _ _ (by decide)]; decide)
    rw [a_abc _ _ _ _ ha, b_abc _ _ _ _ (by decide)] at hm
    exact .move hm (((hk.trans (.write (Nat.le_refl a))).trans .fetched).lands (by simp [hpc]) (by simp))
  | false =>
    -- the test held: over the load of `false` to the load of `true`
    simp only [Bool.false_eq_true, if_false, Nat.add_zero] at hpc
    obtain ⟨j, hj, hjo, hja, hjs⟩ := hj
    rw [← hpc] at hj
    have hm₁ := VM.moves_jmp hr hj hjo hja (t := pc₀ + 3) (by rw [hjs, hpc]; push_cast; omega)
    have hk₁ : Kept a m₀ { m₁ with frame := { m₁.frame with pc := pc₀ + 3 } } := hk.trans (.setPc _)
    rw [show pc₀ + 3 = ({ m₁ with frame := { m₁.frame with pc := pc₀ + 3 } } : Machine).frame.pc
      from rfl] at ht
    have hm₂ := VM.moves_loadBool (((Machine.Rest.refl _).setPc _).runs hr) ht
      (opcode_abc _ _ _ _) (c_abc _ _ _ _ (by decide))
    rw [a_abc _ _ _ _ ha, b_abc _ _ _ _ (by decide)] at hm₂
    exact .prepend (.single hm₁) (.move hm₂ ((hk₁.trans (.write (Nat.le_refl a))).lands
      (by simp) (by simp)))

/-- A comparison as a value: its operands, the test, a jump over the load of `false`, and the
two loads of a boolean. -/
theorem compare_evaluates {opr : BinOp} {lhsOp rhsOp : CompileM Operand}
    {compileLhs compileRhs : Nat → CompileM Unit} {o₁ o₂ : Except Fault Value} {line : Nat}
    (hop : opr = .eq ∨ opr = .ne ∨ opr = .lt ∨ opr = .le ∨ opr = .gt ∨ opr = .ge)
    (hl : EvalPart σ isLocal lhsOp compileLhs o₁) (hr : EvalPart σ isLocal rhsOp compileRhs o₂) :
    Evaluates σ isLocal
      (fun a => compareWith opr (operandsWith lhsOp compileLhs rhsOp compileRhs a line) a false line)
      (o₁ >>= fun v => o₂ >>= fun w => (opr.compare call v w).map .bool) := by
  intro a c c' ht h
  obtain ⟨⟨b, x⟩, c₁, h₁, h₂⟩ := run_bind_ok h
  obtain ⟨hs₁, he₁, hrun⟩ := operandsWith_does hl hr ht h₁
  split at h₂
  rename_i b₀ x₀ hpair
  obtain ⟨rfl, rfl⟩ := Prod.mk.inj hpair
  split at h₂
  rename_i code b' x' heq
  simp only [Bool.false_eq_true, if_false] at h₂
  obtain ⟨u, c₂, h₃, h₄⟩ := run_bind_ok h₂
  obtain ⟨u, c₃, h₅, h₆⟩ := run_bind_ok h₄
  obtain ⟨u, c₄, h₇, h₈⟩ := run_bind_ok h₆
  obtain ⟨hfit, rfl⟩ := emitABC_spec h₃
  obtain ⟨fs₃, h₅', rfl⟩ := run_updateFs h₅
  obtain ⟨j, rfl, hjo, hja, hjs⟩ := FuncState.emitAsBx_jmp h₅' (by decide) (by decide)
  obtain ⟨fs₄, h₇', rfl⟩ := run_updateFs h₇
  obtain ⟨fs₅, h₈', rfl⟩ := run_updateFs h₈
  simp only [FuncState.emitLoadBool, Bool.false_eq_true, if_false, if_true] at h₇' h₈'
  obtain ⟨hfit₄, rfl⟩ := FuncState.emitABC_ok h₇'
  obtain ⟨hfit₅, rfl⟩ := FuncState.emitABC_ok h₈'
  obtain ⟨-, hbx⟩ := compareOperands_spec heq
  have hfit' : (if (opr == .ne) = true then 0 else 1) ≤ maxA ∧ b ≤ maxBC ∧ x ≤ maxBC := by
    refine ⟨hfit.1, ?_⟩
    rcases hbx with ⟨rfl, rfl⟩ | ⟨rfl, rfl⟩
    · exact hfit.2
    · exact ⟨hfit.2.2, hfit.2.1⟩
  refine ⟨hs₁.emit'.emit'.emit'.emit', fun lc m hpl hr' hpc henv => ?_⟩
  have hle := he₁.size_le
  refine hrun lc m (hpl.earlier ((((FuncState.Settles.emit' _ _ _).trans (.emit' _ _ _)).trans
    (.emit' _ _ _)).trans (.emit' _ _ _)) (Nat.le_refl _)) hr' hpc henv
    fun v w m' hpc' hb hx hk hv hw => ?_
  have hi : lc.proto.code[c₁.fs.code.size]? =
      some (abc code (if (opr == .ne) = true then 0 else 1) b' x') :=
    hpl.at (fun r hr => hs₁.pending r hr) hle (by simp only [FuncState.emit'_code, Array.getElem?_push, Array.size_push, Nat.add_assoc]; simp)
  rw [← hpc'] at hi
  refine (does_cmp call hop (hk.2.runs hr') heq hi hfit' hb hx hv hw).map
    fun r m'' _ e => ?_
  -- the test skips the jump exactly when the comparison fails
  have hflag : (((if (opr == .ne) = true then 0 else 1) != 0) != (opr == .ne)) = true := by
    cases (opr == .ne) <;> rfl
  rw [hflag] at e
  subst e
  have hl := does_loadTest (s := !r) c₁.fs.code.size (hk.trans (.skip (r != true)))
    (((hk.2.trans Machine.Rest.fetched).skipIf _).runs hr')
    (by simp only [Machine.fetched, Frame.pc_skipIf, hpc']; cases r <;> rfl)
    ⟨j, hpl.at (fun r hr => hs₁.pending r hr) (by omega) (by simp only [FuncState.emit'_code, Array.getElem?_push, Array.size_push, Nat.add_assoc]; simp), hjo,
      hja, hjs⟩
    (hpl.at (fun r hr => hs₁.pending r hr) (by omega) (by simp only [FuncState.emit'_code, Array.getElem?_push, Array.size_push, Nat.add_assoc]; simp))
    (hpl.at (fun r hr => hs₁.pending r hr) (by omega) (by simp only [FuncState.emit'_code, Array.getElem?_push, Array.size_push, Nat.add_assoc]; simp)) hfit₄.1
  rw [Bool.not_not] at hl
  exact hl.mono fun _ _ h' => by simpa using h'

/-! ## Unary operators, `and` and `or` -/

/-- A unary operator: its operand into a temporary above `a`, given back, then one instruction
from the temporary into `a`. -/
theorem unop_evaluates {opu : UnOp} (hev : Evaluates σ isLocal compile o)
    (hplain : ∀ v, o = .ok v → v.isTable = false) :
    Evaluates σ isLocal (fun a => do
        let b ← alloc line
        compile b
        free
        emitABC (unopOpcode opu) a b 0 line)
      (o >>= fun v => (VM.unary call opu v).outcome) := by
  intro a c c' ht h
  obtain ⟨b, c₁, h₁, h₂⟩ := run_bind_ok h
  obtain ⟨-, -, hk₁, hcode₁⟩ := alloc_spec h₁
  obtain ⟨rfl, hab, ht₁, hs₁⟩ := ht.alloc h₁
  obtain ⟨u, c₂, h₃, h₄⟩ := run_bind_ok h₂
  obtain ⟨hs₂, hrun⟩ := hev _ c₁ c₂ ht₁ h₃
  obtain ⟨u, c₃, h₅, h₆⟩ := run_bind_ok h₄
  obtain ⟨fs₃, hf, rfl⟩ := run_updateFs h₅
  obtain ⟨-, rfl⟩ := FuncState.freeReg_ok hf
  obtain ⟨hfit, rfl⟩ := emitABC_spec h₆
  have hs₃ : Sealed c₂ { c₂ with fs := { c₂.fs with usedRegs := c₂.fs.usedRegs - 1 } } :=
    .of_eq rfl rfl rfl rfl hs₂.settled
  refine ⟨(hs₁.trans (hs₂.trans hs₃)).emit', fun lc m hpl hr hpc henv => ?_⟩
  have hi := hpl.last (.refl _) (Nat.le_trans hs₁.settles.size hs₂.settles.size) hs₂.settled
  rw [← hcode₁] at hpc
  refine (hrun lc m (hpl.earlier (hs₃.settles.trans (.emit' _ _ _)) (by rw [hcode₁])) hr hpc
    (henv.keep (FuncState.slotOf_of_unmark hk₁.actives) fun _ _ => rfl)).bind
    fun v m₁ hv hl => ?_
  -- the operand is in the temporary, above `a`
  have hk : Kept a m m₁ := (Kept.of_lands hl).mono (Nat.le_of_lt hab)
  have hr₁ := hk.2.runs hr
  have hend : m₁.frame.pc + 1 = c₂.fs.code.size + 1 := by rw [hl.1]
  rw [← hl.1] at hi
  have hx : (m₁.frame.reg (abc (unopOpcode opu) a c.fs.usedRegs 0).b).isTable = false := by
    rw [b_abc _ _ _ _ hfit.2.1, hl.2.1]
    exact hplain v hv
  cases opu with
  | neg =>
    have hd := VM.does_unary hr₁ hi call (.inl (opcode_abc _ _ _ _)) hx
    rw [opcode_abc, b_abc _ _ _ _ hfit.2.1, a_abc _ _ _ _ hfit.1, hl.2.1] at hd
    exact hd.mono fun w m' e => e ▸ hk.lands_write (by simpa using hend)
  | bnot =>
    have hd := VM.does_unary hr₁ hi call (.inr (opcode_abc _ _ _ _)) hx
    rw [opcode_abc, b_abc _ _ _ _ hfit.2.1, a_abc _ _ _ _ hfit.1, hl.2.1] at hd
    exact hd.mono fun w m' e => e ▸ hk.lands_write (by simpa using hend)
  | len =>
    have hd := VM.does_len hr₁ hi call (opcode_abc _ _ _ _) hx
    rw [b_abc _ _ _ _ hfit.2.1, a_abc _ _ _ _ hfit.1, hl.2.1] at hd
    exact hd.mono fun w m' e => e ▸ hk.lands_write (by simpa using hend)
  | not =>
    have hm := VM.moves_not hr₁ hi (opcode_abc _ _ _ _)
    rw [b_abc _ _ _ _ hfit.2.1, a_abc _ _ _ _ hfit.1, hl.2.1] at hm
    exact .move hm (hk.lands_write (by simpa using hend))

variable {isOr : Bool}

/-- The test of the left operand of `and` (C = 0) or `or` (C = 1). When the operand decides
(its truth is `isOr`) it is left in `a` and the code goes on at its end, where the jump over
the right operand stands; otherwise the code skips that jump. -/
theorem testInto_does (hp : EvalPart σ isLocal op compile o) (ht : Admits isLocal a c)
    (h : (testInto op compile a (if isOr then 1 else 0) line).run c = .ok ((), c')) :
    Sealed c c' ∧
    ∀ lc m, Placed lc.proto c'.fs c.fs.code.size → m.Runs lc → m.frame.pc = c.fs.code.size →
      Env σ isLocal c.fs m.frame → VM.Does m o fun x m' => Kept a m m' ∧
        if x.isTruthy = isOr then m'.frame.reg a = x ∧ m'.frame.pc = c'.fs.code.size
        else m'.frame.pc = c'.fs.code.size + 1 := by
  obtain ⟨y, c₁, h₁, h₂⟩ := run_bind_ok h
  obtain ⟨hs₁, hq, ht₁, hread⟩ := hp.classify ht h₁
  have hflag : ((if isOr then 1 else 0) != 0) = isOr := by cases isOr <;> rfl
  split at h₂
  · -- a local: tested in place, and copied to `a` when it decides
    rename_i r
    obtain ⟨hfit, rfl⟩ := emitABC_spec h₂
    have hslot : r ∈ c.fs.slots := (hp.classifies c c₁ _ h₁).2
    obtain ⟨-, v, rfl, hrd⟩ := hread r rfl
    refine ⟨hs₁.emit', fun lc m hpl hr hpc henv => ?_⟩
    have hi := hpl.last (.refl _) hs₁.settles.size hs₁.settled
    rw [hq.code, ← hpc] at hi
    have hv := (hrd lc.proto m.frame hpl.constants henv).reg_eq (ht.slot_lt hslot)
    have hm := VM.moves_testSet hr hi (opcode_abc _ _ _ _)
    rw [a_abc _ _ _ _ hfit.1, b_abc _ _ _ _ hfit.2.1, c_abc _ _ _ _ hfit.2.2, hv, hflag] at hm
    refine .move hm ?_
    by_cases hd : v.isTruthy = isOr
    · simp only [hd, beq_self_eq_true, if_true]
      exact ⟨.write (Nat.le_refl a), by simp [Frame.reg_setReg],
        by simp [hpc, hq.code]⟩
    · simp only [hd, beq_iff_eq, if_false]
      exact ⟨⟨fun _ _ => rfl, Machine.Rest.fetched.setPc _⟩, by simp [hpc, hq.code]⟩
  · -- anything else: evaluated into `a`, then tested there
    obtain ⟨u, c₂, h₃, h₄⟩ := run_bind_ok h₂
    obtain ⟨hs₂, hrun⟩ := hp.evaluates a c₁ c₂ ht₁ h₃
    obtain ⟨fs', h₅, rfl⟩ := run_updateFs h₄
    obtain ⟨hfit, rfl⟩ := FuncState.emitABC_ok h₅
    refine ⟨(hs₁.trans hs₂).emit', fun lc m hpl hr hpc henv => ?_⟩
    have hi := hpl.last (.refl _) (Nat.le_trans hs₁.settles.size hs₂.settles.size) hs₂.settled
    rw [← hq.code] at hpc
    refine (hrun lc m (hpl.earlier (.emit' _ _ _) (by rw [hq.code])) hr hpc
      (henv.keep (FuncState.slotOf_of_unmark hq.actives) fun _ _ => rfl)).extend
      fun x m₁ _ hl => ?_
    rw [← hl.1] at hi
    have hm := VM.moves_test ((Kept.of_lands hl).2.runs hr) hi (opcode_abc _ _ _ _)
    rw [a_abc _ _ _ _ hfit.1, c_abc _ _ _ _ hfit.2.2, hl.2.1, hflag] at hm
    refine .move hm ⟨(Kept.of_lands hl).trans (.skip _), ?_⟩
    by_cases hd : x.isTruthy = isOr
    · simp [hd, hl.1, hl.2.1]
    · simp [hd, hl.1]

/-- `and` and `or` into `a`: the test of the left operand, a jump over the right operand taken
when the left one decides, and the right operand into `a`; the jump is patched to the end. -/
theorem logical_evaluates {lhsOp : CompileM Operand} {compileLhs compileRhs : Nat → CompileM Unit}
    {o₁ o₂ : Except Fault Value} (hl : EvalPart σ isLocal lhsOp compileLhs o₁)
    (hr : Evaluates σ isLocal compileRhs o₂) (hri : Into compileRhs) :
    Evaluates σ isLocal (fun a => logicalWith isOr lhsOp compileLhs compileRhs a line)
      (o₁ >>= fun x => if x.isTruthy = isOr then .ok x else o₂) := by
  intro a c c' ht h
  obtain ⟨u, c₁, h₁, h₂⟩ := run_bind_ok h
  obtain ⟨hs₁, hrun₁⟩ := testInto_does hl ht h₁
  have he₁ := testInto_exprOk hl.classifies hl.into ht.taken h₁
  obtain ⟨j, c₂, h₃, h₄⟩ := run_bind_ok h₂
  obtain ⟨hj, he₂, hop₂⟩ := emitJump_jmp (a := a) h₃
  obtain ⟨-, -, bx, hc₂⟩ := emitJump_spec h₃
  subst hj
  have hset₂ : c₁.fs.Settles c₂.fs := hc₂ ▸ .pending_push _ _ _
  have hsize₂ : c₂.fs.code.size = c₁.fs.code.size + 1 := by rw [hc₂]; simp
  have hpend₂ : c₂.fs.pending = c₁.fs.code.size :: c₁.fs.pending := by rw [hc₂]
  -- the jump is the one position pending while the right operand is compiled
  have ht₂ : Admits isLocal a c₂ := (ht.exprOk he₁ hs₁).keep he₂.toKeeps he₂.usedRegs (by
    intro q hq
    rw [hpend₂] at hq
    rw [hsize₂]
    rcases List.mem_cons.mp hq with rfl | hq
    · omega
    · have := hs₁.settled q hq
      omega)
  obtain ⟨u, c₃, h₅, h₆⟩ := run_bind_ok h₄
  obtain ⟨hs₃, hrun₃⟩ := hr a c₂ c₃ ht₂ h₅
  obtain ⟨t, c₄, h₇, h₈⟩ := run_bind_ok h₆
  obtain ⟨rfl, rfl⟩ := pc_spec h₇
  obtain ⟨fs₅, h₉, rfl⟩ := run_updateFs h₈
  have hsize₅ : fs₅.code.size = c₃.fs.code.size := by
    obtain ⟨-, rfl⟩ := FuncState.patchJump_eq h₉
    simp
  have hle₁ := hs₁.settles.size
  refine ⟨⟨((hs₁.settles.trans hset₂).trans hs₃.settles).patch (.inl hle₁) h₉, fun q hq => ?_,
    fun q hq => ?_, ?_⟩, fun lc m hpl hr' hpc henv => ?_⟩
  · -- nothing is left pending: the jump is patched, and the right operand's code is sealed
    obtain ⟨-, rfl⟩ := FuncState.patchJump_eq h₉
    obtain ⟨hq₃, hne⟩ := List.mem_filter.mp hq
    have h₂q := hs₃.settles.pending q (hs₃.pending q hq₃) hq₃
    rw [hpend₂] at h₂q
    rcases List.mem_cons.mp h₂q with rfl | h₁q
    · simp at hne
    · exact hs₁.pending q h₁q
  · -- what was pending before stays so: the one jump patched is this code's own
    obtain ⟨-, rfl⟩ := FuncState.patchJump_eq h₉
    have hlt := ht.settled q hq
    refine List.mem_filter.mpr ⟨hs₃.kept q ?_, by simp; omega⟩
    rw [hpend₂]
    exact List.mem_cons_of_mem _ (hs₁.kept q hq)
  · rw [FuncState.patchJump_scopes h₉, hs₃.scopes, hc₂]
    exact hs₁.scopes
  obtain ⟨i, hi, hio, his⟩ := hpl.patched (.refl _) h₉ hle₁
    (by rw [hs₃.settles.opcode _ (by omega)]; exact hop₂)
  -- the right operand's code leaves the jump as it was written, closing nothing
  have hia : i.a = 0 := by
    have hj₃ : c₃.fs.code[c₁.fs.code.size]? = some (abx .jmp 0 bx) := by
      rw [(hri a c₂ c₃ ht₂.taken h₅).old _ (by omega), hc₂]
      simp
    have e := hpl.patched_as (.refl _) h₉ hle₁ hj₃
    rw [hi, Option.some.injEq] at e
    rw [e, a_setSbx, a_abx _ _ (by decide)]
  have hpl₁ : Placed lc.proto c₁.fs c.fs.code.size :=
    hpl.earlier ((hset₂.trans hs₃.settles).patch (.inl (Nat.le_refl _)) h₉) (Nat.le_refl _)
  have hpl₃ : Placed lc.proto c₃.fs c₂.fs.code.size :=
    (hpl.earlier (.refl _) (by omega)).of_patch h₉ (by omega)
  refine (hrun₁ lc m hpl₁ hr' hpc henv).bind fun x m₁ _ ⟨hk₁, hdec⟩ => ?_
  have hr₁ := hk₁.2.runs hr'
  by_cases hd : x.isTruthy = isOr
  · -- the left operand decides: the jump over the right operand
    rw [if_pos hd] at hdec
    simp only [hd, if_true]
    rw [← hdec.2] at hi
    have hm := VM.moves_jmp hr₁ hi hio hia (t := c₃.fs.code.size) (by rw [hdec.2]; exact his)
    exact .move hm ((hk₁.trans (.setPc _)).lands hsize₅.symm hdec.1)
  · -- past the jump, the right operand into `a`
    rw [if_neg hd] at hdec
    simp only [hd, if_false]
    refine (hrun₃ lc m₁ hpl₃ hr₁ (by rw [hdec, hsize₂]) (hk₁.env henv ht.above
      (FuncState.slotOf_of_unmark (he₁.trans he₂).toKeeps.actives))).mono fun w m₂ hl₂ => ?_
    exact (hk₁.trans (Kept.of_lands hl₂)).lands (by rw [hl₂.1, hsize₅]) hl₂.2.1

end Compiler

end LuaBytecode
