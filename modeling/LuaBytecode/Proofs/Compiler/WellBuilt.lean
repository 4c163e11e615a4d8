import LuaBytecode.Proofs.Compiler.CodeShape
import LuaBytecode.Proofs.Compiler.Lexical
/-!
# Compiler steps keep the code well formed

The compiler writes its code a step at a time, and every step keeps the stack of functions
being written `WellBuilt`: the code of the current function is sound (`FuncState.CodeOk`) and
asks a known `Demand` of the next instruction, every function around it is sound and waits
asking nothing, and every prototype finished so far is well formed, with all those nested in it.

A step also `Extends` the state it starts from: the same functions are being written, and the
code of each continues as it was. So a fact about an earlier state that only depends on what
was written then is still true later: a jump emitted earlier is still a jump (`Extends.jumpAt`),
a boundary at or before the end is still one (`Extends.boundary`), and an RK operand that named
a constant of the pool still does (`RK.mono`), since the pool only grows.

`Built d c c'` is both at once: `c'` is well built, asks `d`, and extends `c`. This module says
so for every primitive step of the compiler, run from a well-built state:

* register steps, scopes and the lookups of names leave all code alone (`FuncState.Framed`);
* an instruction is emitted only where it meets the demand, with RK operands naming constants
  of the pool (`emitABC_built`, `emitJump_built`, `emitLoadK_built`, ...);
* a jump is patched only to a boundary at or before the end (`patchJump_built`);
* `constOperand`, `classifyName` and `classify` yield operands that are registers of locals or
  constants of the pool (`ClassifiesRK`).
-/

namespace LuaBytecode

open Instruction

/-- No code at all is sound. -/
theorem CodeSound.empty : CodeSound #[] #[] #[] where
  lines := rfl
  first h := absurd h (by decide)
  link _ h := absurd h (by simp)
  jumps _ h := absurd h (by simp)
  consts _ h := absurd h (by simp)
  extraConst _ h := absurd h (by simp)
  pool := List.nodup_nil

namespace FuncState

variable {fs fs' : FuncState} {d : Demand}

/-- A function whose code so far is sound and asks `d` of the next instruction, and whose
finished nested prototypes are well formed. -/
structure Sound (d : Demand) (fs : FuncState) : Prop where
  code : fs.CodeOk
  demand : fs.demand = d
  protos : ∀ p ∈ fs.protos, p.Every Proto.WellFormed

theorem Sound.framed (h : fs.Sound d) (hf : Framed fs fs') : fs'.Sound d :=
  ⟨hf.codeOk h.code, hf.demand.trans h.demand, fun p hmem => h.protos p (hf.protos ▸ hmem)⟩

/-- A step that keeps the prototypes keeps them well formed. -/
theorem Sound.of_code {d' : Demand} (h : fs.Sound d) (hok : fs'.CodeOk) (hd : fs'.demand = d')
    (hp : fs'.protos = fs.protos) : fs'.Sound d' :=
  ⟨hok, hd, fun p hmem => h.protos p (hp ▸ hmem)⟩

/-- A function just started: no code, no constant, no register, no loop, no prototype. -/
theorem Sound.new (source : String) (line : Nat) (isVararg : Bool) :
    (FuncState.new source line isVararg).Sound .free where
  code := ⟨.empty, ⟨Nat.le_refl _, Nat.zero_le _, fun l hl => absurd hl (by simp [FuncState.new])⟩,
    fun lp hlp => absurd hlp (by simp [FuncState.new])⟩
  demand := rfl
  protos p hp := absurd hp (by simp [FuncState.new])

/-- The main chunk starts as a new function, with `_ENV` as its only upvalue. -/
theorem Sound.main (source : String) : (FuncState.main source).Sound .free :=
  (Sound.new source 0 true).framed (.of_regs rfl rfl rfl rfl rfl fun hr => ⟨hr.params, hr.top, hr.slots⟩)

/-- A prototype whose tree is well formed can be added. -/
theorem Sound.addProto {p : Proto} (h : fs.Sound d) (hp : p.Every Proto.WellFormed) :
    (fs.addProto p).1.Sound d where
  code := ⟨h.code.code, ⟨h.code.regs.params, h.code.regs.top, h.code.regs.slots⟩, h.code.breaks⟩
  demand := h.demand
  protos q hq := by
    rcases Array.mem_push.mp hq with hq | rfl
    · exact h.protos q hq
    · exact hp

/-- A sound function that asks nothing, closed by `return`, freezes into a well-formed prototype
whose nested prototypes are well formed too. -/
theorem Sound.finish {fs₁ : FuncState} {p : Proto} {line lastLine : Nat} (h : fs.Sound .free)
    (hr : fs.emitReturn 0 0 line = .ok fs₁) (hf : fs₁.finish lastLine = .ok p) :
    p.Every Proto.WellFormed := by
  obtain ⟨⟨-, hb, -⟩, rfl⟩ := emitABC_ok hr
  have hb' : word32 (0 + 1) = 1 := by simp [word32]
  rw [hb'] at hb hf
  unfold FuncState.finish at hf
  split at hf
  · cases hf
  cases hf
  refine .intro (h.code.code.wellFormed (i := abc .ret 0 1 0) (l := line) h.demand
    (opcode_abc' _ _ _ _) ?_ ?_ rfl rfl rfl ⟨Nat.le_max_right _ _, ?_⟩) fun q hq => h.protos q hq
  · simp [Demand.admits, readsTop_abc hb]
  · rw [constsBelow_abc rfl hb (by decide)]
    rfl
  · exact Nat.le_trans h.code.regs.params (Nat.le_max_left _ _)

theorem addLocal_top {name : String} {line slot : Nat} (h : fs.addLocal name line = .ok (fs', slot)) :
    fs'.usedRegs ≤ fs'.maxRegs := by
  simp only [addLocal] at h
  obtain ⟨⟨fs₁, r⟩, h₁, h₂⟩ := except_bind_ok h
  cases h₂
  obtain ⟨-, rfl, rfl⟩ := allocReg_ok h₁
  exact Nat.le_max_right _ _

/-- Marking a local captured keeps its register, and marking a loop keeps its breaks. -/
theorem captureLocal_framed {name : String} {slot : Nat}
    (h : fs.captureLocal name = some (fs', slot)) : Framed fs fs' := by
  have hslots := (captureLocal_spec [] h).1.slots
  unfold FuncState.captureLocal at h
  split at h
  · cases h
  · cases h
    refine ⟨rfl, rfl, rfl, rfl, fun hr => ⟨hr.params, hr.top, fun l hl => ?_⟩,
      fun lp hlp pc hpc => ?_⟩
    · have hmem : l.slot ∈ fs.slots := hslots ▸ slot_mem_slots hl
      obtain ⟨l₀, hl₀, he⟩ := List.mem_map.mp hmem
      rw [← he]
      exact hr.slots l₀ (Array.mem_toList_iff.mp hl₀)
    · obtain ⟨lp₀, hlp₀, rfl⟩ := Array.mem_map.mp hlp
      refine ⟨lp₀, hlp₀, ?_⟩
      split at hpc <;> exact hpc

theorem addUpvalue_framed {name : String} {src : UpvalSource} {line idx : Nat}
    (h : fs.addUpvalue name src line = .ok (fs', idx)) : Framed fs fs' := by
  obtain ⟨rfl, -⟩ := addUpvalue_ok h
  exact .of_regs rfl rfl rfl rfl rfl fun hr => ⟨hr.params, hr.top, hr.slots⟩

end FuncState

namespace Compiler

variable {α : Type} {c c' c₁ c₂ c₃ : Compiler} {d d' d₁ d₂ : Demand} {line j t x : Nat}

/-! ## The invariant and the order of states -/

/-- The stack of functions being written: the current one is sound and asks `d`; each one
around it is sound and waits, asking nothing, for the one nested in it. -/
structure WellBuilt (d : Demand) (c : Compiler) : Prop where
  fs : c.fs.Sound d
  enclosing : ∀ k (h : k < c.enclosing.size), c.enclosing[k].Sound .free

/-- `c'` extends `c`: the same functions are being written, and the code of each continues its
code in `c`. -/
structure Extends (c c' : Compiler) : Prop where
  size : c'.enclosing.size = c.enclosing.size
  fs : c.fs.Continues c'.fs
  enclosing : ∀ k (h : k < c.enclosing.size) (h' : k < c'.enclosing.size),
    c.enclosing[k].Continues c'.enclosing[k]

namespace Extends

theorem refl (c : Compiler) : Extends c c := ⟨rfl, .refl _, fun _ _ _ => .refl _⟩

theorem trans (h₁ : Extends c₁ c₂) (h₂ : Extends c₂ c₃) : Extends c₁ c₃ where
  size := h₂.size.trans h₁.size
  fs := h₁.fs.trans h₂.fs
  enclosing k h h' :=
    (h₁.enclosing k h (h₁.size ▸ h)).trans (h₂.enclosing k (h₁.size ▸ h) h')

theorem jumpAt (he : Extends c c') (h : c.fs.JumpAt j) : c'.fs.JumpAt j := h.grow he.fs

theorem boundary (he : Extends c c') (h : Boundary c.fs.code t) (ht : t ≤ c.fs.code.size) :
    Boundary c'.fs.code t :=
  h.grow ht he.fs

end Extends

/-- `c'` is well built, asks `d`, and extends `c`. -/
structure Built (d : Demand) (c c' : Compiler) : Prop where
  wb : WellBuilt d c'
  ext : Extends c c'

theorem Built.refl (h : WellBuilt d c) : Built d c c := ⟨h, .refl c⟩

theorem Built.trans (h₁ : Built d₁ c₁ c₂) (h₂ : Built d₂ c₂ c₃) : Built d₂ c₁ c₃ :=
  ⟨h₂.wb, h₁.ext.trans h₂.ext⟩

/-- An RK operand that names a constant names one of the pool of the function being written. -/
def RK (c : Compiler) (x : Nat) : Prop := rkBelow c.fs.constants.size x = true

theorem RK.mono (h : c.RK x) (he : Extends c c') : c'.RK x := rkBelow_mono he.fs.constants h

theorem RK.of_lt (hx : x < 256) : c.RK x := rkBelow_of_lt hx

/-! ## Steps on the function being written -/

/-- A step on the function being written that keeps it sound and continues its code. -/
theorem WellBuilt.setFs (hw : WellBuilt d c) {fs : FuncState} (hs : fs.Sound d')
    (hg : c.fs.Continues fs) : Built d' c { c with fs } :=
  ⟨⟨hs, hw.enclosing⟩, ⟨rfl, hg, fun _ _ _ => .refl _⟩⟩

/-- A step on the function being written that leaves its code alone. -/
theorem WellBuilt.framed (hw : WellBuilt d c) {fs : FuncState} (hf : c.fs.Framed fs) :
    Built d c { c with fs } :=
  hw.setFs (hw.fs.framed hf) hf.continues

theorem alloc_built {r : Nat} (hw : WellBuilt d c) (h : (alloc line).run c = .ok (r, c')) :
    Built d c c' ∧ r < 255 := by
  obtain ⟨fs', h₁, rfl⟩ := run_onFs h
  exact ⟨hw.framed (FuncState.allocReg_framed h₁), (FuncState.allocReg_ok h₁).2.1 ▸
    (FuncState.allocReg_ok h₁).1⟩

theorem free_built (hw : WellBuilt d c) (h : free.run c = .ok ((), c')) : Built d c c' := by
  obtain ⟨fs', h₁, rfl⟩ := run_updateFs h
  exact hw.framed (FuncState.freeReg_framed h₁)

/-- Giving registers back: at most the top, which is at most 255, are given. -/
theorem freeN_built {n : Nat} (hw : WellBuilt d c) (h : (freeN n).run c = .ok ((), c')) :
    Built d c c' ∧ n ≤ 255 := by
  obtain ⟨fs', h₁, rfl⟩ := run_updateFs h
  exact ⟨hw.framed (FuncState.freeRegs_framed h₁),
    Nat.le_trans (FuncState.freeRegs_ok h₁).1 hw.fs.code.regs.top⟩

/-- At the end of code that waits for no `extraArg` is a boundary. -/
theorem WellBuilt.boundary_size (hw : WellBuilt d c) (hd : d ≠ .extra) :
    Boundary c.fs.code c.fs.code.size :=
  Boundary.size (by rw [← FuncState.demand, hw.fs.demand]; exact hd)

/-! ## Emitting and patching -/

/-- Emitting an ABC instruction that meets the demand, with RK operands naming constants of the
pool. -/
theorem emitABC_built (op : Opcode) {a b x : Nat} (hw : WellBuilt d c) (hl : op.layout = .abc)
    (hd : b ≤ maxBC → x ≤ maxBC → d.admits (abc op a b x) = true)
    (hd' : b ≤ maxBC → x ≤ maxBC → (abc op a b x).demand = d')
    (hb : op.bArg = .regOrConst → c.RK b) (hx : op.cArg = .regOrConst → c.RK x)
    (h : (emitABC op a b x line).run c = .ok ((), c')) : Built d' c c' := by
  obtain ⟨fs', h₁, rfl⟩ := run_updateFs h
  obtain ⟨hok, hdem, hg, hbf, hxf⟩ :=
    hw.fs.code.emitABC hl (by rw [hw.fs.demand]; exact hd) hb hx h₁
  obtain ⟨-, rfl⟩ := FuncState.emitABC_ok h₁
  exact hw.setFs ⟨hok, hdem.trans (hd' hbf hxf), hw.fs.protos⟩ hg

/-- Emitting a jump to be patched, where the demand allows one: the function then asks
nothing, and the jump is the last instruction. -/
theorem emitJump_built {op : Opcode} {a j : Nat} (hw : WellBuilt d c) (hop : op.isJump = true)
    (hd : d ≠ .top ∧ d ≠ .extra ∧ (d = .jump → op = .jmp))
    (h : (emitJump op a line).run c = .ok (j, c')) :
    Built .free c c' ∧ j = c.fs.code.size ∧ c'.fs.JumpAt j ∧ c'.fs.code.size = j + 1 := by
  obtain ⟨fs', h₁, rfl⟩ := run_onFs h
  obtain ⟨hok, hdem, hg, rfl, hj, hsize⟩ :=
    hw.fs.code.emitJump hop (by rw [hw.fs.demand]; exact hd) h₁
  obtain ⟨-, -, bx, rfl⟩ := FuncState.emitJump_ok h₁
  exact ⟨hw.setFs ⟨hok, hdem, hw.fs.protos⟩ hg, rfl, hj, hsize⟩

/-- Pointing a jump at a boundary at or before the end, from a function that asks nothing. -/
theorem patchJump_built {target : Nat} (hw : WellBuilt .free c) (hj : c.fs.JumpAt j)
    (ht : target ≤ c.fs.code.size) (hb : Boundary c.fs.code target)
    (h : (patchJump j target).run c = .ok ((), c')) : Built .free c c' := by
  obtain ⟨fs', h₁, rfl⟩ := run_updateFs h
  obtain ⟨hok, hdem, hg⟩ := hw.fs.code.patchJump hw.fs.demand hj ht hb h₁
  obtain ⟨-, rfl⟩ := FuncState.patchJump_eq h₁
  exact hw.setFs ⟨hok, hdem, hw.fs.protos⟩ hg

/-- Pointing jumps at the end of the code. -/
theorem patchHere_built (hw : WellBuilt .free c) (hj : c.fs.JumpAt j)
    (h : (do patchJump j (← pc)).run c = .ok ((), c')) : Built .free c c' := by
  obtain ⟨t, c₁, h₁, h₂⟩ := run_bind_ok h
  obtain ⟨rfl, rfl⟩ := pc_spec h₁
  exact patchJump_built hw hj (Nat.le_refl _) (hw.boundary_size (by decide)) h₂

theorem patchAll_built {target : Nat} :
    ∀ {jumps : List Nat} {c c' : Compiler}, WellBuilt .free c → (∀ j ∈ jumps, c.fs.JumpAt j) →
      target ≤ c.fs.code.size → Boundary c.fs.code target →
        (patchAll jumps target).run c = .ok ((), c') → Built .free c c'
  | [], _, _, hw, _, _, _, h => by
    obtain ⟨-, rfl⟩ := run_pure_ok h
    exact .refl hw
  | j :: rest, c, c', hw, hj, ht, hb, h => by
    obtain ⟨u, c₁, h₁, h₂⟩ := run_bind_ok h
    have hb₁ := patchJump_built hw (hj j (.head _)) ht hb h₁
    have hsize : c.fs.code.size ≤ c₁.fs.code.size := hb₁.ext.fs.size
    exact hb₁.trans (patchAll_built hb₁.wb (fun j' hj' => hb₁.ext.jumpAt (hj j' (.tail _ hj')))
      (Nat.le_trans ht hsize) (hb₁.ext.boundary hb ht) h₂)

/-! ## Constants -/

theorem addConstant_built {k : Constant} {idx : Nat} (hw : WellBuilt d c)
    (h : (addConstant k).run c = .ok (idx, c')) : Built d c c' ∧ idx < c'.fs.constants.size := by
  obtain ⟨fs', h₁, rfl⟩ := run_onFs h
  obtain ⟨hok, hidx, hdem, hg⟩ := hw.fs.code.addConstant k
  have e : c.fs.addConstant k = (fs', idx) := Except.ok.inj h₁
  rw [e] at hok hidx hdem hg
  have hp : fs'.protos = c.fs.protos := by
    have := FuncState.addConstant_fst_protos c.fs k
    rwa [e] at this
  exact ⟨hw.setFs ⟨hok, hdem.trans hw.fs.demand, fun p hmem => hw.fs.protos p (hp ▸ hmem)⟩ hg, hidx⟩

/-! ## Looking names up -/

/-- `c'` differs from `c` only where the soundness of code does not look: the same functions,
each `Framed`. -/
structure Frames (c c' : Compiler) : Prop where
  size : c'.enclosing.size = c.enclosing.size
  fs : c.fs.Framed c'.fs
  enclosing : ∀ k (h : k < c.enclosing.size) (h' : k < c'.enclosing.size),
    c.enclosing[k].Framed c'.enclosing[k]

namespace Frames

theorem refl (c : Compiler) : Frames c c := ⟨rfl, .refl _, fun _ _ _ => .refl _⟩

theorem trans (h₁ : Frames c₁ c₂) (h₂ : Frames c₂ c₃) : Frames c₁ c₃ where
  size := h₂.size.trans h₁.size
  fs := h₁.fs.trans h₂.fs
  enclosing k h h' := (h₁.enclosing k h (h₁.size ▸ h)).trans (h₂.enclosing k (h₁.size ▸ h) h')

theorem built (hf : Frames c c') (hw : WellBuilt d c) : Built d c c' where
  wb := ⟨hw.fs.framed hf.fs, fun k h' =>
    (hw.enclosing k (hf.size ▸ h')).framed (hf.enclosing k (hf.size ▸ h') h')⟩
  ext := ⟨hf.size, hf.fs.continues, fun k h h' => (hf.enclosing k h h').continues⟩

/-- A step on the function being written that leaves its code alone. -/
theorem setFs {fs : FuncState} (hf : c.fs.Framed fs) : Frames c { c with fs } :=
  ⟨rfl, hf, fun _ _ _ => .refl _⟩

/-- A step on one function around the one being written that leaves its code alone. -/
theorem setEnclosing {k : Nat} {fs : FuncState} (hk : k < c.enclosing.size)
    (hf : c.enclosing[k].Framed fs) : Frames c { c with enclosing := c.enclosing.set! k fs } where
  size := by simp
  fs := .refl _
  enclosing j hj hj' := by
    simp only [Array.set!_eq_setIfInBounds]
    rw [Array.getElem_setIfInBounds hj]
    split
    · subst_vars
      exact hf
    · exact .refl _

end Frames

/-- Capturing a name marks locals, loops and upvalues of the functions around the one being
written, and nothing of their code. -/
theorem capture_frames {name : String} :
    ∀ {level : Nat} {c c' : Compiler} {src : Option UpvalSource}, level ≤ c.enclosing.size →
      (capture name line level).run c = .ok (src, c') → Frames c c' ∧ c'.fs = c.fs
  | 0, c, c', src, _, h => by
    obtain ⟨rfl, rfl⟩ := run_pure_ok h
    exact ⟨.refl _, rfl⟩
  | level + 1, c, c', src, hl, h => by
    have hlt : level < c.enclosing.size := hl
    have hparent : c.enclosing.getD level default = c.enclosing[level] := by
      simp [Array.getD_eq_getD_getElem?, Array.getElem?_eq_getElem hlt]
    simp only [capture] at h
    have h₁ := run_get_bind h
    rw [hparent] at h₁
    split at h₁
    · -- the parent declares the local: it is marked captured
      rename_i parent slot hcap
      have h₂ := run_set_bind h₁
      obtain ⟨rfl, rfl⟩ := run_pure_ok h₂
      exact ⟨.setEnclosing hlt (FuncState.captureLocal_framed hcap), rfl⟩
    · split at h₁
      · obtain ⟨rfl, rfl⟩ := run_pure_ok h₁
        exact ⟨.refl _, rfl⟩
      · -- the parent gets the upvalue from further out
        obtain ⟨src', c₂, hrec, h₂⟩ := run_bind_ok h₁
        obtain ⟨hf₁, hfs₁⟩ := capture_frames (Nat.le_of_lt hlt) hrec
        split at h₂
        · have h₃ := run_get_bind h₂
          obtain ⟨p, c₅, hlift, h₄⟩ := run_bind_ok h₃
          obtain ⟨hadd, rfl⟩ := run_lift_ok hlift
          have h₅ := run_set_bind h₄
          obtain ⟨rfl, rfl⟩ := run_pure_ok h₅
          have hlt₂ : level < c₂.enclosing.size := hf₁.size ▸ hlt
          have hparent₂ : c₂.enclosing.getD level default = c₂.enclosing[level] := by
            simp [Array.getD_eq_getD_getElem?, Array.getElem?_eq_getElem hlt₂]
          rw [hparent₂] at hadd
          exact ⟨hf₁.trans (.setEnclosing hlt₂ (FuncState.addUpvalue_framed hadd)), hfs₁⟩
        · obtain ⟨rfl, rfl⟩ := run_pure_ok h₂
          exact ⟨hf₁, hfs₁⟩

theorem resolveUpvalue_frames {name : String} {x : Option Nat}
    (h : (resolveUpvalue name line).run c = .ok (x, c')) : Frames c c' := by
  simp only [resolveUpvalue] at h
  have h₁ := run_get_bind h
  split at h₁
  · obtain ⟨rfl, rfl⟩ := run_pure_ok h₁
    exact .refl _
  · have h₂ := run_get_bind h₁
    obtain ⟨src, c₄, hcap, h₃⟩ := run_bind_ok h₂
    obtain ⟨hf, -⟩ := capture_frames (Nat.le_refl _) hcap
    split at h₃
    · obtain ⟨idx, h₄, rfl⟩ := run_map_ok h₃
      obtain ⟨fs', hadd, rfl⟩ := run_onFs h₄
      exact hf.trans (.setFs (FuncState.addUpvalue_framed hadd))
    · obtain ⟨rfl, rfl⟩ := run_pure_ok h₃
      exact hf

/-! ## Operands -/

/-- An operand read in place is a register of a local or a constant of the pool. -/
def ClassifiesRK (op : CompileM Operand) : Prop :=
  ∀ d c c' o, WellBuilt d c → op.run c = .ok (o, c') →
    Built d c c' ∧ ∀ x, o.rk? = some x → c'.RK x

/-- A local's register can stand as an RK operand. -/
theorem WellBuilt.rk_slot {name : String} {slot : Nat} (hw : WellBuilt d c)
    (h : c.fs.slotOf name = some slot) : c.RK slot := by
  obtain ⟨l, hl, rfl⟩ := List.mem_map.mp (FuncState.slotOf_mem h)
  exact .of_lt (hw.fs.code.regs.slots l (Array.mem_toList_iff.mp hl))

theorem constOperand_classifiesRK (k : Constant) : ClassifiesRK (constOperand k) := by
  intro d c c' o hw h
  obtain ⟨idx, c₁, hk, h₁⟩ := run_bind_ok h
  obtain ⟨rfl, rfl⟩ := run_pure_ok h₁
  obtain ⟨hb, hidx⟩ := addConstant_built hw hk
  refine ⟨hb, fun x hx => ?_⟩
  split at hx
  · cases hx
    exact rkBelow_constOperand hidx ‹_›
  · cases hx

theorem classifyName_classifiesRK (name : String) (line : Nat) :
    ClassifiesRK (classifyName name line) := by
  intro d c c' o hw h
  simp only [classifyName] at h
  have h₁ := run_get_bind h
  split at h₁
  · rename_i slot hslot
    obtain ⟨rfl, rfl⟩ := run_pure_ok h₁
    exact ⟨.refl hw, fun x hx => by cases hx; exact hw.rk_slot hslot⟩
  · obtain ⟨x, c₂, hres, h₂⟩ := run_bind_ok h₁
    have hb := (resolveUpvalue_frames hres).built hw
    split at h₂
    · obtain ⟨rfl, rfl⟩ := run_pure_ok h₂
      exact ⟨hb, fun x hx => by cases hx⟩
    · obtain ⟨idx, c₃, hk, h₃⟩ := run_bind_ok h₂
      obtain ⟨rfl, rfl⟩ := run_pure_ok h₃
      exact ⟨hb.trans (addConstant_built hb.wb hk).1, fun x hx => by cases hx⟩

theorem classify_classifiesRK (e : Expr) : ClassifiesRK (classify e) := by
  unfold classify
  split
  · exact constOperand_classifiesRK _
  · exact classifyName_classifiesRK _ _
  · intro d c c' o hw h
    obtain ⟨rfl, rfl⟩ := run_pure_ok h
    exact ⟨.refl hw, fun x hx => by cases hx⟩

/-! ## The instructions the compiler emits -/

/-- Opcodes whose instruction neither tests, nor takes or leaves values up to top, nor waits
for an `extraArg`, nor skips the next one. -/
def plainOpcodes : List Opcode :=
  [.move, .getUpval, .getTabUp, .getTable, .setTabUp, .setUpval, .setTable, .newTable, .method,
    .add, .sub, .mul, .mod, .pow, .div, .idiv, .band, .bor, .bxor, .shl, .shr, .unm, .bnot, .not,
    .len, .concat, .loadNil, .tforCall]

theorem plain_layout {op : Opcode} (hop : op ∈ plainOpcodes) : op.layout = .abc := by
  revert hop
  cases op <;> simp [plainOpcodes, Opcode.layout]

/-- A plain instruction meets `free` and asks nothing. -/
theorem plain_abc {op : Opcode} {a b x : Nat} (hop : op ∈ plainOpcodes) (hb : b ≤ maxBC)
    (hx : x ≤ maxBC) : Demand.free.admits (abc op a b x) = true ∧ (abc op a b x).demand = .free := by
  revert hop
  cases op <;> simp [plainOpcodes, Demand.admits, demand_abc hb hx, readsTop_abc hb]

theorem emitPlain_built (op : Opcode) {a b x : Nat} (hw : WellBuilt .free c)
    (hop : op ∈ plainOpcodes) (hb : op.bArg = .regOrConst → c.RK b)
    (hx : op.cArg = .regOrConst → c.RK x) (h : (emitABC op a b x line).run c = .ok ((), c')) :
    Built .free c c' :=
  emitABC_built op hw (plain_layout hop) (fun hb hx => (plain_abc hop hb hx).1)
    (fun hb hx => (plain_abc hop hb hx).2) hb hx h

/-- What an instruction that takes values up to top when `b = 0` is emitted after: an
instruction that left them open, or one that asks nothing. -/
def topIf (b : Nat) : Demand := if b = 0 then .top else .free

/-- A call, tail call, `return` or `setlist` with B operand `b` meets `topIf b`. -/
theorem topIf_admits {op : Opcode} {a b x : Nat}
    (hop : op = .call ∨ op = .tailCall ∨ op = .ret ∨ op = .setList) (hb : b ≤ maxBC) :
    (topIf b).admits (abc op a b x) = true := by
  have hr : (abc op a b x).readsTop = _ := readsTop_abc hb
  unfold topIf
  rcases hop with rfl | rfl | rfl | rfl <;> split <;> simp_all [Demand.admits]

theorem word32_ofNat {n : Nat} (h : n < 4294967296) : FuncState.word32 (n : Int) = n := by
  unfold FuncState.word32
  omega

theorem topIf_succ {n : Nat} (h : n ≤ 255) : topIf (FuncState.word32 ((n : Int) + 1)) = .free := by
  rw [show ((n : Int) + 1) = ((n + 1 : Nat) : Int) by push_cast; rfl, word32_ofNat (by omega)]
  rfl

theorem emitMove_built {a b : Nat} (hw : WellBuilt .free c)
    (h : (updateFs (·.emitMove a b line)).run c = .ok ((), c')) : Built .free c c' :=
  emitPlain_built .move (x := 0) hw (by decide) (fun e => absurd e (by decide))
    (fun e => absurd e (by decide)) h

theorem emitLoadNil_built {a n : Nat} (hw : WellBuilt .free c)
    (h : (updateFs (·.emitLoadNil a n line)).run c = .ok ((), c')) : Built .free c c' := by
  obtain ⟨fs', h₁, rfl⟩ := run_updateFs h
  unfold FuncState.emitLoadNil at h₁
  split at h₁
  · cases h₁
  · exact emitPlain_built .loadNil (b := n - 1) (x := 0) hw (by decide)
      (fun e => absurd e (by decide)) (fun e => absurd e (by decide))
      (show (updateFs (·.emitABC .loadNil a (n - 1) 0 line)).run c = _ by
        simp only [updateFs, onFs, StateT.run_bind, StateT.run_get, pure_bind, h₁]; rfl)

theorem emitNewTable_built {a narr nrec : Nat} (hw : WellBuilt .free c)
    (h : (updateFs (·.emitNewTable a narr nrec line)).run c = .ok ((), c')) : Built .free c c' :=
  emitPlain_built .newTable hw (by decide) (fun e => absurd e (by decide))
    (fun e => absurd e (by decide)) h

/-- `loadbool`, which skips the next instruction when `skip`; it may itself be the one skipped. -/
theorem emitLoadBool_built {a : Nat} {b skip : Bool} (hw : WellBuilt d c)
    (hd : d = .free ∨ d = .skip) (h : (updateFs (·.emitLoadBool a b skip line)).run c = .ok ((), c')) :
    Built (if skip then .skip else .free) c c' := by
  refine emitABC_built .loadBool hw rfl (fun hb hx => ?_) (fun hb hx => ?_) (fun e => absurd e (by decide))
    (fun e => absurd e (by decide)) h
  · rcases hd with rfl | rfl <;> simp [Demand.admits, readsTop_abc hb, needsExtra_abc hx]
  · rw [demand_abc hb hx]
    cases skip <;> rfl

/-- A test of `R(a)`, which the next instruction, a `jmp`, must follow. -/
theorem emitTest_built {a x : Nat} (hw : WellBuilt .free c)
    (h : (updateFs (·.emitTest a x line)).run c = .ok ((), c')) : Built .jump c c' :=
  emitABC_built .test hw rfl (fun hb _ => by simp [Demand.admits, readsTop_abc hb])
    (fun hb hx => by rw [demand_abc hb hx]) (fun e => absurd e (by decide))
    (fun e => absurd e (by decide)) h

/-- `vararg`, which leaves the values open up to top when asked for all of them. -/
theorem emitVararg_built {a : Nat} {n : Int} (hw : WellBuilt .free c)
    (h : (updateFs (·.emitVararg a n line)).run c = .ok ((), c')) :
    Built (topIf (FuncState.word32 (n + 1))) c c' :=
  emitABC_built .vararg hw rfl (fun hb _ => by simp [Demand.admits, readsTop_abc hb])
    (fun hb hx => by rw [demand_abc hb hx]; rfl) (fun e => absurd e (by decide))
    (fun e => absurd e (by decide)) h

/-- A call: it takes its arguments up to top when B is 0, and leaves its results open when C
is 0. -/
theorem emitCall_built {a : Nat} {nArgs nResults : Int}
    (hw : WellBuilt (topIf (FuncState.word32 (nArgs + 1))) c)
    (h : (updateFs (·.emitCall a nArgs nResults line)).run c = .ok ((), c')) :
    Built (topIf (FuncState.word32 (nResults + 1))) c c' :=
  emitABC_built .call hw rfl (fun hb _ => topIf_admits (.inl rfl) hb)
    (fun hb hx => by rw [demand_abc hb hx]; rfl) (fun e => absurd e (by decide))
    (fun e => absurd e (by decide)) h

/-- A tail call leaves its results open. -/
theorem emitTailCall_built {a : Nat} {nArgs : Int}
    (hw : WellBuilt (topIf (FuncState.word32 (nArgs + 1))) c)
    (h : (updateFs (·.emitTailCall a nArgs line)).run c = .ok ((), c')) : Built .top c c' :=
  emitABC_built .tailCall hw rfl (fun hb _ => topIf_admits (.inr (.inl rfl)) hb)
    (fun hb hx => by rw [demand_abc hb hx]) (fun e => absurd e (by decide))
    (fun e => absurd e (by decide)) h

theorem emitReturn_built {a : Nat} {n : Int} (hw : WellBuilt (topIf (FuncState.word32 (n + 1))) c)
    (h : (updateFs (·.emitReturn a n line)).run c = .ok ((), c')) : Built .free c c' :=
  emitABC_built .ret hw rfl (fun hb _ => topIf_admits (.inr (.inr (.inl rfl))) hb)
    (fun hb hx => by rw [demand_abc hb hx]) (fun e => absurd e (by decide))
    (fun e => absurd e (by decide)) h

/-- `setlist` of batch `batch ≥ 1`: past 511 the batch follows in an `extraArg`. -/
theorem emitSetList_built {a n batch : Nat} (hw : WellBuilt (topIf n) c) (hbatch : 1 ≤ batch)
    (h : (updateFs (·.emitSetList a n batch line)).run c = .ok ((), c')) : Built .free c c' := by
  obtain ⟨fs', h₁, rfl⟩ := run_updateFs h
  unfold FuncState.emitSetList at h₁
  split at h₁
  · exact emitABC_built .setList hw rfl (fun hb _ => topIf_admits (.inr (.inr (.inr rfl))) hb)
      (fun hb hx => by rw [demand_abc hb hx]; simp only; rw [if_neg (by omega)])
      (fun e => absurd e (by decide))
      (fun e => absurd e (by decide))
      (show (updateFs (·.emitABC .setList a n batch line)).run c = _ by
        simp only [updateFs, onFs, StateT.run_bind, StateT.run_get, pure_bind, h₁]; rfl)
  · obtain ⟨fs₁, h₂, h₃⟩ := except_bind_ok h₁
    have hb₁ : Built .extra c { c with fs := fs₁ } := emitABC_built .setList (x := 0) hw rfl
      (fun hb _ => topIf_admits (.inr (.inr (.inr rfl))) hb) (fun hb hx => by rw [demand_abc hb hx]; rfl)
      (fun e => absurd e (by decide)) (fun e => absurd e (by decide))
      (show (updateFs (·.emitABC .setList a n 0 line)).run c = .ok ((), { c with fs := fs₁ }) by
        simp only [updateFs, onFs, StateT.run_bind, StateT.run_get, pure_bind, h₂]; rfl)
    -- the word before the `extraArg` is a `setlist`, not a `loadkx`
    have hx : fs₁.code.back?.map Instruction.opcode = some .loadKx → batch < fs₁.constants.size := by
      intro hl
      obtain ⟨-, rfl⟩ := FuncState.emitABC_ok h₂
      simp at hl
    obtain ⟨hok, hdem, hg⟩ := hb₁.wb.fs.code.emitAx hb₁.wb.fs.demand hx h₃
    have e := FuncState.emitAx_ok h₃
    subst e
    exact hb₁.trans (hb₁.wb.setFs ⟨hok, hdem, hb₁.wb.fs.protos⟩ hg)

/-! ## Steps that ask nothing before and after -/

/-- A step on the function being written that keeps its code sound, asking `d'`, continues it
and keeps its prototypes. -/
theorem updateFs_built {f : FuncState → Except Fault FuncState} (hw : WellBuilt d c)
    (hf : ∀ fs', f c.fs = .ok fs' →
      fs'.CodeOk ∧ fs'.demand = d' ∧ c.fs.Continues fs' ∧ fs'.protos = c.fs.protos)
    (h : (updateFs f).run c = .ok ((), c')) : Built d' c c' := by
  obtain ⟨fs', h₁, rfl⟩ := run_updateFs h
  obtain ⟨hok, hd, hg, hp⟩ := hf fs' h₁
  exact hw.setFs (hw.fs.of_code hok hd hp) hg

theorem emitLoadK_built {a : Nat} {k : Constant} (hw : WellBuilt .free c)
    (h : (updateFs (·.emitLoadK a k line)).run c = .ok ((), c')) : Built .free c c' :=
  updateFs_built hw (fun _ he => hw.fs.code.emitLoadK hw.fs.demand he) h

theorem closeOpenUpvals_built (hw : WellBuilt .free c)
    (h : (updateFs (·.closeOpenUpvals line)).run c = .ok ((), c')) : Built .free c c' :=
  updateFs_built hw (fun _ he => hw.fs.code.closeOpenUpvals hw.fs.demand he) h

theorem addBreak_built (hw : WellBuilt .free c)
    (h : (updateFs (·.addBreak line)).run c = .ok ((), c')) : Built .free c c' :=
  updateFs_built hw (fun _ he => hw.fs.code.addBreak hw.fs.demand he) h

theorem exitScope_built (hw : WellBuilt .free c)
    (h : (updateFs FuncState.exitScope).run c = .ok ((), c')) : Built .free c c' :=
  updateFs_built hw (fun _ he => hw.fs.code.exitScope hw.fs.demand he) h

theorem setJumpA_built {a : Nat} (hw : WellBuilt d c) (hj : c.fs.JumpAt j)
    (h : (updateFs (·.setJumpA j a)).run c = .ok ((), c')) : Built d c c' :=
  updateFs_built hw (fun fs' he => by
    obtain ⟨hok, hd, hg⟩ := hw.fs.code.setJumpA hj he
    obtain ⟨-, rfl⟩ := FuncState.setJumpA_ok he
    exact ⟨hok, hd.trans hw.fs.demand, hg, rfl⟩) h

/-! ## Scopes, locals and registers -/

theorem enterScope_built {breakable : Bool} (hw : WellBuilt d c)
    (h : (modifyFs (·.enterScope breakable)).run c = .ok ((), c')) : Built d c c' := by
  rw [run_modifyFs h]
  exact hw.framed (FuncState.enterScope_framed _ _)

theorem resetRegs_built {mark : Nat} (hw : WellBuilt d c)
    (h : (updateFs (·.resetRegs mark)).run c = .ok ((), c')) : Built d c c' := by
  obtain ⟨fs', h₁, rfl⟩ := run_updateFs h
  exact hw.framed (FuncState.resetRegs_framed h₁)

/-- Taking `n` registers: they are the next ones. -/
theorem allocRegs_built {n first : Nat} (hw : WellBuilt d c)
    (h : (onFs (·.allocRegs n line)).run c = .ok (first, c')) :
    Built d c c' ∧ first = c.fs.usedRegs ∧ c'.fs.usedRegs = c.fs.usedRegs + n := by
  obtain ⟨fs', h₁, rfl⟩ := run_onFs h
  obtain ⟨rfl, hu, -⟩ := FuncState.allocRegs_ok h₁
  exact ⟨hw.framed (FuncState.allocRegs_framed h₁), rfl, hu⟩

/-- A local takes the next register, below 255, and the registers taken stay counted. -/
theorem addLocal_built {name : String} {r : Nat} (hw : WellBuilt d c)
    (h : (onFs (·.addLocal name line)).run c = .ok (r, c')) :
    Built d c c' ∧ r < 255 ∧ c'.fs.usedRegs = c.fs.usedRegs + 1 ∧ c'.fs.usedRegs ≤ c'.fs.maxRegs := by
  obtain ⟨fs', h₁, rfl⟩ := run_onFs h
  have hf := FuncState.addLocal_framed h₁
  obtain ⟨rfl, hu, -⟩ := FuncState.addLocal_ok h₁
  have htop : fs'.usedRegs ≤ 255 := (hf.regs hw.fs.code.regs).top
  exact ⟨hw.framed hf, by omega, hu, FuncState.addLocal_top h₁⟩

theorem addLocals_built : ∀ {names : List String} {c c' : Compiler}, WellBuilt d c →
    (addLocals names line).run c = .ok ((), c') →
      Built d c c' ∧ c'.fs.usedRegs = c.fs.usedRegs + names.length ∧
        (c.fs.usedRegs ≤ c.fs.maxRegs → c'.fs.usedRegs ≤ c'.fs.maxRegs)
  | [], _, _, hw, h => by
    obtain ⟨-, rfl⟩ := run_pure_ok h
    exact ⟨.refl hw, rfl, id⟩
  | name :: rest, c, c', hw, h => by
    obtain ⟨r, c₁, h₁, h₂⟩ := run_bind_ok h
    obtain ⟨hb₁, -, hu₁, hm₁⟩ := addLocal_built hw h₁
    obtain ⟨hb₂, hu₂, hm₂⟩ := addLocals_built hb₁.wb h₂
    refine ⟨hb₁.trans hb₂, ?_, fun _ => hm₂ hm₁⟩
    simp only [List.length_cons]
    omega

/-! ## Nested functions -/

/-- A nested function starts sound and asking nothing, with its parameters as its first locals;
the function that was current waits on top of the enclosing ones. -/
theorem openFunction_built {params : List String} {isVararg isMethod : Bool}
    (hw : WellBuilt .free c) (h : (openFunction params isVararg isMethod line).run c = .ok ((), c')) :
    WellBuilt .free c' ∧ c'.enclosing = c.enclosing.push c.fs := by
  obtain ⟨u, c₁, h₁, h₂⟩ := run_bind_ok h
  have hc₁ : c₁ = { c with
      fs := FuncState.new c.source line isVararg
      enclosing := c.enclosing.push c.fs } := by
    cases h₁
    rfl
  subst hc₁
  have hw₁ : WellBuilt .free { c with
      fs := FuncState.new c.source line isVararg
      enclosing := c.enclosing.push c.fs } := by
    refine ⟨.new _ _ _, fun k hk => ?_⟩
    simp only [Array.getElem_push]
    split
    · exact hw.enclosing k ‹_›
    · exact hw.fs
  obtain ⟨u, c₂, h₃, h₄⟩ := run_bind_ok h₂
  obtain ⟨hb₂, hu₂, hm₂⟩ := addLocals_built hw₁ h₃
  obtain ⟨fs₂, rfl, -⟩ := addLocals_spec h₃
  rw [run_modifyFs h₄]
  -- the parameters are the first locals, so the registers taken cover them
  have hs₂ := hb₂.wb.fs
  have hparams : params.length + (if isMethod then 1 else 0) ≤ fs₂.maxRegs := by
    have hm := hm₂ (Nat.le_refl 0)
    simp only [FuncState.new] at hu₂ hm
    split at hu₂ <;> simp_all
  exact ⟨⟨⟨⟨hs₂.code.code, ⟨hparams, hs₂.code.regs.top, hs₂.code.regs.slots⟩, hs₂.code.breaks⟩,
    hs₂.demand, hs₂.protos⟩, hb₂.wb.enclosing⟩, rfl⟩

/-- Leaving a nested function whose code is sound, asks nothing and is closed by a `return`:
the function around it is current again, with the new prototype, well formed with all those
nested in it, and a `closure` of it. -/
theorem leaveFunction_built {c₁ c₂ : Compiler} {fs₃ : FuncState} {lastLine a l : Nat}
    (he : c₁.enclosing = c.enclosing.push c.fs) (hb : Built .free c₁ c₂)
    (hr : c₂.fs.emitReturn 0 0 l = .ok fs₃)
    (h : (leaveFunction lastLine a line).run { c₂ with fs := fs₃ } = .ok ((), c')) :
    Built .free c c' := by
  have hsize : c₂.enclosing.size = c.enclosing.size + 1 := by
    rw [hb.ext.size, he, Array.size_push]
  have h₂ := run_get_bind h
  split at h₂
  · exact absurd h₂ run_throw_ne
  rename_i parent hback
  have hlt : c.enclosing.size < c₂.enclosing.size := by omega
  have hpar : c₂.enclosing[c.enclosing.size] = parent := by
    rw [Array.back?_eq_getElem?] at hback
    dsimp only at hback
    rw [hsize, Nat.add_sub_cancel, Array.getElem?_eq_getElem hlt] at hback
    exact Option.some.inj hback
  -- the parent continues the function that was current, and is sound
  have hcont : c.fs.Continues parent := by
    have hk := hb.ext.enclosing c.enclosing.size (by rw [he]; simp) hlt
    simp only [he, Array.getElem_push_eq, hpar] at hk
    exact hk
  have hsound : parent.Sound .free := hpar ▸ hb.wb.enclosing _ hlt
  have h₃ := run_set_bind h₂
  obtain ⟨p, c₄, h₄, h₅⟩ := run_bind_ok h₃
  obtain ⟨hfin, rfl⟩ := run_lift_ok h₄
  obtain ⟨idx, c₅, h₆, h₇⟩ := run_bind_ok h₅
  obtain ⟨fs₅, h₈, rfl⟩ := run_onFs h₆
  cases h₈
  obtain ⟨fs₆, h₉, rfl⟩ := run_updateFs h₇
  have hs₅ := hsound.addProto (hb.wb.fs.finish hr hfin)
  obtain ⟨hok, hdem, hg⟩ := hs₅.code.emitABx rfl
    (by rw [hs₅.demand]; simp [Demand.admits, readsTop]) (fun e => by cases e) h₉
  obtain ⟨-, e⟩ := FuncState.emitABx_ok h₉
  have hg₀ : parent.Continues (parent.addProto p).1 := .of_code_eq rfl rfl
  refine ⟨⟨hs₅.of_code hok (by rw [hdem]; simp [Instruction.demand]) (by rw [e]; rfl), fun k hk => ?_⟩,
    ⟨by simp [hsize], hcont.trans (hg₀.trans hg),
      fun k hk hk' => ?_⟩⟩
  · simp only [Array.getElem_pop]
    exact hb.wb.enclosing k _
  · -- the functions further out continue as the nested one left them
    have hk₁ : k < c₁.enclosing.size := by rw [he]; simp; omega
    have hmk := hb.ext.enclosing k hk₁ (by omega)
    simp only [he, Array.getElem_push_lt hk] at hmk
    simpa [Array.getElem_pop] using hmk

end Compiler

end LuaBytecode
