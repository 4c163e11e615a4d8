import LuaBytecode.Proofs.Instruction.Demand
import LuaBytecode.Proofs.Compiler.Run
/-!
# Well-formed bytecode, and code being written

`Proto.WellFormed` is what the machine takes for granted of a prototype's code without a check
of its own: a source line per instruction, a `return` at the end, room for the parameters, jumps
that land inside the code and never on the `extraArg` word of the instruction before, a `jmp`
after each test, an instruction after each `loadbool` that skips one, values left open up to
top taken by the very next instruction and only there, and constant indices inside a pool that
holds each constant once.

A function being written holds a prefix of its code, so its last instruction may still wait for
the next one: `demandOf code` is what it asks (`Instruction.demand`). `CodeSound` is what holds
of the code written so far:

* each instruction meets the demand of the one before it, and the first one meets `free`;
* every jump lands at or before the end of the code (a jump by one, at the very end, one
  further), and on a `Boundary`: never on the word after an instruction that carries its
  operand there;
* every constant index is inside the pool, which holds each constant once.

Appending an instruction that meets the demand keeps it (`CodeSound.push`), and so does turning
a jump into another one that lands on a boundary (`CodeSound.modify_jump`). Code whose demand is
`free`, once a `return` is appended, is what a well-formed prototype holds
(`CodeSound.wellFormed`).

For the function being written, `FuncState.CodeOk` adds that the parameters fit its registers,
that its locals' registers can stand as RK operands, and that the breaks recorded for each loop
are jumps. `FuncState.Continues fs fs'` says that the code of `fs'` continues that of `fs`: old
positions keep their opcodes, and every old instruction but a jump is unchanged; the pool only
grows. A jump emitted earlier is then still a jump there (`JumpAt.grow`), and a boundary at or
before the end stays one (`Boundary.grow`).
-/

namespace LuaBytecode

open Instruction

/-- `t` is no position inside a two-word instruction of `code`: the word before it, if any, does
not carry its operand on. -/
def Boundary (code : Array Instruction) (t : Nat) : Prop :=
  ∀ k (hk : k < code.size), k + 1 = t → code[k].needsExtra = false

/-- What code asks of the instruction appended to it: what its last instruction asks. -/
def demandOf (code : Array Instruction) : Demand := (code.back?.map Instruction.demand).getD .free

/-- Code written so far, with a source line per instruction and its constant pool, as the
machine needs it once the code is complete. -/
structure CodeSound (code : Array Instruction) (lines : Array Nat) (pool : Array Constant) :
    Prop where
  lines : lines.size = code.size
  first : ∀ h : 0 < code.size, Demand.free.admits code[0] = true
  link : ∀ pc (h : pc + 1 < code.size), code[pc].demand.admits code[pc + 1] = true
  jumps : ∀ pc (h : pc < code.size), code[pc].isJump = true →
    ∃ t : Nat, (t : Int) = code[pc].target pc ∧ (t ≤ code.size ∨ t = pc + 2) ∧ Boundary code t
  consts : ∀ pc (h : pc < code.size), code[pc].constsBelow pool.size = true
  extraConst : ∀ pc (h : pc + 1 < code.size), code[pc].opcode = .loadKx →
    code[pc + 1].axArg < pool.size
  pool : pool.toList.Nodup

/-- What the machine takes for granted of a prototype without a check of its own. -/
structure Proto.WellFormed (p : Proto) : Prop where
  /-- A source line for every instruction. -/
  lines : p.lines.size = p.code.size
  /-- The last instruction is a `return`. -/
  ret : ∃ i, p.code.back? = some i ∧ i.opcode = .ret
  /-- At least two registers, and one for each parameter. -/
  stack : 2 ≤ p.maxStack ∧ p.numParams ≤ p.maxStack
  /-- A jump lands inside the code, and not on the `extraArg` word of the instruction before. -/
  jumps : ∀ pc (h : pc < p.code.size), p.code[pc].isJump = true →
    ∃ t : Nat, (t : Int) = p.code[pc].target pc ∧ ∃ ht : t < p.code.size,
      ¬ (p.code[t].opcode = .extraArg ∧
        ∃ k, ∃ hk : k < p.code.size, k + 1 = t ∧ p.code[k].needsExtra = true)
  /-- A test is followed by a `jmp`. -/
  tests : ∀ pc (h : pc < p.code.size), p.code[pc].isTest = true →
    ∃ h' : pc + 1 < p.code.size, p.code[pc + 1].opcode = .jmp
  /-- A `loadbool` that skips the next instruction is followed by one. -/
  skips : ∀ pc (h : pc < p.code.size), p.code[pc].opcode = .loadBool → p.code[pc].c ≠ 0 →
    pc + 1 < p.code.size
  /-- Values left open up to top are taken by the next instruction ... -/
  opens : ∀ pc (h : pc < p.code.size), p.code[pc].opensTop = true →
    ∃ h' : pc + 1 < p.code.size, p.code[pc + 1].readsTop = true
  /-- ... and values up to top are only taken right after they are left open. -/
  reads : ∀ pc (h : pc < p.code.size), p.code[pc].readsTop = true →
    ∃ k, ∃ hk : k < p.code.size, k + 1 = pc ∧ p.code[k].opensTop = true
  /-- Every constant an instruction names is in the pool ... -/
  consts : ∀ pc (h : pc < p.code.size), p.code[pc].constsBelow p.constants.size = true
  /-- ... and so is the one a `loadkx` names in the word after it. -/
  extraConst : ∀ pc (h : pc + 1 < p.code.size), p.code[pc].opcode = .loadKx →
    p.code[pc + 1].axArg < p.constants.size
  /-- The pool holds each constant once. -/
  pool : p.constants.toList.Nodup

variable {code code' : Array Instruction} {lines : Array Nat} {pool : Array Constant}
  {i : Instruction} {pc t : Nat}

/-! ## Boundaries and the demand at the end -/

theorem demandOf_push (code : Array Instruction) (i : Instruction) :
    demandOf (code.push i) = i.demand := by
  simp [demandOf]

theorem demandOf_last {k : Nat} (hk : k < code.size) (hlast : k + 1 = code.size) :
    demandOf code = code[k].demand := by
  simp [demandOf, Array.back?_eq_getElem?, show code.size - 1 = k by omega,
    Array.getElem?_eq_getElem hk]

theorem demandOf_empty (h : code.size = 0) : demandOf code = .free := by
  simp [demandOf, Array.back?_eq_getElem?,
    Array.getElem?_eq_none (show code.size ≤ code.size - 1 by omega)]

/-- Changing one instruction changes the demand at the end only if it is the last one. -/
theorem demandOf_modify {f : Instruction → Instruction} (hpc : pc < code.size) :
    demandOf (code.modify pc f) =
      if pc + 1 = code.size then (f code[pc]).demand else demandOf code := by
  have hsize : (code.modify pc f).size = code.size := Array.size_modify
  split
  · rename_i hlast
    rw [demandOf_last (show pc < (code.modify pc f).size by omega) (by omega),
      Array.getElem_modify_self]
  · rw [demandOf_last (show code.size - 1 < (code.modify pc f).size by omega) (by omega),
      demandOf_last (show code.size - 1 < code.size by omega) (by omega),
      Array.getElem_modify_of_ne (by omega)]

namespace Boundary

theorem zero (code : Array Instruction) : Boundary code 0 := fun _ _ h => by omega

/-- Past the end of the code every position is a boundary. -/
theorem beyond (ht : code.size < t) : Boundary code t := fun _ _ h => by omega

/-- The end of the code is a boundary unless the last instruction waits for its `extraArg`. -/
theorem size (hd : demandOf code ≠ .extra) : Boundary code code.size := by
  intro k hk hkt
  cases hx : code[k].needsExtra
  · rfl
  · exact absurd ((demandOf_last hk hkt).trans (demand_eq_extra.mpr hx)) hd

/-- The position right after a jump is a boundary. -/
theorem after_jump (ht : t < code.size) (hj : code[t].isJump = true) : Boundary code (t + 1) := by
  intro k hk hkt
  obtain rfl : k = t := by omega
  exact needsExtra_of_isJump hj

theorem push (hb : Boundary code t) (hi : code.size + 1 = t → i.needsExtra = false) :
    Boundary (code.push i) t := by
  intro k hk hkt
  simp only [Array.size_push] at hk
  simp only [Array.getElem_push]
  split
  · exact hb k ‹_› hkt
  · exact hi (by omega)

/-- Boundaries only read whether each instruction carries its operand on. -/
theorem congr (hb : Boundary code t) (hs : code'.size = code.size)
    (he : ∀ k (h : k < code.size) (h' : k < code'.size), code'[k].needsExtra = code[k].needsExtra) :
    Boundary code' t := by
  intro k hk hkt
  rw [he k (by omega) hk]
  exact hb k (by omega) hkt

end Boundary

/-! ## Appending an instruction -/

namespace CodeSound

variable (h : CodeSound code lines pool)
include h

/-- A jump lands at or before the end of the code, unless it is a jump by one at the very end. -/
theorem target_le (hpc : pc < code.size) (hj : code[pc].isJump = true)
    (hd : demandOf code ≠ .skip) :
    ∃ t : Nat, (t : Int) = code[pc].target pc ∧ t ≤ code.size ∧ Boundary code t := by
  obtain ⟨t, ht, hle, hb⟩ := h.jumps pc hpc hj
  refine ⟨t, ht, ?_, hb⟩
  rcases hle with hle | rfl
  · exact hle
  · by_cases hle : pc + 2 ≤ code.size
    · exact hle
    · have hsbx : code[pc].sbx = 1 := by simp only [target] at ht; omega
      exact absurd (by rw [demandOf_last hpc (by omega), demand_of_isJump hj, if_pos hsbx]) hd

/-- Appending an instruction that meets the demand at the end keeps the code sound, provided
the constants it names are in the pool and, if it is a jump, it lands on the next position or
the one after. -/
theorem push (hd : (demandOf code).admits i = true) (hk : i.constsBelow pool.size = true)
    (hx : ∀ k (hk : k < code.size), k + 1 = code.size → code[k].opcode = .loadKx →
      i.axArg < pool.size)
    (hj : i.isJump = true → i.sbx = 0 ∨ i.sbx = 1) (line : Nat) :
    CodeSound (code.push i) (lines.push line) pool where
  lines := by simp [h.lines]
  first hpos := by
    simp only [Array.getElem_push]
    split
    · exact h.first _
    · rwa [demandOf_empty (by simp at hpos; omega)] at hd
  link pc hpc := by
    simp only [Array.size_push] at hpc
    simp only [Array.getElem_push, dif_pos (show pc < code.size by omega)]
    split
    · exact h.link pc ‹_›
    · rwa [demandOf_last (show pc < code.size by omega) (show pc + 1 = code.size by omega)] at hd
  jumps pc hpc hjump := by
    simp only [Array.size_push] at hpc ⊢
    by_cases hlt : pc < code.size
    · simp only [Array.getElem_push, dif_pos hlt] at hjump ⊢
      obtain ⟨t, ht, hle, hb⟩ := h.jumps pc hlt hjump
      refine ⟨t, ht, by omega, hb.push fun hts => ?_⟩
      -- only a jump by one at the end lands past it, and what follows it takes one word
      have hsbx : code[pc].sbx = 1 := by simp only [target] at ht; omega
      rw [demandOf_last hlt (by omega), demand_of_isJump hjump, if_pos hsbx] at hd
      exact needsExtra_of_admits_skip hd
    · obtain rfl : pc = code.size := by omega
      simp only [Array.getElem_push, dif_neg (Nat.lt_irrefl _)] at hjump ⊢
      rcases hj hjump with h0 | h1
      · exact ⟨code.size + 1, by simp only [target, h0]; omega, by omega,
          (Boundary.beyond (by omega)).push fun _ => needsExtra_of_isJump hjump⟩
      · exact ⟨code.size + 2, by simp only [target, h1]; omega, by omega,
          (Boundary.beyond (by omega)).push fun h => by omega⟩
  consts pc hpc := by
    simp only [Array.getElem_push]
    split
    · exact h.consts pc ‹_›
    · exact hk
  extraConst pc hpc hop := by
    simp only [Array.size_push] at hpc
    simp only [Array.getElem_push, dif_pos (show pc < code.size by omega)] at hop ⊢
    split
    · exact h.extraConst pc ‹_› hop
    · exact hx pc (by omega) (by omega) hop
  pool := h.pool

/-! ## Changing a jump -/

/-- Turning the jump at `pc` into another jump of the same opcode keeps the code sound, if the
new one lands on a boundary and, when it skips the next instruction, that one takes one word. -/
theorem modify_jump {f : Instruction → Instruction} (hpc : pc < code.size)
    (hjump : code[pc].isJump = true) (hop : (f code[pc]).opcode = code[pc].opcode)
    (hland : ∃ t : Nat, (t : Int) = (f code[pc]).target pc ∧ (t ≤ code.size ∨ t = pc + 2) ∧
      Boundary code t)
    (hnext : ∀ hn : pc + 1 < code.size, (f code[pc]).demand = .skip →
      code[pc + 1].needsExtra = false) :
    CodeSound (code.modify pc f) lines pool := by
  have hjump' : (f code[pc]).isJump = true := by rw [Instruction.isJump, hop]; exact hjump
  have hsame : ∀ d : Demand, d.admits (f code[pc]) = d.admits code[pc] := fun d => by
    rw [admits_of_isJump hjump', admits_of_isJump hjump, hop]
  have hsize : (code.modify pc f).size = code.size := Array.size_modify
  -- the code is the old one everywhere but at `pc`
  have hat : ∀ k (hk : k < (code.modify pc f).size),
      (code.modify pc f)[k] = if pc = k then f code[k] else code[k] := fun k hk =>
    Array.getElem_modify hk
  have hextra : ∀ k (hk : k < code.size) (hk' : k < (code.modify pc f).size),
      (code.modify pc f)[k].needsExtra = code[k].needsExtra := by
    intro k hk hk'
    rw [hat k hk']
    split
    · subst_vars
      rw [needsExtra_of_isJump hjump', needsExtra_of_isJump hjump]
    · rfl
  -- what follows the jump at `pc` meets `free`, whatever the jump asks
  have hnext_free : ∀ hn : pc + 1 < code.size, Demand.free.admits code[pc + 1] = true := by
    intro hn
    have hold := h.link pc hn
    rw [demand_of_isJump hjump] at hold
    split at hold
    · exact admits_free_of_skip hold
    · exact hold
  exact {
    lines := by rw [hsize]; exact h.lines
    first := fun hpos => by
      rw [hat 0 hpos]
      split
      · subst_vars
        rw [hsame]
        exact h.first _
      · exact h.first _
    link := fun k hk => by
      rw [hat k (by omega), hat (k + 1) hk]
      by_cases hk₁ : pc = k
      · subst hk₁
        rw [if_pos rfl, if_neg (by omega)]
        have hn : pc + 1 < code.size := by rw [hsize] at hk; exact hk
        rw [demand_of_isJump hjump']
        split
        · -- a jump by one: what it skips takes one word
          exact admits_skip (hnext_free hn)
            (hnext hn (by rw [demand_of_isJump hjump', if_pos ‹_›]))
        · exact hnext_free hn
      · rw [if_neg hk₁]
        by_cases hk₂ : pc = k + 1
        · subst hk₂
          rw [if_pos rfl, hsame]
          exact h.link k (by omega)
        · rw [if_neg hk₂]
          exact h.link k (by omega)
    jumps := fun k hk hj => by
      rw [hsize] at hk ⊢
      by_cases hkp : pc = k
      · subst hkp
        obtain ⟨t, ht, hle, hb⟩ := hland
        refine ⟨t, by rw [hat pc (by omega), if_pos rfl]; exact ht, hle, ?_⟩
        exact hb.congr hsize hextra
      · have hj₀ : code[k].isJump = true := by rwa [hat k (by omega), if_neg hkp] at hj
        obtain ⟨t, ht, hle, hb⟩ := h.jumps k hk hj₀
        exact ⟨t, by rw [hat k (by omega), if_neg hkp]; exact ht, hle, hb.congr hsize hextra⟩
    consts := fun k hk => by
      rw [hat k hk]
      split
      · subst_vars
        exact constsBelow_of_isJump hjump' _
      · exact h.consts k (by omega)
    extraConst := fun k hk hop' => by
      rw [hat k (by omega)] at hop'
      rw [hat (k + 1) hk]
      by_cases hk₁ : pc = k
      · subst hk₁
        rw [if_pos rfl, hop] at hop'
        rcases opcode_of_isJump hjump with e | e | e | e <;> rw [e] at hop' <;> cases hop'
      · rw [if_neg hk₁] at hop'
        by_cases hk₂ : pc = k + 1
        · -- the word after a `loadkx` is its `extraArg`, not a jump
          subst hk₂
          have hlink := h.link k (by omega)
          have hextra' : code[k].demand = .extra := by simp [demand, hop']
          rw [hextra'] at hlink
          simp only [Demand.admits, beq_iff_eq] at hlink
          exact absurd hlink (opcode_ne_extraArg_of_isJump hjump)
        · rw [if_neg hk₂]
          exact h.extraConst k (by omega) hop'
    pool := h.pool }

/-! ## The constant pool -/

/-- Adding a new constant to the pool keeps the code sound. -/
theorem addConst {k : Constant} (hk : k ∉ pool) : CodeSound code lines (pool.push k) where
  lines := h.lines
  first := h.first
  link := h.link
  jumps := h.jumps
  consts pc hpc := constsBelow_mono (by simp) (h.consts pc hpc)
  extraConst pc hpc hop := by
    simp only [Array.size_push]
    exact Nat.lt_succ_of_lt (h.extraConst pc hpc hop)
  pool := by
    rw [Array.toList_push, List.nodup_append]
    refine ⟨h.pool, by simp, fun a ha b hb => ?_⟩
    simp only [List.mem_singleton] at hb
    subst hb
    exact fun e => hk (e ▸ Array.mem_toList_iff.mp ha)

/-! ## Closing the code -/

/-- Sound code that waits for nothing, closed by a `return`, is the code of a well-formed
prototype. -/
theorem wellFormed {p : Proto} {l : Nat} (hd : demandOf code = .free)
    (hret : i.opcode = .ret) (hi : Demand.free.admits i = true)
    (hk : i.constsBelow pool.size = true) (hp : p.code = code.push i)
    (hl : p.lines = lines.push l) (hc : p.constants = pool)
    (hstack : 2 ≤ p.maxStack ∧ p.numParams ≤ p.maxStack) : p.WellFormed := by
  have hj : i.isJump = false := by simp [Instruction.isJump, hret, Opcode.isJump]
  have hi' : i.demand = .free := by simp [demand, hret]
  have hs : CodeSound (code.push i) (lines.push l) pool :=
    h.push (by rw [hd]; exact hi) hk (fun k hk hlast hop => by
      rw [demandOf_last hk hlast] at hd
      simp [demand, hop] at hd) (by simp [hj]) l
  -- every instruction but the `return` has a successor
  have hnext : ∀ pc (h : pc < (code.push i).size), (code.push i)[pc].demand ≠ .free →
      pc + 1 < (code.push i).size := by
    intro pc hpc hne
    refine Decidable.byContradiction fun hlast => hne ?_
    have : pc = code.size := by simp at hpc hlast; omega
    subst this
    simp [Array.getElem_push, hi']
  cases p
  dsimp only at hp hl hc hstack ⊢
  subst hp hl hc
  refine ⟨hs.lines, ⟨i, by simp, hret⟩, hstack, ?_, ?_, ?_, ?_, ?_, ?_, hs.extraConst, hs.pool⟩
  · intro pc hpc hjump
    have hlt : pc < code.size := by
      simp only [Array.size_push] at hpc
      by_cases e : pc = code.size
      · subst e; simp [Array.getElem_push, hj] at hjump
      · omega
    rw [Array.getElem_push_lt hlt] at hjump ⊢
    obtain ⟨t, ht, hle, hb⟩ := h.target_le hlt hjump (by rw [hd]; decide)
    refine ⟨t, ht, by simp; omega, fun hlanding => ?_⟩
    obtain ⟨_, k, hk, hkt, hx⟩ := hlanding
    rw [Array.getElem_push_lt (by omega)] at hx
    rw [hb k (by omega) hkt] at hx
    cases hx
  · intro pc hpc htest
    have hd' := demand_eq_jump.mpr htest
    have hn := hnext pc hpc (by rw [hd']; decide)
    exact ⟨hn, admits_jump (hs.link pc hn) hd'⟩
  · intro pc hpc hop hc
    exact hnext pc hpc (by simp [demand, hop, hc])
  · intro pc hpc hopen
    have hd' := demand_eq_top.mpr hopen
    have hn := hnext pc hpc (by rw [hd']; decide)
    have := hs.link pc hn
    rw [hd'] at this
    exact ⟨hn, this⟩
  · intro pc hpc hread
    cases pc with
    | zero =>
      have := hs.first hpc
      simp [Demand.admits, hread] at this
    | succ k =>
      have hlink := hs.link k hpc
      exact ⟨k, by omega, rfl, demand_eq_top.mp (eq_top_of_admits_readsTop hlink hread)⟩
  · exact hs.consts

end CodeSound

/-! ## The function being written -/

namespace FuncState

variable {fs fs' fs₁ fs₂ fs₃ : FuncState}

/-- What the code written so far asks of the next instruction. -/
def demand (fs : FuncState) : Demand := demandOf fs.code

/-- Position `pc` of the code holds a jump. -/
def JumpAt (fs : FuncState) (pc : Nat) : Prop := ∃ h : pc < fs.code.size, fs.code[pc].isJump = true

/-- The registers fit: the parameters have theirs, and the top and every local's register can
stand as an RK operand. -/
structure RegsOk (fs : FuncState) : Prop where
  params : fs.numParams ≤ fs.maxRegs
  top : fs.usedRegs ≤ maxRegisters
  slots : ∀ l ∈ fs.actives, l.slot < 256

/-- What holds of the function being written, so far. -/
structure CodeOk (fs : FuncState) : Prop where
  code : CodeSound fs.code fs.lines fs.constants
  regs : fs.RegsOk
  breaks : ∀ lp ∈ fs.loops, ∀ pc ∈ lp.breaks, fs.JumpAt pc

/-- The code of `fs'` continues that of `fs`, and its pool extends that of `fs`. -/
structure Continues (fs fs' : FuncState) : Prop where
  size : fs.code.size ≤ fs'.code.size
  code : ∀ k (h : k < fs.code.size) (h' : k < fs'.code.size),
    fs'.code[k].opcode = fs.code[k].opcode ∧ (fs.code[k].isJump = false → fs'.code[k] = fs.code[k])
  constants : fs.constants.size ≤ fs'.constants.size

namespace Continues

theorem refl (fs : FuncState) : Continues fs fs :=
  ⟨Nat.le_refl _, fun _ _ _ => ⟨rfl, fun _ => rfl⟩, Nat.le_refl _⟩

theorem trans (h₁ : Continues fs₁ fs₂) (h₂ : Continues fs₂ fs₃) : Continues fs₁ fs₃ where
  size := Nat.le_trans h₁.size h₂.size
  code k h h' := by
    have h₂k : k < fs₂.code.size := Nat.lt_of_lt_of_le h h₁.size
    obtain ⟨o₁, e₁⟩ := h₁.code k h h₂k
    obtain ⟨o₂, e₂⟩ := h₂.code k h₂k h'
    refine ⟨o₂.trans o₁, fun hj => ?_⟩
    have hj₂ : fs₂.code[k].isJump = false := by rw [e₁ hj]; exact hj
    rw [e₂ hj₂, e₁ hj]
  constants := Nat.le_trans h₁.constants h₂.constants

theorem isJump (hg : Continues fs fs') {k : Nat} (h : k < fs.code.size) (h' : k < fs'.code.size) :
    fs'.code[k].isJump = fs.code[k].isJump := by
  simp only [Instruction.isJump, (hg.code k h h').1]

theorem needsExtra (hg : Continues fs fs') {k : Nat} (h : k < fs.code.size) (h' : k < fs'.code.size) :
    fs'.code[k].needsExtra = fs.code[k].needsExtra := by
  cases hj : fs.code[k].isJump
  · rw [(hg.code k h h').2 hj]
  · rw [needsExtra_of_isJump hj, needsExtra_of_isJump (by rwa [hg.isJump h h'])]

/-- Code that is kept continues itself. -/
theorem of_code_eq (hc : fs'.code = fs.code) (hk : fs'.constants = fs.constants) :
    Continues fs fs' where
  size := Nat.le_of_eq (by rw [hc])
  code k hk hk' := by
    have e : fs'.code[k] = fs.code[k] := by simp only [hc]
    exact ⟨by rw [e], fun _ => e⟩
  constants := Nat.le_of_eq (by rw [hk])

/-- Appending to the code continues it. -/
theorem of_push (hcode : fs'.code = fs.code.push i)
    (hconst : fs.constants.size ≤ fs'.constants.size) : Continues fs fs' where
  size := by simp [hcode]
  code k h h' := by simp [hcode, Array.getElem_push, h]
  constants := hconst

/-- Changing only a jump, which keeps its opcode, continues the code. -/
theorem of_modify {f : Instruction → Instruction} (hpc : pc < fs.code.size)
    (hjump : fs.code[pc].isJump = true) (hf : (f fs.code[pc]).opcode = fs.code[pc].opcode)
    (hcode : fs'.code = fs.code.modify pc f) (hconst : fs.constants.size ≤ fs'.constants.size) :
    Continues fs fs' where
  size := by simp [hcode]
  code k h h' := by
    simp only [hcode, Array.getElem_modify]
    split
    · subst_vars
      exact ⟨hf, fun hn => absurd hjump (by rw [hn]; decide)⟩
    · exact ⟨rfl, fun _ => rfl⟩
  constants := hconst

end Continues

theorem JumpAt.grow (h : fs.JumpAt pc) (hg : Continues fs fs') : fs'.JumpAt pc := by
  obtain ⟨hpc, hj⟩ := h
  have hpc' := Nat.lt_of_lt_of_le hpc hg.size
  exact ⟨hpc', by rw [hg.isJump hpc hpc']; exact hj⟩

end FuncState

/-- A boundary at or before the end of the code stays one as the code grows. -/
theorem Boundary.grow {fs fs' : FuncState} (h : Boundary fs.code t) (ht : t ≤ fs.code.size)
    (hg : fs.Continues fs') : Boundary fs'.code t := by
  intro k hk hkt
  have hk₀ : k < fs.code.size := by omega
  rw [hg.needsExtra hk₀ hk]
  exact h k hk₀ hkt

/-! ## Steps on the function being written -/

namespace FuncState

variable {fs fs' fs₁ fs₂ fs₃ : FuncState} {i : Instruction} {pc line : Nat}

@[simp] theorem emit'_lines (fs : FuncState) (i : Instruction) (line : Nat) :
    (fs.emit' i line).lines = fs.lines.push line := rfl

@[simp] theorem emit'_constants (fs : FuncState) (i : Instruction) (line : Nat) :
    (fs.emit' i line).constants = fs.constants := rfl

@[simp] theorem emit'_loops (fs : FuncState) (i : Instruction) (line : Nat) :
    (fs.emit' i line).loops = fs.loops := rfl

@[simp] theorem demand_emit' (fs : FuncState) (i : Instruction) (line : Nat) :
    (fs.emit' i line).demand = i.demand := demandOf_push fs.code i

theorem continues_emit' (fs : FuncState) (i : Instruction) (line : Nat) :
    fs.Continues (fs.emit' i line) :=
  .of_push rfl (Nat.le_refl _)

/-- Appending an instruction that meets the demand, names only constants of the pool and, if it
is a jump, jumps by zero or one, keeps the function sound; an `extraArg` after a `loadkx` must
name a constant of the pool too. -/
theorem CodeOk.emit (h : fs.CodeOk) (hd : fs.demand.admits i = true)
    (hk : i.constsBelow fs.constants.size = true)
    (hx : i.opcode = .extraArg → fs.code.back?.map Instruction.opcode = some .loadKx →
      i.axArg < fs.constants.size)
    (hj : i.isJump = true → i.sbx = 0 ∨ i.sbx = 1) (line : Nat) : (fs.emit' i line).CodeOk where
  code := h.code.push hd hk (fun k hk hlast hop => by
    have hdk : fs.demand = .extra := by
      rw [demand, demandOf_last hk hlast, demand_eq_extra]
      simp [needsExtra, hop]
    rw [hdk] at hd
    refine hx (by simpa [Demand.admits] using hd) ?_
    rw [Array.back?_eq_getElem?, ← hlast, Nat.add_sub_cancel, Array.getElem?_eq_getElem hk]
    simp [hop]) hj line
  regs := ⟨h.regs.params, h.regs.top, h.regs.slots⟩
  breaks lp hlp pc hpc := (h.breaks lp hlp pc hpc).grow (continues_emit' fs i line)

/-- What `patchJump` does when it succeeds: the displacement fits, and the jump is given it. -/
theorem patchJump_eq {target : Nat} (h : fs.patchJump pc target = .ok fs') :
    ((target : Int) - pc - 1).natAbs ≤ 131071 ∧
      fs' = { fs with
        code := fs.code.modify pc (·.setSbx ((target : Int) - pc - 1))
        pending := fs.pending.filter (· != pc) } := by
  unfold FuncState.patchJump at h
  dsimp only at h
  split at h
  · cases h
  · cases h
    exact ⟨by omega, rfl⟩

/-- Pointing a jump at a boundary at or before the end of the code keeps the function sound and
asking nothing. -/
theorem CodeOk.patchJump {target : Nat} (h : fs.CodeOk) (hd : fs.demand = .free)
    (hj : fs.JumpAt pc) (ht : target ≤ fs.code.size) (hb : Boundary fs.code target)
    (hp : fs.patchJump pc target = .ok fs') :
    fs'.CodeOk ∧ fs'.demand = .free ∧ fs.Continues fs' := by
  obtain ⟨hrange, rfl⟩ := patchJump_eq hp
  obtain ⟨hpc, hjump⟩ := hj
  have hlo : -sbxBias ≤ (target : Int) - pc - 1 := by simp only [sbxBias]; omega
  have hhi : (target : Int) - pc - 1 ≤ sbxBias + 1 := by simp only [sbxBias]; omega
  have hg : fs.Continues { fs with
      code := fs.code.modify pc (·.setSbx ((target : Int) - pc - 1))
      pending := fs.pending.filter (· != pc) } :=
    .of_modify (f := (·.setSbx ((target : Int) - pc - 1))) hpc hjump (opcode_setSbx _ _) rfl
      (Nat.le_refl _)
  refine ⟨⟨?_, ⟨h.regs.params, h.regs.top, h.regs.slots⟩,
    fun lp hlp b hb' => (h.breaks lp hlp b hb').grow hg⟩, ?_, hg⟩
  · refine h.code.modify_jump (f := (·.setSbx ((target : Int) - pc - 1))) hpc hjump
      (opcode_setSbx _ _)
      ⟨target, ?_, .inl ht, hb⟩ fun hn hskip => ?_
    · show (target : Int) = (fs.code[pc].setSbx _).target pc
      rw [target_setSbx pc hlo hhi]
      omega
    · -- a jump by one skips the next instruction, which the boundary says takes one word
      rw [demand_setSbx hjump hlo hhi] at hskip
      have h1 : (target : Int) - pc - 1 = 1 := by
        split at hskip
        · assumption
        · cases hskip
      exact hb (pc + 1) hn (by omega)
  · show demandOf _ = .free
    rw [demandOf_modify hpc]
    split
    · rw [demand_setSbx hjump hlo hhi, if_neg (by omega)]
    · exact hd

/-- Setting operand A of a jump keeps the function sound and asking what it asked. -/
theorem CodeOk.setJumpA {a : Nat} (h : fs.CodeOk) (hj : fs.JumpAt pc)
    (hs : fs.setJumpA pc a = .ok fs') : fs'.CodeOk ∧ fs'.demand = fs.demand ∧ fs.Continues fs' := by
  obtain ⟨-, rfl⟩ := setJumpA_ok hs
  obtain ⟨hpc, hjump⟩ := hj
  have hg : fs.Continues { fs with code := fs.code.modify pc (·.setA a) } :=
    .of_modify (f := (·.setA a)) hpc hjump (opcode_setA _ _) rfl (Nat.le_refl _)
  refine ⟨⟨?_, ⟨h.regs.params, h.regs.top, h.regs.slots⟩,
    fun lp hlp b hb => (h.breaks lp hlp b hb).grow hg⟩, ?_, hg⟩
  · obtain ⟨t, ht, hle, hb⟩ := h.code.jumps pc hpc hjump
    refine h.code.modify_jump (f := (·.setA a)) hpc hjump (opcode_setA _ _) ⟨t, ?_, hle, hb⟩ fun hn hskip => ?_
    · show (t : Int) = (fs.code[pc].setA a).target pc
      rw [target_setA]
      exact ht
    · rw [show (fs.code[pc].setA a).demand = fs.code[pc].demand from demand_setA hjump a] at hskip
      have hlink := h.code.link pc hn
      rw [hskip] at hlink
      exact needsExtra_of_admits_skip hlink
  · show demandOf _ = demandOf _
    rw [demandOf_modify hpc]
    split
    · rename_i hlast
      rw [demand_setA hjump, demandOf_last hpc hlast]
    · rfl

/-- Interning a constant keeps the function sound and asking what it asked, and the index it
returns is one of the pool. -/
theorem CodeOk.addConstant (h : fs.CodeOk) (k : Constant) :
    (fs.addConstant k).1.CodeOk ∧ (fs.addConstant k).2 < (fs.addConstant k).1.constants.size ∧
      (fs.addConstant k).1.demand = fs.demand ∧ fs.Continues (fs.addConstant k).1 := by
  unfold FuncState.addConstant
  split
  · rename_i idx hidx
    refine ⟨h, ?_, rfl, .refl fs⟩
    cases hc : fs.constants with
    | mk l =>
      rw [hc, List.idxOf?_toArray] at hidx
      simpa using (List.idxOf?_eq_some_iff.mp hidx).1
  · rename_i hnone
    have hk : k ∉ fs.constants := Array.idxOf?_eq_none_iff.mp hnone
    exact ⟨⟨h.code.addConst hk, ⟨h.regs.params, h.regs.top, h.regs.slots⟩, h.breaks⟩, by simp, rfl,
      ⟨Nat.le_refl _, fun _ _ _ => ⟨rfl, fun _ => rfl⟩, by simp⟩⟩

/-! ## Steps that leave the code alone -/

/-- `fs'` differs from `fs` only where the soundness of the code does not look: the code, its
lines, the pool and the finished prototypes are kept, the registers still fit, and every break
recorded was recorded before. -/
structure Framed (fs fs' : FuncState) : Prop where
  code : fs'.code = fs.code
  lines : fs'.lines = fs.lines
  constants : fs'.constants = fs.constants
  protos : fs'.protos = fs.protos
  regs : fs.RegsOk → fs'.RegsOk
  breaks : ∀ lp ∈ fs'.loops, ∀ pc ∈ lp.breaks, ∃ lp₀ ∈ fs.loops, pc ∈ lp₀.breaks

namespace Framed

theorem refl (fs : FuncState) : Framed fs fs :=
  ⟨rfl, rfl, rfl, rfl, id, fun lp hlp _ hpc => ⟨lp, hlp, hpc⟩⟩

theorem trans (h₁ : Framed fs₁ fs₂) (h₂ : Framed fs₂ fs₃) : Framed fs₁ fs₃ where
  code := h₂.code.trans h₁.code
  lines := h₂.lines.trans h₁.lines
  constants := h₂.constants.trans h₁.constants
  protos := h₂.protos.trans h₁.protos
  regs := h₂.regs ∘ h₁.regs
  breaks lp hlp pc hpc := by
    obtain ⟨lp₂, hlp₂, hpc₂⟩ := h₂.breaks lp hlp pc hpc
    exact h₁.breaks lp₂ hlp₂ pc hpc₂

/-- A step that keeps the code, its lines, the pool, the prototypes and the loops, and the
registers fitting. -/
theorem of_regs (hc : fs'.code = fs.code) (hl : fs'.lines = fs.lines)
    (hk : fs'.constants = fs.constants) (hp : fs'.protos = fs.protos)
    (hloops : fs'.loops = fs.loops) (hr : fs.RegsOk → fs'.RegsOk) : Framed fs fs' :=
  ⟨hc, hl, hk, hp, hr, fun lp hlp _ hpc => ⟨lp, hloops ▸ hlp, hpc⟩⟩

theorem continues (h : Framed fs fs') : fs.Continues fs' := .of_code_eq h.code h.constants

theorem demand (h : Framed fs fs') : fs'.demand = fs.demand := by
  simp only [FuncState.demand, h.code]

theorem codeOk (h : Framed fs fs') (hok : fs.CodeOk) : fs'.CodeOk where
  code := by rw [h.code, h.lines, h.constants]; exact hok.code
  regs := h.regs hok.regs
  breaks lp hlp pc hpc := by
    obtain ⟨lp₀, hlp₀, hpc₀⟩ := h.breaks lp hlp pc hpc
    exact (hok.breaks lp₀ hlp₀ pc hpc₀).grow h.continues

end Framed

theorem allocReg_framed {r : Nat} (h : fs.allocReg line = .ok (fs', r)) : Framed fs fs' := by
  obtain ⟨hlt, -, rfl⟩ := allocReg_ok h
  refine .of_regs rfl rfl rfl rfl rfl fun hr => ⟨?_, ?_, hr.slots⟩
  · exact Nat.le_trans hr.params (Nat.le_max_left _ _)
  · exact hlt

theorem allocRegs_framed {n first : Nat} (h : fs.allocRegs n line = .ok (fs', first)) :
    Framed fs fs' := by
  simp only [allocRegs] at h
  cases hg : allocRegs.go line fs n with
  | error e => rw [hg] at h; cases h
  | ok g =>
    rw [hg] at h
    cases h
    -- each step of the loop takes one register
    have hgo : ∀ k fs₀ fs₁, allocRegs.go line fs₀ k = .ok fs₁ → Framed fs₀ fs₁ := by
      intro k
      induction k with
      | zero => intro fs₀ fs₁ hk; cases hk; exact .refl _
      | succ k ih =>
        intro fs₀ fs₁ hk
        simp only [allocRegs.go] at hk
        obtain ⟨⟨fs₂, r⟩, h₁, h₂⟩ := except_bind_ok hk
        exact (allocReg_framed h₁).trans (ih _ _ h₂)
    exact hgo n fs _ hg

theorem freeReg_framed (h : fs.freeReg = .ok fs') : Framed fs fs' := by
  obtain ⟨-, rfl⟩ := freeReg_ok h
  exact .of_regs rfl rfl rfl rfl rfl fun hr => ⟨hr.params, Nat.le_trans (Nat.sub_le _ _) hr.top, hr.slots⟩

theorem freeRegs_framed {n : Nat} (h : fs.freeRegs n = .ok fs') : Framed fs fs' := by
  obtain ⟨-, rfl⟩ := freeRegs_ok h
  exact .of_regs rfl rfl rfl rfl rfl fun hr => ⟨hr.params, Nat.le_trans (Nat.sub_le _ _) hr.top, hr.slots⟩

theorem resetRegs_framed {mark : Nat} (h : fs.resetRegs mark = .ok fs') : Framed fs fs' := by
  obtain ⟨hle, rfl⟩ := resetRegs_ok h
  exact .of_regs rfl rfl rfl rfl rfl fun hr => ⟨hr.params, Nat.le_trans hle hr.top, hr.slots⟩

/-- A new scope records no break yet. -/
theorem enterScope_framed (fs : FuncState) (breakable : Bool) :
    Framed fs (fs.enterScope breakable) := by
  refine ⟨rfl, rfl, rfl, rfl, fun hr => ⟨hr.params, hr.top, hr.slots⟩, fun lp hlp pc hpc => ?_⟩
  simp only [enterScope] at hlp
  split at hlp
  · rcases Array.mem_push.mp hlp with hlp | rfl
    · exact ⟨lp, hlp, hpc⟩
    · cases hpc
  · exact ⟨lp, hlp, hpc⟩

/-- Retiring the locals of a scope gives the top back to the register of one of them. -/
theorem retireLocals_framed (endPc : Nat) :
    ∀ (fuel : Nat) (fs : FuncState), Framed fs (fs.retireLocals endPc fuel)
  | 0, fs => .refl fs
  | fuel + 1, fs => by
    unfold retireLocals
    split
    · rename_i l hl
      split
      · dsimp only
        refine Framed.trans ?_ (retireLocals_framed endPc fuel _)
        refine .of_regs rfl rfl rfl rfl rfl fun hr => ⟨hr.params, ?_, fun l' hl' => ?_⟩
        · exact Nat.le_of_lt_succ (hr.slots l (Array.mem_of_getElem? hl))
        · rw [← Array.mem_toList_iff, Array.toList_pop] at hl'
          exact hr.slots l' (Array.mem_toList_iff.mp ((List.dropLast_sublist _).subset hl'))
      · exact .refl fs
    · exact .refl fs

theorem addLocal_framed {name : String} {slot : Nat} (h : fs.addLocal name line = .ok (fs', slot)) :
    Framed fs fs' := by
  simp only [addLocal] at h
  obtain ⟨⟨fs₁, r⟩, h₁, h₂⟩ := except_bind_ok h
  cases h₂
  obtain ⟨hlt, rfl, rfl⟩ := allocReg_ok h₁
  refine .of_regs rfl rfl rfl rfl rfl fun hr => ⟨?_, hlt, fun l hl => ?_⟩
  · exact Nat.le_trans hr.params (Nat.le_max_left _ _)
  · rcases Array.mem_push.mp hl with hl | rfl
    · exact hr.slots l hl
    · exact Nat.lt_of_lt_of_le hlt (by decide)

/-! ## Emitting instructions -/

theorem emitAx_fits {op : Opcode} {x : Nat} (h : fs.emitAx op x line = .ok fs') : x ≤ maxAx := by
  simp only [emitAx] at h
  cases hb : buildAx op x with
  | error e => rw [hb] at h; cases h
  | ok i => exact (buildAx_ok hb).1

/-- Emitting an ABC instruction keeps the function sound when the instruction meets the demand
and its RK operands name constants of the pool. -/
theorem CodeOk.emitABC {op : Opcode} {a b x : Nat} (h : fs.CodeOk) (hl : op.layout = .abc)
    (hd : b ≤ maxBC → x ≤ maxBC → fs.demand.admits (abc op a b x) = true)
    (hb : op.bArg = .regOrConst → rkBelow fs.constants.size b = true)
    (hx : op.cArg = .regOrConst → rkBelow fs.constants.size x = true)
    (he : fs.emitABC op a b x line = .ok fs') :
    fs'.CodeOk ∧ fs'.demand = (abc op a b x).demand ∧ fs.Continues fs' ∧ b ≤ maxBC ∧
      x ≤ maxBC := by
  obtain ⟨⟨-, hbf, hxf⟩, rfl⟩ := emitABC_ok he
  have hk : (abc op a b x).constsBelow fs.constants.size = true := by
    rw [constsBelow_abc hl hbf hxf, Bool.and_eq_true]
    constructor
    · by_cases e : op.bArg = .regOrConst
      · rw [hb e, Bool.or_true]
      · simp [e]
    · by_cases e : op.cArg = .regOrConst
      · rw [hx e, Bool.or_true]
      · simp [e]
  refine ⟨h.emit (hd hbf hxf) hk (fun e _ => ?_) (fun hj => ?_) line, demand_emit' _ _ _,
    continues_emit' _ _ _, hbf, hxf⟩
  · rw [opcode_abc'] at e
    subst e
    cases hl
  · rw [Instruction.isJump, opcode_abc'] at hj
    cases op <;> simp_all [Opcode.layout, Opcode.isJump]

/-- Emitting an ABx instruction keeps the function sound when it meets the demand and, for
`loadk`, names a constant of the pool. -/
theorem CodeOk.emitABx {op : Opcode} {a bx : Nat} (h : fs.CodeOk) (hl : op.layout = .abx)
    (hd : fs.demand.admits (abx op a bx) = true) (hk : op = .loadK → bx < fs.constants.size)
    (he : fs.emitABx op a bx line = .ok fs') :
    fs'.CodeOk ∧ fs'.demand = (abx op a bx).demand ∧ fs.Continues fs' := by
  obtain ⟨⟨-, hbx⟩, rfl⟩ := emitABx_ok he
  have hc : (abx op a bx).constsBelow fs.constants.size = true := by
    simp only [constsBelow, opcode_abx, hl]
    by_cases e : op = .loadK
    · subst e
      simp [bx_abx _ _ hbx, hk rfl]
    · simp [e]
  refine ⟨h.emit hd hc (fun e _ => ?_) (fun hj => ?_) line, demand_emit' _ _ _,
    continues_emit' _ _ _⟩
  · rw [opcode_abx] at e
    subst e
    cases hl
  · rw [Instruction.isJump, opcode_abx] at hj
    cases op <;> simp_all [Opcode.layout, Opcode.isJump]

/-- The `extraArg` that a `loadkx` or a `setlist` waits for; after a `loadkx` it names a constant
of the pool. -/
theorem CodeOk.emitAx {x : Nat} (h : fs.CodeOk) (hd : fs.demand = .extra)
    (hx : fs.code.back?.map Instruction.opcode = some .loadKx → x < fs.constants.size)
    (he : fs.emitAx .extraArg x line = .ok fs') :
    fs'.CodeOk ∧ fs'.demand = .free ∧ fs.Continues fs' := by
  have hfit := emitAx_fits he
  rw [emitAx_ok he]
  refine ⟨h.emit (by simp [hd, Demand.admits]) (by simp [constsBelow, Opcode.layout])
    (fun _ hl => by rw [axArg_ax _ hfit]; exact hx hl) (fun hj => by simp [isJump, Opcode.isJump] at hj)
    line, by rw [demand_emit']; simp [Instruction.demand], continues_emit' _ _ _⟩

/-- Emitting a jump by zero or by one, where the demand allows a jump. -/
theorem CodeOk.emitAsBx {op : Opcode} {a : Nat} {sbx : Int} (h : fs.CodeOk)
    (hop : op.isJump = true) (hs : sbx = 0 ∨ sbx = 1)
    (hd : fs.demand ≠ .top ∧ fs.demand ≠ .extra ∧ (fs.demand = .jump → op = .jmp))
    (he : fs.emitAsBx op a sbx line = .ok fs') :
    fs'.CodeOk ∧ fs'.demand = (if sbx = 1 then .skip else .free) ∧ fs.Continues fs' ∧
      fs'.JumpAt fs.code.size ∧ fs'.code.size = fs.code.size + 1 := by
  simp only [FuncState.emitAsBx, buildAsBx] at he
  obtain ⟨i, hi, he⟩ := except_bind_ok he
  cases he
  obtain ⟨⟨-, hbx⟩, rfl⟩ := buildABx_ok hi
  have hj : (abx op a (word32 (sbx + sbxBias))).isJump = true := by
    rw [Instruction.isJump, opcode_abx]
    exact hop
  have hsbx : (abx op a (word32 (sbx + sbxBias))).sbx = sbx := by
    rw [sbx_abx op a hbx]
    rcases hs with rfl | rfl <;> simp [word32, sbxBias]
  have hadm : fs.demand.admits (abx op a (word32 (sbx + sbxBias))) = true := by
    rw [admits_of_isJump hj]
    obtain ⟨ht, hx, hjmp⟩ := hd
    cases e : fs.demand with
    | free | skip => rfl
    | jump => simp [hjmp e]
    | top => exact absurd e ht
    | extra => exact absurd e hx
  refine ⟨h.emit hadm (constsBelow_of_isJump hj _) (fun e _ => ?_)
    (fun _ => by rw [hsbx]; exact hs) line, ?_,
    continues_emit' _ _ _, ⟨by simp, by simpa using hj⟩, by simp⟩
  · rw [opcode_abx] at e
    subst e
    cases hop
  · rw [demand_emit', demand_of_isJump hj, hsbx]

/-- Emitting a jump to be patched: it jumps by zero, so the function asks nothing. -/
theorem CodeOk.emitJump {op : Opcode} {a pc : Nat} (h : fs.CodeOk) (hop : op.isJump = true)
    (hd : fs.demand ≠ .top ∧ fs.demand ≠ .extra ∧ (fs.demand = .jump → op = .jmp))
    (he : fs.emitJump op a line = .ok (fs', pc)) :
    fs'.CodeOk ∧ fs'.demand = .free ∧ fs.Continues fs' ∧ pc = fs.code.size ∧ fs'.JumpAt pc ∧
      fs'.code.size = pc + 1 := by
  simp only [FuncState.emitJump] at he
  obtain ⟨g, hg, he⟩ := except_bind_ok he
  cases he
  obtain ⟨hok, hdem, hcont, hjat, hsize⟩ := h.emitAsBx hop (.inl rfl) hd hg
  have hf : Framed g { g with pending := fs.pc :: g.pending } :=
    .of_regs rfl rfl rfl rfl rfl fun hr => ⟨hr.params, hr.top, hr.slots⟩
  exact ⟨hf.codeOk hok, by rw [hf.demand, hdem, if_neg (by decide)], hcont.trans hf.continues,
    rfl, hjat.grow hf.continues, hsize⟩

/-- Loading a constant, from a function that asks nothing: past index 262143 the index follows
in an `extraArg`. -/
theorem CodeOk.emitLoadK {a : Nat} {k : Constant} (h : fs.CodeOk) (hd : fs.demand = .free)
    (he : fs.emitLoadK a k line = .ok fs') :
    fs'.CodeOk ∧ fs'.demand = .free ∧ fs.Continues fs' ∧ fs'.protos = fs.protos := by
  unfold FuncState.emitLoadK at he
  have hk := h.addConstant k
  have hp := addConstant_fst_protos fs k
  rcases hfk : fs.addConstant k with ⟨fs₁, idx⟩
  rw [hfk] at he hk hp
  dsimp only at he hk hp
  obtain ⟨hok, hidx, hdem, hcont⟩ := hk
  have hfree : ∀ bx, fs₁.demand.admits (abx .loadK a bx) = true ∧
      fs₁.demand.admits (abx .loadKx a bx) = true := fun bx => by
    simp [hdem, hd, Demand.admits, readsTop]
  split at he
  · obtain ⟨hok', hdem', hcont'⟩ := hok.emitABx rfl (hfree idx).1 (fun _ => hidx) he
    obtain ⟨-, rfl⟩ := emitABx_ok he
    exact ⟨hok', by rw [hdem']; simp [Instruction.demand], hcont.trans hcont', hp⟩
  · obtain ⟨fs₂, h₂, h₃⟩ := except_bind_ok he
    obtain ⟨hok₂, hdem₂, hcont₂⟩ := hok.emitABx rfl (hfree 0).2 (fun e => by cases e) h₂
    obtain ⟨hok₃, hdem₃, hcont₃⟩ := hok₂.emitAx (by rw [hdem₂]; simp [Instruction.demand])
      (fun _ => Nat.lt_of_lt_of_le hidx hcont₂.constants) h₃
    obtain ⟨-, rfl⟩ := emitABx_ok h₂
    obtain rfl := emitAx_ok h₃
    exact ⟨hok₃, hdem₃, hcont.trans (hcont₂.trans hcont₃), hp⟩

/-! ## Leaving scopes and loops -/

/-- Patching breaks to a boundary at or before the end: each is given its operand A and pointed
there. -/
theorem CodeOk.patchBreaks {a target : Nat} :
    ∀ {breaks : List Nat} {fs fs' : FuncState}, fs.CodeOk → fs.demand = .free →
      (∀ pc ∈ breaks, fs.JumpAt pc) → target ≤ fs.code.size → Boundary fs.code target →
        fs.patchBreaks a target breaks = .ok fs' →
          fs'.CodeOk ∧ fs'.demand = .free ∧ fs.Continues fs' ∧ fs'.protos = fs.protos
  | [], fs, fs', h, hd, _, _, _, hp => by
    cases hp
    exact ⟨h, hd, .refl _, rfl⟩
  | pc :: rest, fs, fs', h, hd, hj, ht, hb, hp => by
    simp only [FuncState.patchBreaks] at hp
    obtain ⟨fs₁, h₁, hp⟩ := except_bind_ok hp
    obtain ⟨fs₂, h₂, h₃⟩ := except_bind_ok hp
    have hjp := hj pc (.head _)
    obtain ⟨hok₁, hd₁, hg₁⟩ := h.setJumpA hjp h₁
    obtain ⟨hok₂, hd₂, hg₂⟩ :=
      hok₁.patchJump (hd₁.trans hd) (hjp.grow hg₁) (Nat.le_trans ht hg₁.size) (hb.grow ht hg₁) h₂
    have hg := hg₁.trans hg₂
    obtain ⟨hok₃, hd₃, hg₃, hp₃⟩ := CodeOk.patchBreaks hok₂ hd₂
      (fun q hq => (hj q (.tail _ hq)).grow hg) (Nat.le_trans ht hg.size) (hb.grow ht hg) h₃
    have hp₂ : fs₂.protos = fs.protos := by
      rw [(patchJump_eq h₂).2, (setJumpA_ok h₁).2]
    exact ⟨hok₃, hd₃, hg.trans hg₃, hp₃.trans hp₂⟩

/-- Closing the innermost loop, when it is the innermost scope, patches its breaks to `endPc`. -/
theorem CodeOk.closeLoop {endPc : Nat} (h : fs.CodeOk) (hd : fs.demand = .free)
    (ht : endPc ≤ fs.code.size) (hb : Boundary fs.code endPc) (hc : fs.closeLoop endPc = .ok fs') :
    fs'.CodeOk ∧ fs'.demand = .free ∧ fs.Continues fs' ∧ fs'.protos = fs.protos := by
  unfold FuncState.closeLoop at hc
  split at hc
  · rename_i lp hlp
    split at hc
    · -- the loop's breaks were recorded as jumps; the loops left keep theirs
      have hf : Framed fs { fs with loops := fs.loops.pop } := by
        refine ⟨rfl, rfl, rfl, rfl, fun hr => ⟨hr.params, hr.top, hr.slots⟩, fun lp' hlp' q hq => ?_⟩
        rw [← Array.mem_toList_iff, Array.toList_pop] at hlp'
        exact ⟨lp', Array.mem_toList_iff.mp ((List.dropLast_sublist _).subset hlp'), hq⟩
      have hbreaks : ∀ q ∈ lp.breaks.reverse, fs.JumpAt q := fun q hq =>
        h.breaks lp (Array.mem_of_getElem? hlp) q (List.mem_reverse.mp hq)
      obtain ⟨hok, hd', hg, hp⟩ := CodeOk.patchBreaks (hf.codeOk h) (hf.demand.trans hd)
        (fun q hq => (hbreaks q hq).grow hf.continues) ht hb hc
      exact ⟨hok, hd', hf.continues.trans hg, hp⟩
    · cases hc
      exact ⟨h, hd, .refl _, rfl⟩
  · cases hc
    exact ⟨h, hd, .refl _, rfl⟩

/-- Closing the innermost scope: its loop's breaks are patched to the end and its locals
retired. -/
theorem CodeOk.exitScope (h : fs.CodeOk) (hd : fs.demand = .free) (he : fs.exitScope = .ok fs') :
    fs'.CodeOk ∧ fs'.demand = .free ∧ fs.Continues fs' ∧ fs'.protos = fs.protos := by
  simp only [FuncState.exitScope] at he
  obtain ⟨fs₁, h₁, he⟩ := except_bind_ok he
  cases he
  have hd' : demandOf fs.code ≠ .extra := by rw [← FuncState.demand, hd]; decide
  obtain ⟨hok, hd₁, hg, hp⟩ := h.closeLoop hd (Nat.le_refl _) (Boundary.size hd') h₁
  have hf : Framed fs₁ { fs₁.retireLocals fs.pc fs₁.actives.size with
      depth := (fs₁.retireLocals fs.pc fs₁.actives.size).depth - 1 } :=
    (retireLocals_framed fs.pc fs₁.actives.size fs₁).trans
      (.of_regs rfl rfl rfl rfl rfl fun hr => ⟨hr.params, hr.top, hr.slots⟩)
  exact ⟨hf.codeOk hok, hf.demand.trans hd₁, hg.trans hf.continues, hf.protos.trans hp⟩

/-- Closing the upvalues of the innermost scope emits a jump by zero, if any. -/
theorem CodeOk.closeOpenUpvals (h : fs.CodeOk) (hd : fs.demand = .free)
    (hc : fs.closeOpenUpvals line = .ok fs') :
    fs'.CodeOk ∧ fs'.demand = .free ∧ fs.Continues fs' ∧ fs'.protos = fs.protos := by
  unfold FuncState.closeOpenUpvals at hc
  dsimp only at hc
  split at hc
  · obtain ⟨hok, hd', hg, -, -⟩ := h.emitAsBx (show Opcode.jmp.isJump = true from rfl) (.inl rfl)
      (by rw [hd]; exact ⟨by decide, by decide, by decide⟩) hc
    obtain ⟨-, bx, rfl⟩ := emitAsBx_ok hc
    exact ⟨hok, by rw [hd']; rfl, hg, rfl⟩
  · cases hc
    exact ⟨h, hd, .refl _, rfl⟩

/-- A `break`: a jump to be patched, recorded in the innermost loop. -/
theorem CodeOk.addBreak (h : fs.CodeOk) (hd : fs.demand = .free) (hb : fs.addBreak line = .ok fs') :
    fs'.CodeOk ∧ fs'.demand = .free ∧ fs.Continues fs' ∧ fs'.protos = fs.protos := by
  unfold FuncState.addBreak at hb
  split at hb
  · cases hb
  · rename_i lp hlp
    obtain ⟨⟨fs₁, pc⟩, h₁, hb⟩ := except_bind_ok hb
    cases hb
    obtain ⟨hok, hd₁, hg, -, hj, -⟩ := h.emitJump (show Opcode.jmp.isJump = true from rfl)
      (by rw [hd]; exact ⟨by decide, by decide, by decide⟩) h₁
    obtain ⟨-, -, bx, e⟩ := emitJump_ok h₁
    refine ⟨⟨hok.code, ⟨hok.regs.params, hok.regs.top, hok.regs.slots⟩, fun lp' hlp' q hq => ?_⟩,
      hd₁, hg.trans (.of_code_eq rfl rfl), by rw [e]; rfl⟩
    -- the loop that records the break holds its old breaks and the new jump
    simp only [Array.set!_eq_setIfInBounds] at hlp'
    rcases Array.mem_or_eq_of_mem_setIfInBounds hlp' with hlp' | rfl
    · exact hok.breaks lp' hlp' q hq
    · rcases List.mem_cons.mp hq with rfl | hq
      · exact hj
      · exact (h.breaks lp (Array.mem_of_getElem? hlp) q hq).grow (hg.trans (.of_code_eq rfl rfl))

end FuncState

end LuaBytecode
