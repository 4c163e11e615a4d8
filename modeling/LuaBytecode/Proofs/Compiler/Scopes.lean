import LuaBytecode.Proofs.Compiler.Operands
/-!
# Locals and scopes at statement boundaries

Between two statements the registers in use are exactly those of the active locals, and the
`i`-th active local holds register `i` (`FuncState.Aligned`). A statement takes temporaries and
declares locals on the way, but it ends aligned when it started so. This module gives the steps
that statements are built from, each with what it keeps:

* `FuncState.Alike`: a step on a function's state that touches only what alignment and frames
  do not read (code, constants, loops, scope depth, pending jumps);
* `Balanced c c'`: the locals and the registers in use are as they were (a condition, a store,
  a patched jump);
* `StmtOk c c'`: the enclosing functions are only marked, and alignment is kept (a statement,
  a block);
* declaring locals at the top keeps alignment (`Aligned.addLocal`), and so does retiring the
  locals of a scope (`Aligned.retireLocals`), which gives their registers back;
* the shapes of the statements that hold a block: `scopedWith`, `whileWith`, `repeatWith`.
-/

namespace LuaBytecode

namespace FuncState

variable {fs fs' fs₁ fs₂ fs₃ : FuncState}

/-- At a statement boundary the registers in use are exactly those of the active locals, and
the `i`-th active local, in declaration order, holds register `i`. -/
structure Aligned (fs : FuncState) : Prop where
  usedRegs : fs.usedRegs = fs.actives.size
  slot : ∀ i (h : i < fs.actives.size), fs.actives[i].slot = i

/-- Alignment read off the locals' registers as a list. -/
theorem aligned_iff_slots : fs.Aligned ↔ fs.slots = List.range fs.usedRegs := by
  constructor
  · rintro ⟨hu, hs⟩
    apply List.ext_getElem
    · simp [slots, hu]
    · intro i h₁ _
      simp [slots, hs i (by simpa [slots] using h₁)]
  · intro h
    have hlen := congrArg List.length h
    simp only [slots, List.length_map, Array.length_toList, List.length_range] at hlen
    refine ⟨hlen.symm, fun i hi => ?_⟩
    have := congrArg (·[i]?) h
    simpa [slots, hi, ← hlen] using this

/-- Alignment depends on the locals' registers and on the registers in use alone. -/
theorem Aligned.of_slots (h : fs.Aligned) (hs : fs'.slots = fs.slots)
    (hu : fs'.usedRegs = fs.usedRegs) : fs'.Aligned := by
  rw [aligned_iff_slots] at h ⊢
  rw [hs, hu, h]

/-- `fs'` differs from `fs` at most in what alignment and frames do not read: the code, the
constants, the loops, the scope depth and the pending jumps. -/
structure Alike (fs fs' : FuncState) : Prop where
  usedRegs : fs'.usedRegs = fs.usedRegs
  actives : fs'.actives = fs.actives
  protos : fs'.protos = fs.protos
  upvalues : fs'.upvalues = fs.upvalues

namespace Alike

@[refl] theorem refl (fs : FuncState) : Alike fs fs := ⟨rfl, rfl, rfl, rfl⟩

theorem trans (h₁ : Alike fs₁ fs₂) (h₂ : Alike fs₂ fs₃) : Alike fs₁ fs₃ :=
  ⟨h₂.usedRegs.trans h₁.usedRegs, h₂.actives.trans h₁.actives, h₂.protos.trans h₁.protos,
    h₂.upvalues.trans h₁.upvalues⟩

theorem aligned (h : Alike fs fs') (hal : fs.Aligned) : fs'.Aligned :=
  hal.of_slots (by simp only [slots, h.actives]) h.usedRegs

end Alike

theorem emitABC_alike {op : Opcode} {a b c line : Nat} (h : fs.emitABC op a b c line = .ok fs') :
    Alike fs fs' := by
  obtain ⟨-, rfl⟩ := emitABC_ok h
  exact ⟨rfl, rfl, rfl, rfl⟩

theorem emitAsBx_alike {op : Opcode} {a line : Nat} {sbx : Int}
    (h : fs.emitAsBx op a sbx line = .ok fs') : Alike fs fs' := by
  obtain ⟨-, bx, rfl⟩ := emitAsBx_ok h
  exact ⟨rfl, rfl, rfl, rfl⟩

theorem emitJump_alike {op : Opcode} {a line pc : Nat} (h : fs.emitJump op a line = .ok (fs', pc)) :
    Alike fs fs' := by
  obtain ⟨-, -, bx, rfl⟩ := emitJump_ok h
  exact ⟨rfl, rfl, rfl, rfl⟩

theorem patchJump_alike {pc target : Nat} (h : fs.patchJump pc target = .ok fs') : Alike fs fs' := by
  obtain ⟨sbx, rfl⟩ := patchJump_ok h
  exact ⟨rfl, rfl, rfl, rfl⟩

theorem setJumpA_alike {pc a : Nat} (h : fs.setJumpA pc a = .ok fs') : Alike fs fs' := by
  obtain ⟨-, rfl⟩ := setJumpA_ok h
  exact ⟨rfl, rfl, rfl, rfl⟩

theorem enterScope_alike (fs : FuncState) (breakable : Bool) :
    Alike fs (fs.enterScope breakable) :=
  ⟨rfl, rfl, rfl, rfl⟩

theorem patchBreaks_alike {a target : Nat} :
    ∀ {js : List Nat} {fs fs' : FuncState}, fs.patchBreaks a target js = .ok fs' → Alike fs fs'
  | [], _, _, h => by
    cases h
    exact .refl _
  | pc :: rest, fs, fs', h => by
    simp only [patchBreaks] at h
    obtain ⟨fs₁, h₁, h₂⟩ := except_bind_ok h
    obtain ⟨fs₂, h₃, h₄⟩ := except_bind_ok h₂
    exact (setJumpA_alike h₁).trans ((patchJump_alike h₃).trans (patchBreaks_alike h₄))

theorem closeOpenUpvals_alike {line : Nat} (h : fs.closeOpenUpvals line = .ok fs') :
    Alike fs fs' := by
  unfold closeOpenUpvals at h
  dsimp only at h
  split at h
  · exact emitAsBx_alike h
  · cases h
    exact .refl _

theorem addBreak_alike {line : Nat} (h : fs.addBreak line = .ok fs') : Alike fs fs' := by
  unfold addBreak at h
  split at h
  · cases h
  · obtain ⟨⟨fs₁, pc⟩, h₁, h₂⟩ := except_bind_ok h
    cases h₂
    -- recording the jump in the innermost loop changes only the loops
    exact (emitJump_alike h₁).trans ⟨rfl, rfl, rfl, rfl⟩

/-! ## Declaring and retiring locals -/

/-- The names of the active locals, in declaration order. -/
def localNames (fs : FuncState) : List String := fs.actives.toList.map (·.name)

theorem addLocal_ok {name : String} {line slot : Nat} (h : fs.addLocal name line = .ok (fs', slot)) :
    slot = fs.usedRegs ∧ fs'.usedRegs = fs.usedRegs + 1 ∧ fs'.slots = fs.slots ++ [fs.usedRegs] ∧
      fs'.localNames = fs.localNames ++ [name] ∧ fs'.protos = fs.protos ∧
      fs'.upvalues = fs.upvalues := by
  simp only [addLocal] at h
  obtain ⟨⟨fs₁, r⟩, h₁, h₂⟩ := except_bind_ok h
  obtain ⟨-, rfl, rfl⟩ := allocReg_ok h₁
  cases h₂
  exact ⟨rfl, rfl, by simp [slots], by simp [localNames], rfl, rfl⟩

/-- A local declared at the top of aligned registers takes the next one and keeps them
aligned. -/
theorem Aligned.addLocal {name : String} {line slot : Nat} (hal : fs.Aligned)
    (h : fs.addLocal name line = .ok (fs', slot)) : fs'.Aligned := by
  obtain ⟨-, hu, hs, -, -, -⟩ := addLocal_ok h
  rw [aligned_iff_slots] at hal ⊢
  rw [hs, hu, hal, List.range_succ]

/-- Retiring the top local of aligned registers gives its register back. -/
theorem Aligned.pop {l : ActiveLocal} {ls : Array LocalInfo} (hal : fs.Aligned)
    (hl : fs.actives.back? = some l) :
    ({ fs with actives := fs.actives.pop, locals := ls, usedRegs := l.slot } : FuncState).Aligned := by
  obtain ⟨hu, hs⟩ := hal
  rw [Array.back?_eq_getElem?] at hl
  have hsz : fs.actives.size - 1 < fs.actives.size := by
    rcases Nat.lt_or_ge (fs.actives.size - 1) fs.actives.size with h | h
    · exact h
    · rw [Array.getElem?_eq_none h] at hl
      cases hl
  have hl' : fs.actives[fs.actives.size - 1] = l := by
    rw [Array.getElem?_eq_getElem hsz] at hl
    exact Option.some.inj hl
  refine ⟨?_, fun i hi => ?_⟩
  · simp only [Array.size_pop]
    rw [← hl', hs _ hsz]
  · simp only [Array.getElem_pop]
    exact hs i (by simp only [Array.size_pop] at hi; omega)

theorem retireLocals_spec (endPc : Nat) :
    ∀ (fuel : Nat) (fs : FuncState), (fs.retireLocals endPc fuel).protos = fs.protos ∧
      (fs.retireLocals endPc fuel).upvalues = fs.upvalues ∧
      (fs.Aligned → (fs.retireLocals endPc fuel).Aligned)
  | 0, _ => ⟨rfl, rfl, id⟩
  | fuel + 1, fs => by
    unfold retireLocals
    split
    · rename_i l hl
      split
      · dsimp only
        have ih := retireLocals_spec endPc fuel { fs with
          actives := fs.actives.pop
          locals := fs.locals.modify l.record fun r => { r with endPc := endPc }
          usedRegs := l.slot }
        exact ⟨ih.1, ih.2.1, fun h => ih.2.2 (h.pop hl)⟩
      · exact ⟨rfl, rfl, id⟩
    · exact ⟨rfl, rfl, id⟩

/-- Closing a scope: its breaks are patched and its locals retired, which keeps alignment. -/
theorem exitScope_ok (h : fs.exitScope = .ok fs') :
    fs'.protos = fs.protos ∧ fs'.upvalues = fs.upvalues ∧ (fs.Aligned → fs'.Aligned) := by
  simp only [exitScope] at h
  obtain ⟨fs₁, h₁, h₂⟩ := except_bind_ok h
  cases h₂
  -- the breaks first: only code and loops change
  have ha₁ : Alike fs fs₁ := by
    unfold closeLoop at h₁
    split at h₁
    · split at h₁
      · dsimp only at h₁
        exact (⟨rfl, rfl, rfl, rfl⟩ : Alike fs { fs with loops := fs.loops.pop }).trans
          (patchBreaks_alike h₁)
      · cases h₁
        exact .refl _
    · cases h₁
      exact .refl _
  obtain ⟨hp, hu, hal⟩ := retireLocals_spec fs.pc fs₁.actives.size fs₁
  refine ⟨hp.trans ha₁.protos, hu.trans ha₁.upvalues, fun h => ?_⟩
  exact (hal (ha₁.aligned h)).of_slots rfl rfl

theorem allocRegs_ok {n line first : Nat} (h : fs.allocRegs n line = .ok (fs', first)) :
    first = fs.usedRegs ∧ fs'.usedRegs = fs.usedRegs + n ∧ fs'.actives = fs.actives ∧
      fs'.protos = fs.protos ∧ fs'.upvalues = fs.upvalues := by
  simp only [allocRegs] at h
  cases hg : allocRegs.go line fs n with
  | error e => rw [hg] at h; cases h
  | ok g =>
    rw [hg] at h
    cases h
    -- each step of the loop takes one register
    have hgo : ∀ k fs₀ fs₁, allocRegs.go line fs₀ k = .ok fs₁ →
        fs₁.usedRegs = fs₀.usedRegs + k ∧ fs₁.actives = fs₀.actives ∧ fs₁.protos = fs₀.protos ∧
          fs₁.upvalues = fs₀.upvalues := by
      intro k
      induction k with
      | zero => intro fs₀ fs₁ hk; cases hk; exact ⟨rfl, rfl, rfl, rfl⟩
      | succ k ih =>
        intro fs₀ fs₁ hk
        simp only [allocRegs.go] at hk
        obtain ⟨⟨fs₂, r⟩, h₁, h₂⟩ := except_bind_ok hk
        obtain ⟨-, -, rfl⟩ := allocReg_ok h₁
        have ih := ih _ _ h₂
        dsimp only at ih
        obtain ⟨hu, ha, hp, hv⟩ := ih
        exact ⟨by rw [hu]; omega, ha, hp, hv⟩
    exact ⟨rfl, hgo n fs _ hg⟩

end FuncState

/-! ## Statement steps -/

/-- The locals and the registers in use are as they were, and the enclosing functions are only
marked. -/
structure Balanced (c c' : Compiler) : Prop extends Keeps c c' where
  usedRegs : c'.fs.usedRegs = c.fs.usedRegs

/-- What a statement keeps: the enclosing functions are only marked, and registers aligned with
the locals before are aligned after. -/
structure StmtOk (c c' : Compiler) : Prop extends Nesting c c' where
  aligned : c.fs.Aligned → c'.fs.Aligned

namespace Balanced

variable {c c' c₁ c₂ c₃ : Compiler}

@[refl] theorem refl (c : Compiler) : Balanced c c := ⟨.refl c, rfl⟩

theorem trans (h₁ : Balanced c₁ c₂) (h₂ : Balanced c₂ c₃) : Balanced c₁ c₃ :=
  ⟨h₁.toKeeps.trans h₂.toKeeps, h₂.usedRegs.trans h₁.usedRegs⟩

theorem of_alike {fs' : FuncState} (h : c.fs.Alike fs') : Balanced c { c with fs := fs' } :=
  ⟨.of_fs (h.protos ▸ List.prefix_refl _) h.upvalues h.actives, h.usedRegs⟩

theorem aligned (h : Balanced c c') (hal : c.fs.Aligned) : c'.fs.Aligned :=
  hal.of_slots h.slots h.usedRegs

theorem stmtOk (h : Balanced c c') : StmtOk c c' := ⟨h.toNesting, h.aligned⟩

end Balanced

theorem ExprOk.balanced {a : Nat} {c c' : Compiler} (h : ExprOk a c c') : Balanced c c' :=
  ⟨h.toKeeps, h.usedRegs⟩

theorem Quiet.balanced {c c' : Compiler} (h : Quiet c c') : Balanced c c' := ⟨h.toKeeps, h.usedRegs⟩

namespace StmtOk

variable {c c₁ c₂ c₃ : Compiler}

@[refl] theorem refl (c : Compiler) : StmtOk c c := ⟨.refl c, id⟩

theorem trans (h₁ : StmtOk c₁ c₂) (h₂ : StmtOk c₂ c₃) : StmtOk c₁ c₃ :=
  ⟨h₁.toNesting.trans h₂.toNesting, h₂.aligned ∘ h₁.aligned⟩

end StmtOk

namespace Compiler

open Instruction

variable {c c' : Compiler} {line : Nat}

theorem updateFs_balanced {f : FuncState → Except Fault FuncState}
    (hf : ∀ fs', f c.fs = .ok fs' → c.fs.Alike fs') (h : (updateFs f).run c = .ok ((), c')) :
    Balanced c c' := by
  obtain ⟨fs', h₁, rfl⟩ := run_updateFs h
  exact .of_alike (hf fs' h₁)

theorem emitABC_balanced {op : Opcode} {a b x : Nat}
    (h : (emitABC op a b x line).run c = .ok ((), c')) : Balanced c c' :=
  updateFs_balanced (fun _ => FuncState.emitABC_alike) h

theorem emitJump_balanced {op : Opcode} {a pc : Nat}
    (h : (emitJump op a line).run c = .ok (pc, c')) : Balanced c c' := by
  obtain ⟨fs', h₁, rfl⟩ := run_onFs h
  exact .of_alike (FuncState.emitJump_alike h₁)

theorem patchJump_balanced {pc target : Nat} (h : (patchJump pc target).run c = .ok ((), c')) :
    Balanced c c' :=
  updateFs_balanced (fun _ => FuncState.patchJump_alike) h

theorem patchAll_balanced {target : Nat} :
    ∀ {jumps : List Nat} {c c' : Compiler}, (patchAll jumps target).run c = .ok ((), c') →
      Balanced c c'
  | [], _, _, h => by
    obtain ⟨-, rfl⟩ := run_pure_ok h
    exact .refl _
  | j :: rest, _, _, h => by
    obtain ⟨u, c₁, h₁, h₂⟩ := run_bind_ok h
    exact (patchJump_balanced h₁).trans (patchAll_balanced h₂)

theorem closeOpenUpvals_balanced (h : (updateFs (·.closeOpenUpvals line)).run c = .ok ((), c')) :
    Balanced c c' :=
  updateFs_balanced (fun _ => FuncState.closeOpenUpvals_alike) h

theorem addBreak_balanced (h : (updateFs (·.addBreak line)).run c = .ok ((), c')) :
    Balanced c c' :=
  updateFs_balanced (fun _ => FuncState.addBreak_alike) h

theorem enterScope_balanced {breakable : Bool}
    (h : (modifyFs (·.enterScope breakable)).run c = .ok ((), c')) : Balanced c c' := by
  rw [run_modifyFs h]
  exact .of_alike (FuncState.enterScope_alike _ _)

theorem exitScope_stmtOk (h : (updateFs FuncState.exitScope).run c = .ok ((), c')) :
    StmtOk c c' := by
  obtain ⟨fs', h₁, rfl⟩ := run_updateFs h
  obtain ⟨hp, hu, hal⟩ := FuncState.exitScope_ok h₁
  exact ⟨.of_fs (hp ▸ List.prefix_refl _) (.of_eq hu), hal⟩

/-! ## Locals -/

theorem addLocal_stmtOk {name : String} {r : Nat}
    (h : (onFs (·.addLocal name line)).run c = .ok (r, c')) :
    r = c.fs.usedRegs ∧ c'.fs.usedRegs = c.fs.usedRegs + 1 ∧ StmtOk c c' := by
  obtain ⟨fs', h₁, rfl⟩ := run_onFs h
  obtain ⟨rfl, hu, -, -, hp, hv⟩ := FuncState.addLocal_ok h₁
  exact ⟨rfl, hu, ⟨.of_fs (hp ▸ List.prefix_refl _) (.of_eq hv), fun hal => hal.addLocal h₁⟩⟩

/-- Declaring locals one after another: they follow the active locals, in order, each at the
next register, so alignment is kept. -/
theorem addLocals_spec :
    ∀ {names : List String} {c c' : Compiler}, (addLocals names line).run c = .ok ((), c') →
      ∃ fs', c' = { c with fs := fs' } ∧ fs'.localNames = c.fs.localNames ++ names ∧
        fs'.protos = c.fs.protos ∧ fs'.upvalues = c.fs.upvalues ∧ (c.fs.Aligned → fs'.Aligned)
  | [], _, _, h => by
    obtain ⟨-, rfl⟩ := run_pure_ok h
    exact ⟨_, rfl, by simp, rfl, rfl, id⟩
  | name :: rest, _, _, h => by
    obtain ⟨r, c₁, h₁, h₂⟩ := run_bind_ok h
    obtain ⟨fs₁, h₃, rfl⟩ := run_onFs h₁
    obtain ⟨-, -, -, hn, hp, hv⟩ := FuncState.addLocal_ok h₃
    obtain ⟨fs', rfl, hn', hp', hv', hal'⟩ := addLocals_spec h₂
    exact ⟨fs', rfl, by rw [hn', hn, List.append_assoc, List.singleton_append], hp'.trans hp,
      hv'.trans hv, fun hal => hal' (hal.addLocal h₃)⟩

theorem addLocals_stmtOk {names : List String} (h : (addLocals names line).run c = .ok ((), c')) :
    StmtOk c c' := by
  obtain ⟨fs', rfl, -, hp, hv, hal⟩ := addLocals_spec h
  exact ⟨.of_fs (hp ▸ List.prefix_refl _) (.of_eq hv), hal⟩

/-- Giving back every register above the mark a statement took at its start, after steps that
kept the locals: the registers are as they were. -/
theorem resetRegs_balanced {c₀ : Compiler} (hk : Keeps c₀ c)
    (h : (updateFs (·.resetRegs c₀.fs.usedRegs)).run c = .ok ((), c')) : Balanced c₀ c' := by
  obtain ⟨fs', h₁, rfl⟩ := run_updateFs h
  obtain ⟨-, rfl⟩ := FuncState.resetRegs_ok h₁
  exact ⟨hk.trans (.of_fs (List.prefix_refl _) rfl rfl), rfl⟩

theorem allocRegs_keeps {n first : Nat} (h : (onFs (·.allocRegs n line)).run c = .ok (first, c')) :
    first = c.fs.usedRegs ∧ c'.fs.usedRegs = c.fs.usedRegs + n ∧ Keeps c c' := by
  obtain ⟨fs', h₁, rfl⟩ := run_onFs h
  obtain ⟨rfl, hu, ha, hp, hv⟩ := FuncState.allocRegs_ok h₁
  exact ⟨rfl, hu, .of_fs (hp ▸ List.prefix_refl _) hv ha⟩

theorem fillNils_keeps {nVars kept : Nat} {filled : Bool}
    (h : (fillNils nVars kept filled line).run c = .ok ((), c')) : Keeps c c' := by
  unfold fillNils at h
  split at h
  · obtain ⟨first, c₁, h₁, h₂⟩ := run_bind_ok h
    exact (allocRegs_keeps h₁).2.2.trans (emitLoadNil_exprOk h₂ (Nat.zero_le _)).toKeeps
  · obtain ⟨-, rfl⟩ := run_pure_ok h
    exact .refl _

/-! ## Conditions and blocks -/

variable {compileCond : Nat → Int → CompileM Unit} {cond : Expr}

theorem testedReg_balanced {r : Nat} (hcond : ∀ n, Into fun r => compileCond r n)
    (h : (testedReg cond compileCond line).run c = .ok (r, c')) : Balanced c c' := by
  obtain ⟨o, c₁, h₁, h₂⟩ := run_bind_ok h
  have hq := (classify_classifies cond c c₁ o h₁).1
  refine hq.balanced.trans ?_
  split at h₂
  · obtain ⟨-, rfl⟩ := run_pure_ok h₂
    exact .refl _
  · obtain ⟨c₂, hc₂, h₃⟩ := temp_exprOk (hcond 1) (Nat.le_refl _) h₂
    obtain ⟨-, rfl⟩ := run_pure_ok h₃
    exact hc₂.balanced

/-- The test of a condition, with its jump left to be patched, takes no register for good. -/
theorem branchWith_balanced {j : Nat} (hcond : ∀ n, Into fun r => compileCond r n)
    (h : (branchWith cond compileCond).run c = .ok (j, c')) : Balanced c c' := by
  unfold branchWith at h
  split at h
  · obtain ⟨c₁, hc₁, h₂⟩ := temp_exprOk (hcond 0) (Nat.le_refl _) h
    obtain ⟨p, c₂, h₃, h₄⟩ := run_bind_ok h₂
    obtain ⟨-, rfl⟩ := pc_spec h₃
    obtain ⟨-, rfl⟩ := run_pure_ok h₄
    exact hc₁.balanced
  · obtain ⟨r, c₁, h₁, h₂⟩ := run_bind_ok h
    obtain ⟨u, c₂, h₃, h₄⟩ := run_bind_ok h₂
    exact (testedReg_balanced hcond h₁).trans
      ((emitTest_exprOk (a := 0) h₃ (.of_le (Nat.zero_le _))).balanced.trans (emitJump_balanced h₄))

theorem exitTest_balanced {exit : Option Nat} (hcond : ∀ n, Into fun r => compileCond r n)
    (h : (exitTest cond compileCond).run c = .ok (exit, c')) : Balanced c c' := by
  unfold exitTest at h
  split at h
  · obtain ⟨-, rfl⟩ := run_pure_ok h
    exact .refl _
  · obtain ⟨j, h₁, -⟩ := run_map_ok h
    exact branchWith_balanced hcond h₁

theorem exitJump_balanced {needed : Bool} {exit : Option Nat}
    (h : (exitJump needed line).run c = .ok (exit, c')) : Balanced c c' := by
  unfold exitJump at h
  split at h
  · obtain ⟨j, h₁, -⟩ := run_map_ok h
    exact emitJump_balanced h₁
  · obtain ⟨-, rfl⟩ := run_pure_ok h
    exact .refl _

variable {body : CompileM Unit}

/-- A block in a scope of its own keeps what its statements keep. -/
theorem scopedWith_stmtOk (hbody : ∀ c c', body.run c = .ok ((), c') → StmtOk c c')
    (h : (scopedWith body line).run c = .ok ((), c')) : StmtOk c c' := by
  obtain ⟨u, c₁, h₁, h₂⟩ := run_bind_ok h
  obtain ⟨u, c₂, h₃, h₄⟩ := run_bind_ok h₂
  obtain ⟨u, c₃, h₅, h₆⟩ := run_bind_ok h₄
  exact (enterScope_balanced h₁).stmtOk.trans ((hbody _ _ h₃).trans
    ((closeOpenUpvals_balanced h₅).stmtOk.trans (exitScope_stmtOk h₆)))

theorem whileWith_stmtOk (hcond : ∀ n, Into fun r => compileCond r n)
    (hbody : ∀ c c', body.run c = .ok ((), c') → StmtOk c c')
    (h : (whileWith cond compileCond body line).run c = .ok ((), c')) : StmtOk c c' := by
  obtain ⟨start, c₁, h₁, h₂⟩ := run_bind_ok h
  obtain ⟨-, rfl⟩ := pc_spec h₁
  obtain ⟨exit, c₂, h₃, h₄⟩ := run_bind_ok h₂
  obtain ⟨u, c₃, h₅, h₆⟩ := run_bind_ok h₄
  obtain ⟨u, c₄, h₇, h₈⟩ := run_bind_ok h₆
  obtain ⟨u, c₅, h₉, h₁₀⟩ := run_bind_ok h₈
  obtain ⟨back, c₆, h₁₁, h₁₂⟩ := run_bind_ok h₁₀
  obtain ⟨u, c₇, h₁₃, h₁₄⟩ := run_bind_ok h₁₂
  obtain ⟨u, c₈, h₁₅, h₁₆⟩ := run_bind_ok h₁₄
  -- the exit jump, when there is a test, is patched past the loop
  have hexit : Balanced c₈ c' := by
    split at h₁₆
    · obtain ⟨p, c₉, h₁₇, h₁₈⟩ := run_bind_ok h₁₆
      obtain ⟨-, rfl⟩ := pc_spec h₁₇
      exact patchJump_balanced h₁₈
    · obtain ⟨-, rfl⟩ := run_pure_ok h₁₆
      exact .refl _
  have hloop : Balanced c₄ c₇ := (closeOpenUpvals_balanced h₉).trans
    ((emitJump_balanced h₁₁).trans (patchJump_balanced h₁₃))
  exact ((exitTest_balanced hcond h₃).trans (enterScope_balanced h₅)).stmtOk.trans
    ((hbody _ _ h₇).trans (hloop.stmtOk.trans ((exitScope_stmtOk h₁₅).trans hexit.stmtOk)))

theorem untilTest_balanced {start : Nat} (hcond : ∀ n, Into fun r => compileCond r n)
    (h : (untilTest cond compileCond start).run c = .ok ((), c')) : Balanced c c' := by
  unfold untilTest at h
  split at h
  · obtain ⟨-, rfl⟩ := run_pure_ok h
    exact .refl _
  · obtain ⟨back, c₁, h₁, h₂⟩ := run_bind_ok h
    obtain ⟨a, c₂, h₃, h₄⟩ := run_bind_ok h₂
    obtain ⟨-, rfl⟩ := run_readFs h₃
    obtain ⟨u, c₃, h₅, h₆⟩ := run_bind_ok h₄
    exact (branchWith_balanced hcond h₁).trans ((updateFs_balanced
      (fun _ => FuncState.setJumpA_alike) h₅).trans (patchJump_balanced h₆))

theorem repeatWith_stmtOk (hcond : ∀ n, Into fun r => compileCond r n)
    (hbody : ∀ c c', body.run c = .ok ((), c') → StmtOk c c')
    (h : (repeatWith body cond compileCond line).run c = .ok ((), c')) : StmtOk c c' := by
  unfold repeatWith at h
  split at h
  rename_i cond' compileCond' hpair
  -- a `nil` condition is tested as the constant `false`
  have hcond' : ∀ n, Into fun r => compileCond' r n := by
    split at hpair
    · cases hpair
      exact fun _ _ _ _ _ he => emitLoadBool_exprOk he (Nat.le_refl _)
    · cases hpair
      exact hcond
  obtain ⟨u, c₁, h₁, h₂⟩ := run_bind_ok h
  obtain ⟨start, c₂, h₃, h₄⟩ := run_bind_ok h₂
  obtain ⟨-, rfl⟩ := pc_spec h₃
  obtain ⟨u, c₃, h₅, h₆⟩ := run_bind_ok h₄
  obtain ⟨u, c₄, h₇, h₈⟩ := run_bind_ok h₆
  obtain ⟨u, c₅, h₉, h₁₀⟩ := run_bind_ok h₈
  exact (enterScope_balanced h₁).stmtOk.trans ((hbody _ _ h₅).trans
    (((untilTest_balanced hcond' h₇).trans (closeOpenUpvals_balanced h₉)).stmtOk.trans
      (exitScope_stmtOk h₁₀)))

/-! ## Stores -/

/-- A store to a named field of a table, with the name as a constant or in a register above the
top, given back. -/
theorem storeField_balanced {op : Opcode} {table v : Nat} {name : String}
    (hop : op ≠ .closure) (h : (storeField op table name v line).run c = .ok ((), c')) :
    Balanced c c' :=
  (withNameKey_exprOk (a := 0) (fun _ _ _ _ _ he => emitABC_exprOk he fun hfit =>
    abc_elim hfit fun _ ho _ _ _ => .zero (ho ▸ hop)) (Nat.zero_le _) h).balanced

theorem store_balanced {t : Target} {v : Nat} (h : (store t v line).run c = .ok ((), c')) :
    Balanced c c' := by
  unfold store at h
  split at h
  · exact updateFs_balanced (fun _ => FuncState.emitABC_alike) h
  · exact emitABC_balanced h
  · exact emitABC_balanced h
  · obtain ⟨c₀, c₁, h₁, h₂⟩ := run_bind_ok h
    obtain ⟨rfl, rfl⟩ := run_get_ok h₁
    split at h₂
    · exact storeField_balanced (by decide) h₂
    · obtain ⟨idx, c₂, h₃, h₄⟩ := run_bind_ok h₂
      refine (resolveUpvalue_quiet h₃).balanced.trans ?_
      split at h₄
      · exact storeField_balanced (by decide) h₄
      · exact absurd h₄ run_throw_ne

theorem storeAll_balanced :
    ∀ {targets : List Target} {first : Nat} {c c' : Compiler},
      (storeAll targets first line).run c = .ok ((), c') → Balanced c c'
  | [], _, _, _, h => by
    obtain ⟨-, rfl⟩ := run_pure_ok h
    exact .refl _
  | t :: rest, _, _, _, h => by
    obtain ⟨u, c₁, h₁, h₂⟩ := run_bind_ok h
    exact (store_balanced h₁).trans (storeAll_balanced h₂)

theorem nameTarget_quiet {name : String} {t : Target}
    (h : (nameTarget name line).run c = .ok (t, c')) : Quiet c c' := by
  obtain ⟨c₀, c₁, h₁, h₂⟩ := run_bind_ok h
  obtain ⟨rfl, rfl⟩ := run_get_ok h₁
  split at h₂
  · obtain ⟨-, rfl⟩ := run_pure_ok h₂
    exact .refl _
  · obtain ⟨idx, c₂, h₃, h₄⟩ := run_bind_ok h₂
    refine (resolveUpvalue_quiet h₃).trans ?_
    split at h₄ <;>
    · obtain ⟨-, rfl⟩ := run_pure_ok h₄
      exact .refl _

theorem singleLocal_eq {values : List Expr} {slot : Option Nat}
    (h : (singleLocal values).run c = .ok (slot, c')) : c = c' := by
  unfold singleLocal at h
  split at h
  · exact (run_readFs h).2
  · exact (run_pure_ok h).2

/-! ## Dotted paths -/

theorem classifyRevPath_classifies : ∀ (revPath : List String), Classifies (classifyRevPath line revPath)
  | [p] => classifyName_classifies p line
  | [] | _ :: _ :: _ => fun c c' o h => by
    obtain ⟨rfl, rfl⟩ := run_pure_ok h
    exact ⟨.refl _, trivial⟩

/-- A dotted path into a register: its first name, then one index per later part. -/
theorem compileRevPath_into : ∀ (revPath : List String), Into (compileRevPath line revPath)
  | [] => fun _ _ _ _ h => by
    obtain ⟨-, rfl⟩ := run_pure_ok h
    exact .refl _ _
  | [_] => fun _ _ _ hr h => compileName_exprOk hr h
  | _ :: p :: rest => fun _ _ _ hr h =>
    indexWith_exprOk (classifyRevPath_classifies (p :: rest)) (compileRevPath_into (p :: rest))
      (constOperand_classifies _) (loadK_into _) hr h

end Compiler

end LuaBytecode
