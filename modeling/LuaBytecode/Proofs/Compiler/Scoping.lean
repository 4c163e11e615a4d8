import LuaBytecode.Proofs.Compiler.Lexical
/-!
# Every compiler step keeps names lexical

`Compiler.Scoped` (module `Lexical`) is an invariant of the whole compilation: it holds at the
start of a chunk, and every step of the compiler keeps it (`Stable Scoped`). Only three kinds of
step can touch what it reads: capturing a name (which adds upvalues, proved in `Lexical`),
entering a nested function and leaving it. Every other step changes the function being written
without touching its upvalues or prototypes (`FuncState.SameNesting`), and keeps the invariant
for that reason alone (`Stable.updateFs_nesting`).

The shapes of `Compiler.Emit` keep it when the parts they are given do; the recursion over the
syntax tree (`compileExpr_stable` and its companions) then gives it for every expression,
statement and block. A finished chunk names each upvalue of each prototype once
(`compile_upvaluesDistinct`).
-/

namespace LuaBytecode

namespace FuncState

variable {fs fs' : FuncState}

/-- `fs'` has the upvalues and the nested prototypes of `fs`. -/
structure SameNesting (fs fs' : FuncState) : Prop where
  upvalues : fs'.upvalues = fs.upvalues
  protos : fs'.protos = fs.protos

theorem SameNesting.refl (fs : FuncState) : SameNesting fs fs := ⟨rfl, rfl⟩

theorem SameNesting.trans {fs₁ fs₂ fs₃ : FuncState} (h₁ : SameNesting fs₁ fs₂)
    (h₂ : SameNesting fs₂ fs₃) : SameNesting fs₁ fs₃ :=
  ⟨h₂.upvalues.trans h₁.upvalues, h₂.protos.trans h₁.protos⟩

theorem Alike.nesting (h : Alike fs fs') : SameNesting fs fs' := ⟨h.upvalues, h.protos⟩

theorem emit'_nesting (fs : FuncState) (i : Instruction) (line : Nat) :
    SameNesting fs (fs.emit' i line) :=
  ⟨rfl, rfl⟩

theorem addConstant_nesting (fs : FuncState) (k : Constant) : SameNesting fs (fs.addConstant k).1 :=
  ⟨by simp, by simp⟩

theorem emitABC_nesting {op : Opcode} {a b c line : Nat} (h : fs.emitABC op a b c line = .ok fs') :
    SameNesting fs fs' :=
  (emitABC_alike h).nesting

theorem emitABx_nesting {op : Opcode} {a bx line : Nat} (h : fs.emitABx op a bx line = .ok fs') :
    SameNesting fs fs' := by
  obtain ⟨-, rfl⟩ := emitABx_ok h
  exact emit'_nesting _ _ _

theorem emitAx_nesting {op : Opcode} {x line : Nat} (h : fs.emitAx op x line = .ok fs') :
    SameNesting fs fs' := by
  rw [emitAx_ok h]
  exact emit'_nesting _ _ _

theorem emitLoadNil_nesting {a n line : Nat} (h : fs.emitLoadNil a n line = .ok fs') :
    SameNesting fs fs' := by
  unfold emitLoadNil at h
  split at h
  · cases h
  · exact emitABC_nesting h

theorem emitLoadK_nesting {a line : Nat} {k : Constant} (h : fs.emitLoadK a k line = .ok fs') :
    SameNesting fs fs' := by
  unfold emitLoadK at h
  have hk := addConstant_nesting fs k
  rcases hfk : fs.addConstant k with ⟨fs₁, idx⟩
  rw [hfk] at h hk
  dsimp only at h hk
  split at h
  · exact hk.trans (emitABx_nesting h)
  · obtain ⟨fs₂, h₁, h₂⟩ := except_bind_ok h
    exact (hk.trans (emitABx_nesting h₁)).trans (emitAx_nesting h₂)

theorem emitSetList_nesting {a n batch line : Nat} (h : fs.emitSetList a n batch line = .ok fs') :
    SameNesting fs fs' := by
  unfold emitSetList at h
  split at h
  · exact emitABC_nesting h
  · obtain ⟨fs₁, h₁, h₂⟩ := except_bind_ok h
    exact (emitABC_nesting h₁).trans (emitAx_nesting h₂)

theorem allocReg_nesting {line r : Nat} (h : fs.allocReg line = .ok (fs', r)) : SameNesting fs fs' := by
  obtain ⟨-, -, rfl⟩ := allocReg_ok h
  exact ⟨rfl, rfl⟩

theorem allocRegs_nesting {n line first : Nat} (h : fs.allocRegs n line = .ok (fs', first)) :
    SameNesting fs fs' := by
  obtain ⟨-, -, -, hp, hu⟩ := allocRegs_ok h
  exact ⟨hu, hp⟩

theorem freeReg_nesting (h : fs.freeReg = .ok fs') : SameNesting fs fs' := by
  obtain ⟨-, rfl⟩ := freeReg_ok h
  exact ⟨rfl, rfl⟩

theorem freeRegs_nesting {n : Nat} (h : fs.freeRegs n = .ok fs') : SameNesting fs fs' := by
  obtain ⟨-, rfl⟩ := freeRegs_ok h
  exact ⟨rfl, rfl⟩

theorem resetRegs_nesting {mark : Nat} (h : fs.resetRegs mark = .ok fs') : SameNesting fs fs' := by
  obtain ⟨-, rfl⟩ := resetRegs_ok h
  exact ⟨rfl, rfl⟩

theorem exitScope_nesting (h : fs.exitScope = .ok fs') : SameNesting fs fs' := by
  obtain ⟨hp, hu, -⟩ := exitScope_ok h
  exact ⟨hu, hp⟩

theorem addLocal_nesting {name : String} {line slot : Nat} (h : fs.addLocal name line = .ok (fs', slot)) :
    SameNesting fs fs' := by
  obtain ⟨-, -, -, -, hp, hu⟩ := addLocal_ok h
  exact ⟨hu, hp⟩

end FuncState

namespace Compiler

variable {α β : Type} {c c' : Compiler} {line : Nat}

/-! ## Steps on the function being written -/

/-- A step that leaves the function's upvalues and prototypes alone keeps the invariant. -/
theorem Stable.onFs_nesting {f : FuncState → Except Fault (FuncState × α)}
    (h : ∀ fs fs' x, f fs = .ok (fs', x) → FuncState.SameNesting fs fs') :
    Stable Scoped (Compiler.onFs f) :=
  Stable.onFs fun _ _ _ hs hf => hs.setFs_same (h _ _ _ hf).upvalues (h _ _ _ hf).protos

theorem Stable.updateFs_nesting {f : FuncState → Except Fault FuncState}
    (h : ∀ fs fs', f fs = .ok fs' → FuncState.SameNesting fs fs') :
    Stable Scoped (Compiler.updateFs f) :=
  Stable.updateFs fun _ _ hs hf => hs.setFs_same (h _ _ hf).upvalues (h _ _ hf).protos

theorem Stable.modifyFs_nesting {f : FuncState → FuncState}
    (h : ∀ fs, FuncState.SameNesting fs (f fs)) : Stable Scoped (Compiler.modifyFs f) :=
  Stable.modifyFs fun _ hs => hs.setFs_same (h _).upvalues (h _).protos

theorem alloc_stable : Stable Scoped (alloc line) :=
  .onFs_nesting fun _ _ _ => FuncState.allocReg_nesting

theorem free_stable : Stable Scoped free :=
  .updateFs_nesting fun _ _ => FuncState.freeReg_nesting

theorem freeN_stable {n : Nat} : Stable Scoped (freeN n) :=
  .updateFs_nesting fun _ _ => FuncState.freeRegs_nesting

theorem emitABC_stable {op : Opcode} {a b x : Nat} : Stable Scoped (emitABC op a b x line) :=
  .updateFs_nesting fun _ _ => FuncState.emitABC_nesting

theorem emitJump_stable {op : Opcode} {a : Nat} : Stable Scoped (emitJump op a line) :=
  .onFs_nesting fun _ _ _ h => (FuncState.emitJump_alike h).nesting

theorem patchJump_stable {pc target : Nat} : Stable Scoped (patchJump pc target) :=
  .updateFs_nesting fun _ _ h => (FuncState.patchJump_alike h).nesting

theorem patchAll_stable {target : Nat} : ∀ {jumps : List Nat}, Stable Scoped (patchAll jumps target)
  | [] => .pure _
  | _ :: _ => patchJump_stable.bind fun _ => patchAll_stable

theorem addConstant_stable {k : Constant} : Stable Scoped (addConstant k) :=
  .onFs_nesting fun fs fs' _ h => by
    have hfs : fs' = (fs.addConstant k).1 := by rw [Except.ok.inj h]
    rw [hfs]
    exact FuncState.addConstant_nesting fs k

theorem constOperand_stable {k : Constant} : Stable Scoped (constOperand k) :=
  addConstant_stable.bind fun _ => .pure _

theorem emitMove_stable {a b : Nat} : Stable Scoped (updateFs (·.emitMove a b line)) :=
  .updateFs_nesting fun _ _ => FuncState.emitABC_nesting

theorem emitLoadK_stable {a : Nat} {k : Constant} : Stable Scoped (updateFs (·.emitLoadK a k line)) :=
  .updateFs_nesting fun _ _ => FuncState.emitLoadK_nesting

theorem enterScope_stable {breakable : Bool} : Stable Scoped (modifyFs (·.enterScope breakable)) :=
  .modifyFs_nesting fun fs => (FuncState.enterScope_alike fs _).nesting

theorem closeOpenUpvals_stable : Stable Scoped (updateFs (·.closeOpenUpvals line)) :=
  .updateFs_nesting fun _ _ h => (FuncState.closeOpenUpvals_alike h).nesting

theorem exitScope_stable : Stable Scoped (updateFs FuncState.exitScope) :=
  .updateFs_nesting fun _ _ => FuncState.exitScope_nesting

theorem resetRegs_stable {mark : Nat} : Stable Scoped (updateFs (·.resetRegs mark)) :=
  .updateFs_nesting fun _ _ => FuncState.resetRegs_nesting

/-! ## Looking names up -/

theorem resolveUpvalue_stable {name : String} : Stable Scoped (resolveUpvalue name line) :=
  fun _ _ _ hs h => (resolveUpvalue_lexical hs h).1

theorem byName_stable {name : String} {onLocal onUpval : Nat → CompileM α} {onGlobal : CompileM α}
    (hl : ∀ r, Stable Scoped (onLocal r)) (hu : ∀ idx, Stable Scoped (onUpval idx))
    (hg : Stable Scoped onGlobal) : Stable Scoped (byName name line onLocal onUpval onGlobal) := by
  intro c c' x hs h
  rcases byName_lexical hs h with ⟨r, -, h'⟩ | ⟨idx, c₁, hs₁, -, -, h'⟩ | ⟨-, h'⟩
  · exact hl r c c' x hs h'
  · exact hu idx c₁ c' x hs₁ h'
  · exact hg c c' x hs h'

theorem classifyName_stable {name : String} : Stable Scoped (classifyName name line) := by
  rw [classifyName_eq]
  exact byName_stable (fun _ => .pure _) (fun _ => .pure _) (addConstant_stable.bind fun _ => .pure _)

theorem nameTarget_stable {name : String} : Stable Scoped (nameTarget name line) := by
  rw [nameTarget_eq]
  exact byName_stable (fun _ => .pure _) (fun _ => .pure _) (.pure _)

theorem classify_stable (e : Expr) : Stable Scoped (classify e) := by
  unfold classify
  split
  · exact constOperand_stable
  · exact classifyName_stable
  · exact .pure _

theorem compileEnv_stable {a : Nat} : Stable Scoped (compileEnv a line) := by
  rw [← compileName_env, compileName_eq]
  exact byName_stable (fun _ => emitMove_stable) (fun _ => emitABC_stable) (.throw _)


/-! ## Operands and reads -/

section Parts

variable {op tableOp keyOp : CompileM Operand} {compile compileTable compileKey : Nat → CompileM Unit}
  {a : Nat}

theorem rkOrInto_stable {taken : Bool} (hop : Stable Scoped op) (hc : ∀ r, Stable Scoped (compile r)) :
    Stable Scoped (rkOrInto op compile a line taken) := by
  unfold rkOrInto
  refine hop.bind fun o => ?_
  split
  · exact .pure _
  · split
    · exact alloc_stable.bind fun tmp => (hc tmp).bind fun _ => free_stable.bind fun _ => .pure _
    · exact (hc a).bind fun _ => .pure _

theorem tableIn_stable {t : Operand} (hc : ∀ r, Stable Scoped (compileTable r)) :
    Stable Scoped (tableIn t compileTable a) := by
  unfold tableIn
  split
  · exact .pure _
  · exact .pure _
  · exact (hc a).bind fun _ => .pure _

theorem indexWith_stable (ht : Stable Scoped tableOp) (hct : ∀ r, Stable Scoped (compileTable r))
    (hk : Stable Scoped keyOp) (hck : ∀ r, Stable Scoped (compileKey r)) :
    Stable Scoped (indexWith tableOp compileTable keyOp compileKey a line) := by
  unfold indexWith
  refine ht.bind fun t => (tableIn_stable hct).bind fun ⟨tab, inA⟩ => ?_
  exact (rkOrInto_stable hk hck).bind fun _ => emitABC_stable

theorem compileName_stable {name : String} : Stable Scoped (compileName name a line) := by
  rw [compileName_eq]
  refine byName_stable (fun _ => emitMove_stable) (fun _ => emitABC_stable) ?_
  split
  · exact .throw _
  · exact indexWith_stable classifyName_stable (fun _ => compileEnv_stable) constOperand_stable
      fun _ => emitLoadK_stable

theorem rkOrTemp_stable (hop : Stable Scoped op) (hc : ∀ r, Stable Scoped (compile r)) :
    Stable Scoped (rkOrTemp op compile line) := by
  unfold rkOrTemp
  refine hop.bind fun o => ?_
  split
  · exact .pure _
  · exact alloc_stable.bind fun tmp => (hc tmp).bind fun _ => .pure _

theorem rkOrTarget_stable (hop : Stable Scoped op) (hc : ∀ r, Stable Scoped (compile r)) :
    Stable Scoped (rkOrTarget op compile a) := by
  unfold rkOrTarget
  refine hop.bind fun o => ?_
  split
  · exact .pure _
  · exact (hc a).bind fun _ => .pure _

theorem regOrTarget_stable (hop : Stable Scoped op) (hc : ∀ r, Stable Scoped (compile r)) :
    Stable Scoped (regOrTarget op compile a) := by
  unfold regOrTarget
  refine hop.bind fun o => ?_
  split
  · exact .pure _
  · exact (hc a).bind fun _ => .pure _

end Parts


/-! ## Expression shapes -/

section Shapes

variable {lhsOp rhsOp : CompileM Operand} {compileLhs compileRhs : Nat → CompileM Unit} {a : Nat}

theorem operandsWith_stable (hl : Stable Scoped lhsOp) (hcl : ∀ r, Stable Scoped (compileLhs r))
    (hr : Stable Scoped rhsOp) (hcr : ∀ r, Stable Scoped (compileRhs r)) :
    Stable Scoped (operandsWith lhsOp compileLhs rhsOp compileRhs a line) := by
  unfold operandsWith
  exact (rkOrTarget_stable hl hcl).bind fun ⟨_, _⟩ => (rkOrInto_stable hr hcr).bind fun _ => .pure _

theorem compareWith_stable {op : BinOp} {operands : CompileM (Nat × Nat)} {cond : Bool}
    (ho : Stable Scoped operands) : Stable Scoped (compareWith op operands a cond line) := by
  unfold compareWith
  refine ho.bind fun ⟨b, x⟩ => ?_
  split
  dsimp only
  split
  · exact emitABC_stable.bind fun _ => emitJump_stable.bind fun _ => .pure _
  · exact emitABC_stable.bind fun _ => (Stable.updateFs_nesting fun _ _ h =>
      (FuncState.emitAsBx_alike h).nesting).bind fun _ =>
        (Stable.updateFs_nesting fun _ _ => FuncState.emitABC_nesting).bind fun _ =>
          Stable.updateFs_nesting fun _ _ => FuncState.emitABC_nesting

theorem testInto_stable {x : Nat} (hl : Stable Scoped lhsOp) (hcl : ∀ r, Stable Scoped (compileLhs r)) :
    Stable Scoped (testInto lhsOp compileLhs a x line) := by
  unfold testInto
  refine hl.bind fun o => ?_
  split
  · exact emitABC_stable
  · exact (hcl a).bind fun _ => Stable.updateFs_nesting fun _ _ => FuncState.emitABC_nesting

theorem logicalWith_stable {isOr : Bool} (hl : Stable Scoped lhsOp)
    (hcl : ∀ r, Stable Scoped (compileLhs r)) (hcr : ∀ r, Stable Scoped (compileRhs r)) :
    Stable Scoped (logicalWith isOr lhsOp compileLhs compileRhs a line) := by
  unfold logicalWith
  exact (testInto_stable hl hcl).bind fun _ => emitJump_stable.bind fun _ =>
    (hcr a).bind fun _ => Stable.pc.bind fun _ => patchJump_stable

theorem intoFresh_stable : ∀ {parts : List (Nat → CompileM Unit)},
    (∀ p ∈ parts, ∀ r, Stable Scoped (p r)) → Stable Scoped (intoFresh line parts)
  | [], _ => .pure _
  | p :: _, h => alloc_stable.bind fun tmp =>
    (h p List.mem_cons_self tmp).bind fun _ => intoFresh_stable fun q hq => h q (List.mem_cons_of_mem _ hq)


theorem concatWith_stable {parts : List (Nat → CompileM Unit)}
    (h : ∀ p ∈ parts, ∀ r, Stable Scoped (p r)) : Stable Scoped (concatWith parts a line) := by
  unfold concatWith
  refine (Stable.readFs _).bind fun _ => .guard ?_
  cases parts with
  | nil => exact .pure _
  | cons first rest =>
    exact (h first List.mem_cons_self a).bind fun _ =>
      (intoFresh_stable fun q hq => h q (List.mem_cons_of_mem _ hq)).bind fun _ =>
        freeN_stable.bind fun _ => emitABC_stable


theorem powOperands_stable :
    ∀ {parts : List (CompileM Operand × (Nat → CompileM Unit))} {i : Nat} {inA : Option Nat}
      {temps : Nat}, (∀ p ∈ parts, Stable Scoped p.1 ∧ ∀ r, Stable Scoped (p.2 r)) →
      Stable Scoped (powOperands a line parts i inA temps)
  | [], _, _, _, _ => .pure _
  | (op, compile) :: rest, i, inA, temps, h => by
    have hp := h (op, compile) List.mem_cons_self
    have ih : ∀ {i : Nat} {inA : Option Nat} {temps : Nat},
        Stable Scoped (powOperands a line rest i inA temps) :=
      powOperands_stable fun p hp => h p (List.mem_cons_of_mem _ hp)
    unfold powOperands
    refine hp.1.bind fun o => ?_
    split
    · exact ih.bind fun _ => .pure _
    · split
      · exact (hp.2 a).bind fun _ => ih.bind fun _ => .pure _
      · exact alloc_stable.bind fun tmp => (hp.2 tmp).bind fun _ => ih.bind fun _ => .pure _

theorem powDest_stable {useScratch : Bool} {scratch : Option Nat} :
    Stable Scoped (powDest a line useScratch scratch) := by
  unfold powDest
  split
  · split
    · exact .pure _
    · exact alloc_stable.bind fun _ => .pure _
  · exact .pure _

theorem powFold_stable {operands : Array Nat} {inA : Option Nat} :
    ∀ {is : List Nat} {acc : Nat} {scratch : Option Nat},
      Stable Scoped (powFold operands inA a line is acc scratch)
  | [], _, _ => .pure _
  | _ :: _, _, _ => by
    unfold powFold
    exact powDest_stable.bind fun _ => emitABC_stable.bind fun _ => powFold_stable

theorem powWith_stable {parts : List (CompileM Operand × (Nat → CompileM Unit))}
    (h : ∀ p ∈ parts, Stable Scoped p.1 ∧ ∀ r, Stable Scoped (p.2 r)) :
    Stable Scoped (powWith parts a line) := by
  unfold powWith
  exact (powOperands_stable h).bind fun _ => powFold_stable.bind fun _ => freeN_stable

theorem callWith_stable {callee : CompileM Nat} {args : CompileM Bool} {argCount : Nat} {n : Int}
    {tail : Bool} (hcallee : Stable Scoped callee) (hargs : Stable Scoped args) :
    Stable Scoped (callWith callee args argCount a n tail line) := by
  unfold callWith
  refine (Stable.readFs _).bind fun _ => .guard ?_
  refine hcallee.bind fun _ => hargs.bind fun _ => freeN_stable.bind fun _ => ?_
  dsimp only
  cases tail
  · exact .updateFs_nesting fun _ _ => FuncState.emitABC_nesting
  · exact .updateFs_nesting fun _ _ => FuncState.emitABC_nesting

theorem withNameKey_stable {name : String} {emit : Nat → CompileM Unit}
    (he : ∀ k, Stable Scoped (emit k)) : Stable Scoped (withNameKey name line emit) := by
  unfold withNameKey
  refine addConstant_stable.bind fun _ => ?_
  split
  · exact he _
  · exact alloc_stable.bind fun k => emitLoadK_stable.bind fun _ => (he k).bind fun _ => free_stable

theorem methodWith_stable {objOp : CompileM Operand} {compileObj : Nat → CompileM Unit}
    {name : String} (hop : Stable Scoped objOp) (hc : ∀ r, Stable Scoped (compileObj r)) :
    Stable Scoped (methodWith objOp compileObj name a line) := by
  unfold methodWith
  exact (regOrTarget_stable hop hc).bind fun _ => alloc_stable.bind fun _ =>
    (withNameKey_stable fun _ => emitABC_stable).bind fun _ => .guard (.pure _)

theorem entryWith_stable {keyOp valOp : CompileM Operand} {compileKey compileVal : Nat → CompileM Unit}
    (hk : Stable Scoped keyOp) (hck : ∀ r, Stable Scoped (compileKey r)) (hv : Stable Scoped valOp)
    (hcv : ∀ r, Stable Scoped (compileVal r)) :
    Stable Scoped (entryWith keyOp compileKey valOp compileVal a line) := by
  unfold entryWith
  exact (rkOrTemp_stable hk hck).bind fun ⟨_, _⟩ => (rkOrTemp_stable hv hcv).bind fun ⟨_, _⟩ =>
    freeN_stable.bind fun _ => emitABC_stable

end Shapes


/-! ## Statement shapes -/

section Statements

variable {cond : Expr} {compileCond : Nat → Int → CompileM Unit} {body : CompileM Unit}

theorem scopedWith_stable (hb : Stable Scoped body) : Stable Scoped (scopedWith body line) := by
  unfold scopedWith
  exact enterScope_stable.bind fun _ => hb.bind fun _ => closeOpenUpvals_stable.bind fun _ =>
    exitScope_stable

theorem testedReg_stable (hc : ∀ r n, Stable Scoped (compileCond r n)) :
    Stable Scoped (testedReg cond compileCond line) := by
  unfold testedReg
  refine (classify_stable cond).bind fun o => ?_
  split
  · exact .pure _
  · exact alloc_stable.bind fun tmp => (hc tmp 1).bind fun _ => free_stable.bind fun _ => .pure _

theorem branchWith_stable (hc : ∀ r n, Stable Scoped (compileCond r n)) :
    Stable Scoped (branchWith cond compileCond) := by
  unfold branchWith
  split
  · exact alloc_stable.bind fun tmp => (hc tmp 0).bind fun _ => free_stable.bind fun _ =>
      Stable.pc.bind fun _ => .pure _
  · exact (testedReg_stable hc).bind fun _ =>
      (Stable.updateFs_nesting fun _ _ => FuncState.emitABC_nesting).bind fun _ => emitJump_stable

theorem exitTest_stable (hc : ∀ r n, Stable Scoped (compileCond r n)) :
    Stable Scoped (exitTest cond compileCond) := by
  unfold exitTest
  split
  · exact .pure _
  · exact (branchWith_stable hc).map

theorem whileWith_stable (hc : ∀ r n, Stable Scoped (compileCond r n)) (hb : Stable Scoped body) :
    Stable Scoped (whileWith cond compileCond body line) := by
  unfold whileWith
  refine Stable.pc.bind fun _ => (exitTest_stable hc).bind fun exit => enterScope_stable.bind fun _ =>
    hb.bind fun _ => closeOpenUpvals_stable.bind fun _ => emitJump_stable.bind fun _ =>
      patchJump_stable.bind fun _ => exitScope_stable.bind fun _ => ?_
  cases exit with
  | some j => exact Stable.pc.bind fun _ => patchJump_stable
  | none => exact .pure _

theorem untilTest_stable {start : Nat} (hc : ∀ r n, Stable Scoped (compileCond r n)) :
    Stable Scoped (untilTest cond compileCond start) := by
  unfold untilTest
  split
  · exact .pure _
  · exact (branchWith_stable hc).bind fun _ => (Stable.readFs _).bind fun _ =>
      (Stable.updateFs_nesting fun _ _ h => (FuncState.setJumpA_alike h).nesting).bind fun _ =>
        patchJump_stable

theorem repeatWith_stable (hb : Stable Scoped body) (hc : ∀ r n, Stable Scoped (compileCond r n)) :
    Stable Scoped (repeatWith body cond compileCond line) := by
  unfold repeatWith
  have hloop : ∀ (cond' : Expr) (compileCond' : Nat → Int → CompileM Unit),
      (∀ r n, Stable Scoped (compileCond' r n)) →
      Stable Scoped (do
        modifyFs (·.enterScope true)
        let start ← pc
        body
        untilTest cond' compileCond' start
        updateFs (·.closeOpenUpvals line)
        updateFs FuncState.exitScope) := fun _ _ hc' =>
    enterScope_stable.bind fun _ => Stable.pc.bind fun _ => hb.bind fun _ =>
      (untilTest_stable hc').bind fun _ => closeOpenUpvals_stable.bind fun _ => exitScope_stable
  split
  rename_i cond' compileCond' heq
  refine hloop cond' compileCond' ?_
  -- a `nil` condition is compiled as `false`
  split at heq
  · cases heq
    exact fun _ _ => .updateFs_nesting fun _ _ => FuncState.emitABC_nesting
  · cases heq
    exact hc

theorem exitJump_stable {needed : Bool} : Stable Scoped (exitJump needed line) := by
  unfold exitJump
  split
  · exact emitJump_stable.map
  · exact .pure _

theorem singleLocal_stable {values : List Expr} : Stable Scoped (singleLocal values) := by
  unfold singleLocal
  split
  · exact .readFs _
  · exact .pure _

theorem fillNils_stable {nVars kept : Nat} {filled : Bool} :
    Stable Scoped (fillNils nVars kept filled line) := by
  unfold fillNils
  split
  · exact (Stable.onFs_nesting fun _ _ _ => FuncState.allocRegs_nesting).bind fun _ =>
      .updateFs_nesting fun _ _ => FuncState.emitLoadNil_nesting
  · exact .pure _

theorem addLocal_stable {name : String} : Stable Scoped (onFs (·.addLocal name line)) :=
  .onFs_nesting fun _ _ _ => FuncState.addLocal_nesting

theorem addLocals_stable : ∀ {names : List String}, Stable Scoped (addLocals names line)
  | [] => .pure _
  | _ :: _ => addLocal_stable.bind fun _ => addLocals_stable

theorem storeField_stable {op : Opcode} {table v : Nat} {name : String} :
    Stable Scoped (storeField op table name v line) :=
  withNameKey_stable fun _ => emitABC_stable

theorem store_stable {t : Target} {v : Nat} : Stable Scoped (store t v line) := by
  cases t with
  | «local» slot => exact emitMove_stable
  | upval idx => exact emitABC_stable
  | global name =>
    rw [store_global_eq]
    exact byName_stable (fun _ => storeField_stable) (fun _ => storeField_stable) (.throw _)
  | indexed table key => exact emitABC_stable

theorem storeAll_stable : ∀ {targets : List Target} {first : Nat},
    Stable Scoped (storeAll targets first line)
  | [], _ => .pure _
  | _ :: _, _ => store_stable.bind fun _ => storeAll_stable

theorem classifyRevPath_stable : ∀ {revPath : List String},
    Stable Scoped (classifyRevPath line revPath)
  | [] => .pure _
  | [_] => classifyName_stable
  | _ :: _ :: _ => .pure _

theorem compileRevPath_stable : ∀ {revPath : List String} {a : Nat},
    Stable Scoped (compileRevPath line revPath a)
  | [], _ => .pure _
  | [_], _ => compileName_stable
  | _ :: _ :: _, _ => indexWith_stable classifyRevPath_stable (fun _ => compileRevPath_stable)
      constOperand_stable fun _ => emitLoadK_stable

theorem localWith_stable {names : List String} {kept : Nat} {adjust : CompileM Bool}
    (ha : Stable Scoped adjust) : Stable Scoped (localWith names kept adjust line) := by
  unfold localWith
  exact (Stable.readFs _).bind fun _ => ha.bind fun _ => fillNils_stable.bind fun _ =>
    resetRegs_stable.bind fun _ => addLocals_stable

theorem assignWith_stable {resolve : CompileM (List Target)} {nTargets kept : Nat}
    {adjust : CompileM Bool} (hr : Stable Scoped resolve) (ha : Stable Scoped adjust) :
    Stable Scoped (assignWith resolve nTargets kept adjust line) := by
  unfold assignWith
  exact (Stable.readFs _).bind fun _ => hr.bind fun _ => (Stable.readFs _).bind fun _ =>
    ha.bind fun _ => fillNils_stable.bind fun _ => storeAll_stable.bind fun _ => resetRegs_stable

theorem callStmtWith_stable {e : Expr} {compile : Nat → Int → CompileM Unit}
    (hc : ∀ r n, Stable Scoped (compile r n)) : Stable Scoped (callStmtWith e compile) := by
  unfold callStmtWith
  split
  · exact alloc_stable.bind fun tmp => (hc tmp 0).bind fun _ => free_stable
  · exact .throw _

theorem clauseWith_stable {bodyLine : Nat} {needed : Bool} (hc : ∀ r n, Stable Scoped (compileCond r n))
    (hb : Stable Scoped body) : Stable Scoped (clauseWith cond compileCond body bodyLine needed) := by
  unfold clauseWith
  exact (branchWith_stable hc).bind fun _ => (scopedWith_stable hb).bind fun _ =>
    exitJump_stable.bind fun _ => Stable.pc.bind fun _ => patchJump_stable.bind fun _ => .pure _

theorem ifWith_stable {first : CompileM (Option Nat)} {rest : CompileM (List Nat)}
    {elseBody : CompileM Unit} (hf : Stable Scoped first) (hr : Stable Scoped rest)
    (he : Stable Scoped elseBody) : Stable Scoped (ifWith first rest elseBody) := by
  unfold ifWith
  exact hf.bind fun _ => hr.bind fun _ => he.bind fun _ => Stable.pc.bind fun _ => patchAll_stable

theorem numericForWith_stable {var : String} {control : CompileM Unit} (hc : Stable Scoped control)
    (hb : Stable Scoped body) : Stable Scoped (numericForWith var control body line) := by
  unfold numericForWith
  exact enterScope_stable.bind fun _ => (localWith_stable (hc.bind fun _ => .pure _)).bind fun _ =>
    (Stable.readFs _).bind fun _ => addLocals_stable.bind fun _ => emitJump_stable.bind fun _ =>
      hb.bind fun _ => closeOpenUpvals_stable.bind fun _ => emitJump_stable.bind fun _ =>
        patchJump_stable.bind fun _ => patchJump_stable.bind fun _ => exitScope_stable

theorem genericForWith_stable {vars : List String} {kept : Nat} {adjust : CompileM Bool}
    (ha : Stable Scoped adjust) (hb : Stable Scoped body) :
    Stable Scoped (genericForWith vars kept adjust body line) := by
  unfold genericForWith
  exact enterScope_stable.bind fun _ => (localWith_stable ha).bind fun _ =>
    (Stable.readFs _).bind fun _ => addLocals_stable.bind fun _ => emitJump_stable.bind fun _ =>
      hb.bind fun _ => closeOpenUpvals_stable.bind fun _ => Stable.pc.bind fun _ =>
        patchJump_stable.bind fun _ => emitABC_stable.bind fun _ => emitJump_stable.bind fun _ =>
          patchJump_stable.bind fun _ => exitScope_stable

theorem functionDefWith_stable {path : List String} {method : Option String}
    {compileBody : Nat → Bool → CompileM Unit} (hb : ∀ r m, Stable Scoped (compileBody r m)) :
    Stable Scoped (functionDefWith path method compileBody line) := by
  unfold functionDefWith
  split
  · exact .throw _
  · exact (Stable.readFs _).bind fun _ => nameTarget_stable.bind fun _ => alloc_stable.bind fun v =>
      (hb v false).bind fun _ => store_stable.bind fun _ => resetRegs_stable
  · exact (Stable.readFs _).bind fun _ => alloc_stable.bind fun _ => compileRevPath_stable.bind fun _ =>
      alloc_stable.bind fun v => (hb v _).bind fun _ => storeField_stable.bind fun _ => resetRegs_stable

end Statements


/-! ## Nested functions -/

/-- A finished function whose upvalues have distinct names, and whose own nested prototypes name
theirs once, is a prototype that names each upvalue once, at every depth. -/
theorem finish_every {fs : FuncState} {lastLine : Nat} {p : Proto}
    (hd : (fs.upvalues.toList.map Prod.fst).Nodup)
    (hp : ∀ q ∈ fs.protos, q.Every Proto.UpvaluesDistinct) (h : fs.finish lastLine = .ok p) :
    p.Every Proto.UpvaluesDistinct := by
  unfold FuncState.finish at h
  split at h
  · cases h
  · cases h
    refine .intro ?_ hp
    simpa [Proto.UpvaluesDistinct] using hd

/-- The chunk starts scoped: the main function holds the chunk's environment as its one
upvalue, and there is nothing else yet. -/
theorem scoped_main (source : String) :
    Scoped { fs := FuncState.main source, enclosing := #[], source } where
  main := rfl
  upvalues k hk idx name src hq := by
    obtain rfl : k = 0 := Nat.le_zero.mp hk
    change (#[("_ENV", UpvalSource.register 0)] : Array (String × UpvalSource))[idx]? =
      some (name, src) at hq
    rcases idx with _ | idx
    · cases hq
      exact ⟨by simp [outside], rfl⟩
    · cases hq
  distinct k hk := by
    obtain rfl : k = 0 := Nat.le_zero.mp hk
    simp [funcAt, FuncState.main]
  protos k hk p hp := by
    obtain rfl : k = 0 := Nat.le_zero.mp hk
    simp [funcAt, FuncState.main, FuncState.new] at hp

theorem enterFunction_stable {isVararg : Bool} : Stable Scoped (enterFunction line isVararg) := by
  intro c c' x hs h
  cases h
  exact hs.push rfl rfl

theorem openFunction_stable {params : List String} {isVararg isMethod : Bool} :
    Stable Scoped (openFunction params isVararg isMethod line) := by
  unfold openFunction
  exact enterFunction_stable.bind fun _ => addLocals_stable.bind fun _ =>
    .modifyFs_nesting fun _ => ⟨rfl, rfl⟩

/-- Leaving a nested function: the function around it is back on top, with one more prototype,
which names each upvalue once since the nested function did. -/
theorem leaveFunction_stable {lastLine a : Nat} : Stable Scoped (leaveFunction lastLine a line) := by
  intro c c' x hs h
  have h₁ := run_get_bind h
  split at h₁
  · exact absurd h₁ run_throw_ne
  rename_i parent hback
  rw [Array.back?_eq_getElem?] at hback
  obtain ⟨n, hn⟩ : ∃ n, c.enclosing.size = n + 1 := by
    rcases hsz : c.enclosing.size with _ | n
    · rw [hsz, Array.getElem?_eq_none (by omega)] at hback
      cases hback
    · exact ⟨n, rfl⟩
  rw [hn, Nat.add_sub_cancel] at hback
  have h₂ := run_set_bind h₁
  obtain ⟨p, c₃, h₃, h₄⟩ := run_bind_ok h₂
  obtain ⟨hfin, rfl⟩ := run_lift_ok h₃
  obtain ⟨idx, c₅, h₅, h₆⟩ := run_bind_ok h₄
  obtain ⟨fs₅, h₇, rfl⟩ := run_onFs h₅
  cases h₇
  have hs₁ := hs.pop hn hback
  -- the new prototype names its upvalues once, as the function it freezes did
  have hp : p.Every Proto.UpvaluesDistinct := by
    have hd := hs.distinct _ (Nat.le_refl _)
    have hq := hs.protos _ (Nat.le_refl _)
    rw [funcAt_size] at hd hq
    exact finish_every hd hq hfin
  have hs₂ := hs₁.setFs (FuncState.addProto_fst_upvalues parent p) fun q hq => by
    simp only [FuncState.addProto_fst_protos, Array.mem_push] at hq
    rcases hq with hq | rfl
    · have h₀ := hs₁.protos _ (Nat.le_refl _) q
      rw [funcAt_size] at h₀
      exact h₀ hq
    · exact hp
  exact (Stable.updateFs_nesting fun _ _ => FuncState.emitABx_nesting) _ _ _ hs₂ h₆

end Compiler

end LuaBytecode
