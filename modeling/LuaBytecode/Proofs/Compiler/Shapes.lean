import LuaBytecode.Proofs.Compiler.Names
/-!
# The register discipline of each instruction shape

Each shape of `Compiler.Emit` is given the parts of a node as actions. Here each shape gets a
lemma that, from what its actions promise (`Into`, `Classifies`), derives what the whole shape
does for its target `a`: it leaves the registers as they were (`ExprOk a`), or, for the pieces
that take registers on purpose, says how many it took.

Every instruction a shape emits is shown to be `Within a`: it writes only from `a` up, and what
it reads below `a` is a local's register. An RK operand is fine when it reads nothing below `a`
but locals (`RKFits`); operands from `classify` are, and so are temporaries, which are always
taken above `a`.

The first part gives the primitive steps: taking and giving back registers, and the emitters of
`FuncState`, each as a `Step`.
-/

namespace LuaBytecode

open Instruction

/-! ## Operands -/

namespace Readable

variable {slots : List Nat} {a r : Nat}

theorem of_le (h : a ≤ r) : Readable slots a r := .inl h

theorem of_mem (h : r ∈ slots) : Readable slots a r := .inr h

end Readable

/-- An RK operand of code targeting `a` reads only registers that code may read. -/
def RKFits (slots : List Nat) (a x : Nat) : Prop := ∀ r, readsRK x r = true → Readable slots a r

namespace RKFits

variable {slots : List Nat} {a x : Nat}

theorem of_readable (h : Readable slots a x) : RKFits slots a x := fun r hr => by
  rw [← eq_of_readsRK hr]
  exact h

theorem of_le (h : a ≤ x) : RKFits slots a x := of_readable (.of_le h)

/-- The RK operand of an operand that fits the locals. -/
theorem of_operand {o : Operand} (ho : o.Fits slots) (h : o.rk? = some x) : RKFits slots a x := by
  cases o with
  | const k =>
    cases h
    intro r hr
    simp [readsRK, show isConst x = true from ho] at hr
  | reg r =>
    cases h
    exact of_readable (.of_mem ho)
  | _ => cases h

end RKFits

/-! ## Fields of a built instruction -/

theorem abc_fields {op : Opcode} {a b c : Nat} (h : a ≤ maxA ∧ b ≤ maxBC ∧ c ≤ maxBC) :
    (abc op a b c).opcode = op ∧ (abc op a b c).a = a ∧ (abc op a b c).b = b ∧
      (abc op a b c).c = c :=
  ⟨opcode_abc op a b c, a_abc op a b c h.1, b_abc op a b c h.2.1, c_abc op a b c h.2.2⟩

/-- A fact about every instruction with the opcode and fields of an ABC word holds of the word:
the word's fields are read back through its arithmetic only here, and the lemmas below stay
about an instruction with a known opcode. -/
theorem abc_elim {op : Opcode} {a b c : Nat} (h : a ≤ maxA ∧ b ≤ maxBC ∧ c ≤ maxBC)
    {P : Instruction → Prop}
    (hp : ∀ i : Instruction, i.opcode = op → i.a = a → i.b = b → i.c = c → P i) :
    P (abc op a b c) :=
  hp _ (opcode_abc op a b c) (a_abc op a b c h.1) (b_abc op a b c h.2.1) (c_abc op a b c h.2.2)

theorem abx_elim {op : Opcode} {a bx : Nat} (h : a ≤ maxA ∧ bx ≤ maxBx) {P : Instruction → Prop}
    (hp : ∀ i : Instruction, i.opcode = op → i.a = a → i.bx = bx → P i) : P (abx op a bx) :=
  hp _ (opcode_abx op a bx) (a_abx op bx h.1) (bx_abx op a h.2)

/-- A jump writes and reads no register, whatever its operands. -/
theorem Instruction.Within.of_jmp {protos : Array Proto} {slots : List Nat} {a : Nat}
    {i : Instruction} (h : i.opcode = .jmp) : i.Within protos slots a where
  writes r hr := by simp [writes_jmp h] at hr
  reads r hr := by simp [reads_jmp h] at hr
  proto hc := by rw [h] at hc; cases hc

/-! ## Register access by kind of instruction

Each lemma is about an instruction with a known opcode; `abc_elim` carries it to a built word. -/

namespace Instruction.Within

variable {protos : Array Proto} {slots : List Nat} {a : Nat} {i : Instruction}

/-- Loads of a constant, a boolean, an upvalue or a new table into `A`. -/
theorem load (ho : i.opcode = .loadK ∨ i.opcode = .loadKx ∨ i.opcode = .loadBool ∨
    i.opcode = .getUpval ∨ i.opcode = .newTable) (ha : a ≤ i.a) : i.Within protos slots a where
  writes r hr := by
    rcases ho with ho | ho | ho | ho | ho <;>
      simp only [Instruction.writes, ho, beq_iff_eq] at hr <;> omega
  reads r hr := by
    rcases ho with ho | ho | ho | ho | ho <;> simp [Instruction.reads, ho] at hr
  proto hc := by rcases ho with ho | ho | ho | ho | ho <;> rw [ho] at hc <;> cases hc

theorem extraArg (ho : i.opcode = .extraArg) : i.Within protos slots a where
  writes r hr := by simp [Instruction.writes, ho] at hr
  reads r hr := by simp [Instruction.reads, ho] at hr
  proto hc := by rw [ho] at hc; cases hc

theorem loadNil (ho : i.opcode = .loadNil) (ha : a ≤ i.a) : i.Within protos slots a where
  writes r hr := by simp only [Instruction.writes, ho, Bool.and_eq_true, decide_eq_true_eq] at hr; omega
  reads r hr := by simp [Instruction.reads, ho] at hr
  proto hc := by rw [ho] at hc; cases hc

theorem vararg (ho : i.opcode = .vararg) (ha : a ≤ i.a) : i.Within protos slots a where
  writes r hr := by simp only [Instruction.writes, ho, Bool.and_eq_true, decide_eq_true_eq] at hr; omega
  reads r hr := by simp [Instruction.reads, ho] at hr
  proto hc := by rw [ho] at hc; cases hc

/-- A move or a unary operator: `A` from register `B`. -/
theorem unary (ho : i.opcode = .move ∨ i.opcode = .unm ∨ i.opcode = .bnot ∨ i.opcode = .not ∨
    i.opcode = .len) (ha : a ≤ i.a) (hb : Readable slots a i.b) : i.Within protos slots a where
  writes r hr := by
    rcases ho with ho | ho | ho | ho | ho <;>
      simp only [Instruction.writes, ho, beq_iff_eq] at hr <;> omega
  reads r hr := by
    rcases ho with ho | ho | ho | ho | ho <;>
      simp only [Instruction.reads, ho, beq_iff_eq] at hr <;> exact hr ▸ hb
  proto hc := by rcases ho with ho | ho | ho | ho | ho <;> rw [ho] at hc <;> cases hc

theorem testSet (ho : i.opcode = .testSet) (ha : a ≤ i.a) (hb : Readable slots a i.b) :
    i.Within protos slots a where
  writes r hr := by simp only [Instruction.writes, ho, beq_iff_eq] at hr; omega
  reads r hr := by simp only [Instruction.reads, ho, beq_iff_eq] at hr; exact hr ▸ hb
  proto hc := by rw [ho] at hc; cases hc

theorem test (ho : i.opcode = .test) (ha : Readable slots a i.a) : i.Within protos slots a where
  writes r hr := by simp [Instruction.writes, ho] at hr
  reads r hr := by simp only [Instruction.reads, ho, beq_iff_eq] at hr; exact hr ▸ ha
  proto hc := by rw [ho] at hc; cases hc

theorem getTabUp (ho : i.opcode = .getTabUp) (ha : a ≤ i.a) (hc : RKFits slots a i.c) :
    i.Within protos slots a where
  writes r hr := by simp only [Instruction.writes, ho, beq_iff_eq] at hr; omega
  reads r hr := by simp only [Instruction.reads, ho] at hr; exact hc r hr
  proto h := by rw [ho] at h; cases h

theorem getTable (ho : i.opcode = .getTable) (ha : a ≤ i.a) (hb : Readable slots a i.b)
    (hc : RKFits slots a i.c) : i.Within protos slots a where
  writes r hr := by simp only [Instruction.writes, ho, beq_iff_eq] at hr; omega
  reads r hr := by
    simp only [Instruction.reads, ho, Bool.or_eq_true, beq_iff_eq] at hr
    rcases hr with hr | hr
    · exact hr ▸ hb
    · exact hc r hr
  proto h := by rw [ho] at h; cases h

/-- A binary arithmetic or bitwise operator: `A` from the RK operands `B` and `C`. -/
theorem arith (ho : i.opcode ∈ [.add, .sub, .mul, .mod, .pow, .div, .idiv, .band, .bor, .bxor,
    .shl, .shr]) (ha : a ≤ i.a) (hb : RKFits slots a i.b) (hc : RKFits slots a i.c) :
    i.Within protos slots a where
  writes r hr := by
    simp only [List.mem_cons, List.not_mem_nil, or_false] at ho
    rcases ho with ho | ho | ho | ho | ho | ho | ho | ho | ho | ho | ho | ho <;>
      simp only [Instruction.writes, ho, beq_iff_eq] at hr <;> omega
  reads r hr := by
    simp only [List.mem_cons, List.not_mem_nil, or_false] at ho
    rcases ho with ho | ho | ho | ho | ho | ho | ho | ho | ho | ho | ho | ho <;>
      simp only [Instruction.reads, ho, Bool.or_eq_true] at hr <;>
      exact hr.elim (hb r) (hc r)
  proto h := by
    simp only [List.mem_cons, List.not_mem_nil, or_false] at ho
    rcases ho with ho | ho | ho | ho | ho | ho | ho | ho | ho | ho | ho | ho <;>
      rw [ho] at h <;> cases h

/-- A comparison writes nothing and reads its RK operands. -/
theorem compare (ho : i.opcode = .eq ∨ i.opcode = .lt ∨ i.opcode = .le)
    (hb : RKFits slots a i.b) (hc : RKFits slots a i.c) : i.Within protos slots a where
  writes r hr := by rcases ho with ho | ho | ho <;> simp [Instruction.writes, ho] at hr
  reads r hr := by
    rcases ho with ho | ho | ho <;> simp only [Instruction.reads, ho, Bool.or_eq_true] at hr <;>
      exact hr.elim (hb r) (hc r)
  proto h := by rcases ho with ho | ho | ho <;> rw [ho] at h <;> cases h

theorem concat (ho : i.opcode = .concat) (ha : a ≤ i.a) (hb : a ≤ i.b) :
    i.Within protos slots a where
  writes r hr := by simp only [Instruction.writes, ho, beq_iff_eq] at hr; omega
  reads r hr := by
    simp only [Instruction.reads, ho, Bool.and_eq_true, decide_eq_true_eq] at hr
    exact .of_le (by omega)
  proto h := by rw [ho] at h; cases h

/-- A call reads its function and arguments and writes its results, all from `A` up. -/
theorem call (ho : i.opcode = .call ∨ i.opcode = .tailCall) (ha : a ≤ i.a) :
    i.Within protos slots a where
  writes r hr := by
    rcases ho with ho | ho <;> simp only [Instruction.writes, ho, decide_eq_true_eq] at hr <;> omega
  reads r hr := by
    rcases ho with ho | ho <;> simp only [Instruction.reads, ho, Bool.and_eq_true, decide_eq_true_eq] at hr <;>
      exact .of_le (by omega)
  proto h := by rcases ho with ho | ho <;> rw [ho] at h <;> cases h

/-- `self`: the method into `A`, the object into `A + 1`. -/
theorem method (ho : i.opcode = .method) (ha : a ≤ i.a) (hb : Readable slots a i.b)
    (hc : RKFits slots a i.c) : i.Within protos slots a where
  writes r hr := by simp only [Instruction.writes, ho, Bool.or_eq_true, beq_iff_eq] at hr; omega
  reads r hr := by
    simp only [Instruction.reads, ho, Bool.or_eq_true, beq_iff_eq] at hr
    rcases hr with hr | hr
    · exact hr ▸ hb
    · exact hc r hr
  proto h := by rw [ho] at h; cases h

theorem setTable (ho : i.opcode = .setTable) (ha : Readable slots a i.a) (hb : RKFits slots a i.b)
    (hc : RKFits slots a i.c) : i.Within protos slots a where
  writes r hr := by simp [Instruction.writes, ho] at hr
  reads r hr := by
    simp only [Instruction.reads, ho, Bool.or_eq_true, beq_iff_eq] at hr
    rcases hr with (hr | hr) | hr
    · exact hr ▸ ha
    · exact hb r hr
    · exact hc r hr
  proto h := by rw [ho] at h; cases h

theorem setList (ho : i.opcode = .setList) (ha : a ≤ i.a) : i.Within protos slots a where
  writes r hr := by simp [Instruction.writes, ho] at hr
  reads r hr := by
    simp only [Instruction.reads, ho, Bool.and_eq_true, decide_eq_true_eq] at hr
    exact .of_le (by omega)
  proto h := by rw [ho] at h; cases h

/-- A closure writes `A` and reads the registers its prototype captures. -/
theorem closure {p : Proto} (ho : i.opcode = .closure) (ha : a ≤ i.a) (hp : protos[i.bx]? = some p)
    (hu : ∀ r, p.upvalues.contains (.register r) = true → Readable slots a r) :
    i.Within protos slots a where
  writes r hr := by simp only [Instruction.writes, ho, beq_iff_eq] at hr; omega
  reads r hr := by
    simp only [Instruction.reads, ho, hp] at hr
    exact hu r hr
  proto _ := (Array.getElem?_eq_some_iff.mp hp).1

/-- Any instruction but a closure is within target `0`: there is nothing below it. -/
theorem zero (ho : i.opcode ≠ .closure) : i.Within protos slots 0 where
  writes _ _ := Nat.zero_le _
  reads _ _ := .inl (Nat.zero_le _)
  proto hc := absurd hc ho

end Instruction.Within

namespace Emits

variable {a : Nat} {c₀ c c' : Compiler}

/-- Patching a jump emitted since `c₀` keeps what was emitted since `c₀` within `a`. -/
theorem patch {pc : Nat} {sbx : Int} (h : Emits a c₀ c) (hpc : c₀.fs.code.size ≤ pc)
    (hj : ∀ i, c.fs.code[pc]? = some i → i.opcode = .jmp)
    (hc : c'.fs.code = c.fs.code.modify pc (·.setSbx sbx)) (hp : c'.fs.protos = c.fs.protos) :
    Emits a c₀ c' where
  old p hp₀ := by
    rw [hc, Array.getElem?_modify, if_neg (by omega)]
    exact h.old p hp₀
  new p i hp₀ hi := by
    rw [hc, Array.getElem?_modify] at hi
    rw [hp]
    split at hi
    · subst_vars
      obtain ⟨j, hj', rfl⟩ := Option.map_eq_some_iff.mp hi
      exact .of_jmp (by rw [opcode_setSbx, hj j hj'])
    · exact h.new p i hp₀ hi

/-- A jump stays where it is through a step that only appends code. -/
theorem jmp_at {c₁ c₂ : Compiler} {pc : Nat} (h : Emits a c₁ c₂)
    (hj : c₁.fs.code[pc]?.map Instruction.opcode = some .jmp) :
    c₂.fs.code[pc]?.map Instruction.opcode = some .jmp := by
  have hpc : pc < c₁.fs.code.size := by
    rcases Nat.lt_or_ge pc c₁.fs.code.size with hlt | hge
    · exact hlt
    · rw [Array.getElem?_eq_none hge] at hj
      cases hj
  rw [h.old pc hpc]
  exact hj

end Emits

namespace Compiler

variable {c c' : Compiler}

/-! ## Registers -/

theorem alloc_spec {line r : Nat} (h : (alloc line).run c = .ok (r, c')) :
    r = c.fs.usedRegs ∧ c'.fs.usedRegs = c.fs.usedRegs + 1 ∧ Keeps c c' ∧
      c'.fs.code = c.fs.code := by
  obtain ⟨fs', h₁, rfl⟩ := run_onFs h
  obtain ⟨-, rfl, rfl⟩ := FuncState.allocReg_ok h₁
  exact ⟨rfl, rfl, .of_fs (List.prefix_refl _) rfl rfl, rfl⟩

theorem free_spec (h : free.run c = .ok ((), c')) :
    1 ≤ c.fs.usedRegs ∧ c'.fs.usedRegs = c.fs.usedRegs - 1 ∧ Keeps c c' ∧
      c'.fs.code = c.fs.code := by
  obtain ⟨fs', h₁, rfl⟩ := run_updateFs h
  obtain ⟨hlt, rfl⟩ := FuncState.freeReg_ok h₁
  exact ⟨by omega, rfl, .of_fs (List.prefix_refl _) rfl rfl, rfl⟩

theorem freeN_spec {n : Nat} (h : (freeN n).run c = .ok ((), c')) :
    n ≤ c.fs.usedRegs ∧ c'.fs.usedRegs = c.fs.usedRegs - n ∧ Keeps c c' ∧
      c'.fs.code = c.fs.code := by
  obtain ⟨fs', h₁, rfl⟩ := run_updateFs h
  obtain ⟨hn, rfl⟩ := FuncState.freeRegs_ok h₁
  exact ⟨hn, rfl, .of_fs (List.prefix_refl _) rfl rfl, rfl⟩

theorem Step.of_keeps {a : Nat} (hk : Keeps c c') (hc : c'.fs.code = c.fs.code) : Step a c c' :=
  ⟨hk, .of_code_eq hc⟩

/-! ## Emitting -/

theorem emitABC_spec {op : Opcode} {a b x line : Nat} (h : (emitABC op a b x line).run c = .ok ((), c')) :
    (a ≤ maxA ∧ b ≤ maxBC ∧ x ≤ maxBC) ∧ c' = { c with fs := c.fs.emit' (abc op a b x) line } := by
  obtain ⟨fs', h₁, rfl⟩ := run_updateFs h
  obtain ⟨hfit, rfl⟩ := FuncState.emitABC_ok h₁
  exact ⟨hfit, rfl⟩

/-- Emitting a jump-like instruction to be patched: it lands at the end of the code and is
recorded as pending. -/
theorem emitJump_spec {op : Opcode} {a' line pc : Nat} (h : (emitJump op a' line).run c = .ok (pc, c')) :
    pc = c.fs.code.size ∧ a' ≤ maxA ∧ ∃ bx, c' = { c with fs :=
      { c.fs.emit' (abx op a' bx) line with pending := c.fs.code.size :: c.fs.pending } } := by
  obtain ⟨fs', h₁, rfl⟩ := run_onFs h
  obtain ⟨rfl, ha, bx, rfl⟩ := FuncState.emitJump_ok h₁
  exact ⟨rfl, ha, bx, rfl⟩

theorem patchJump_spec {pc target : Nat} (h : (patchJump pc target).run c = .ok ((), c')) :
    ∃ sbx : Int, c'.fs.code = c.fs.code.modify pc (·.setSbx sbx) ∧ Keeps c c' ∧
      c'.fs.usedRegs = c.fs.usedRegs ∧ c'.fs.protos = c.fs.protos := by
  obtain ⟨fs', h₁, rfl⟩ := run_updateFs h
  obtain ⟨sbx, rfl⟩ := FuncState.patchJump_ok h₁
  exact ⟨sbx, rfl, .of_fs (List.prefix_refl _) rfl rfl, rfl, rfl⟩

theorem pc_spec {n : Nat} (h : pc.run c = .ok (n, c')) : n = c.fs.code.size ∧ c = c' :=
  run_readFs h

variable {a : Nat}

/-- An ABC instruction within `a` keeps to `a`. -/
theorem emitABC_exprOk {op : Opcode} {a' b x line : Nat}
    (h : (emitABC op a' b x line).run c = .ok ((), c'))
    (hw : a' ≤ maxA ∧ b ≤ maxBC ∧ x ≤ maxBC → (abc op a' b x).Within c.fs.protos c.fs.slots a) :
    ExprOk a c c' := by
  obtain ⟨hfit, rfl⟩ := emitABC_spec h
  exact .emit (hw hfit)

/-! ## The emitters of a function's state -/

theorem emitMove_exprOk {a' b line : Nat} (h : (updateFs (·.emitMove a' b line)).run c = .ok ((), c'))
    (ha : a ≤ a') (hb : Readable c.fs.slots a b) : ExprOk a c c' := by
  obtain ⟨fs', h₁, rfl⟩ := run_updateFs h
  obtain ⟨hfit, rfl⟩ := FuncState.emitABC_ok h₁
  exact .emit (abc_elim hfit fun i ho ha' hb' _ => .unary (.inl ho) (ha' ▸ ha) (hb' ▸ hb))

theorem emitLoadNil_exprOk {a' n line : Nat} (h : (updateFs (·.emitLoadNil a' n line)).run c = .ok ((), c'))
    (ha : a ≤ a') : ExprOk a c c' := by
  obtain ⟨fs', h₁, rfl⟩ := run_updateFs h
  simp only [FuncState.emitLoadNil] at h₁
  split at h₁
  · cases h₁
  · obtain ⟨hfit, rfl⟩ := FuncState.emitABC_ok h₁
    exact .emit (abc_elim hfit fun i ho ha' _ _ => .loadNil ho (ha' ▸ ha))

theorem emitLoadBool_exprOk {a' line : Nat} {b skip : Bool}
    (h : (updateFs (·.emitLoadBool a' b skip line)).run c = .ok ((), c')) (ha : a ≤ a') :
    ExprOk a c c' := by
  obtain ⟨fs', h₁, rfl⟩ := run_updateFs h
  obtain ⟨hfit, rfl⟩ := FuncState.emitABC_ok h₁
  exact .emit (abc_elim hfit fun i ho ha' _ _ => .load (.inr (.inr (.inl ho))) (ha' ▸ ha))

theorem emitLoadK_exprOk {a' line : Nat} {k : Constant}
    (h : (updateFs (·.emitLoadK a' k line)).run c = .ok ((), c')) (ha : a ≤ a') : ExprOk a c c' := by
  obtain ⟨fs', h₁, rfl⟩ := run_updateFs h
  simp only [FuncState.emitLoadK] at h₁
  -- interning the constant first changes the pool alone
  have h₀ : ExprOk a c { c with fs := (c.fs.addConstant k).1 } :=
    .of_fs (by simp) (by simp) (by simp) (by simp) (by simp)
  split at h₁
  · obtain ⟨hfit, rfl⟩ := FuncState.emitABx_ok h₁
    refine h₀.trans (ExprOk.emit (c := { c with fs := (c.fs.addConstant k).1 }) ?_)
    exact abx_elim hfit fun i ho ha' _ => .load (.inl ho) (ha' ▸ ha)
  · cases h₂ : (c.fs.addConstant k).1.emitABx .loadKx a' 0 line with
    | error e => rw [h₂] at h₁; cases h₁
    | ok fs₁ =>
      rw [h₂] at h₁
      obtain ⟨hfit, rfl⟩ := FuncState.emitABx_ok h₂
      have h₃ := FuncState.emitAx_ok h₁
      subst h₃
      refine (h₀.trans (ExprOk.emit (c := { c with fs := (c.fs.addConstant k).1 }) ?_)).trans
        (ExprOk.emit (c := { c with fs := (c.fs.addConstant k).1.emit' (abx .loadKx a' 0) line }) ?_)
      · exact abx_elim hfit fun i ho ha' _ => .load (.inr (.inl ho)) (ha' ▸ ha)
      · exact .extraArg (opcode_ax _ _)

theorem emitVararg_exprOk {a' line : Nat} {n : Int}
    (h : (updateFs (·.emitVararg a' n line)).run c = .ok ((), c')) (ha : a ≤ a') : ExprOk a c c' := by
  obtain ⟨fs', h₁, rfl⟩ := run_updateFs h
  obtain ⟨hfit, rfl⟩ := FuncState.emitABC_ok h₁
  exact .emit (abc_elim hfit fun i ho ha' _ _ => .vararg ho (ha' ▸ ha))

theorem emitNewTable_exprOk {a' narr nrec line : Nat}
    (h : (updateFs (·.emitNewTable a' narr nrec line)).run c = .ok ((), c')) (ha : a ≤ a') :
    ExprOk a c c' := by
  obtain ⟨fs', h₁, rfl⟩ := run_updateFs h
  obtain ⟨hfit, rfl⟩ := FuncState.emitABC_ok h₁
  exact .emit (abc_elim hfit fun i ho ha' _ _ => .load (.inr (.inr (.inr (.inr ho)))) (ha' ▸ ha))

theorem emitSetList_exprOk {a' n batch line : Nat}
    (h : (updateFs (·.emitSetList a' n batch line)).run c = .ok ((), c')) (ha : a ≤ a') :
    ExprOk a c c' := by
  obtain ⟨fs', h₁, rfl⟩ := run_updateFs h
  simp only [FuncState.emitSetList] at h₁
  split at h₁
  · obtain ⟨hfit, rfl⟩ := FuncState.emitABC_ok h₁
    exact .emit (abc_elim hfit fun i ho ha' _ _ => .setList ho (ha' ▸ ha))
  · cases h₂ : c.fs.emitABC .setList a' n 0 line with
    | error e => rw [h₂] at h₁; cases h₁
    | ok fs₁ =>
      rw [h₂] at h₁
      obtain ⟨hfit, rfl⟩ := FuncState.emitABC_ok h₂
      have h₃ := FuncState.emitAx_ok h₁
      subst h₃
      exact (ExprOk.emit (abc_elim hfit fun i ho ha' _ _ => .setList ho (ha' ▸ ha))).trans
        (ExprOk.emit (.extraArg (opcode_ax _ _)))

theorem emitCall_exprOk {a' line : Nat} {nArgs nResults : Int}
    (h : (updateFs (·.emitCall a' nArgs nResults line)).run c = .ok ((), c')) (ha : a ≤ a') :
    ExprOk a c c' := by
  obtain ⟨fs', h₁, rfl⟩ := run_updateFs h
  obtain ⟨hfit, rfl⟩ := FuncState.emitABC_ok h₁
  exact .emit (abc_elim hfit fun i ho ha' _ _ => .call (.inl ho) (ha' ▸ ha))

theorem emitTailCall_exprOk {a' line : Nat} {nArgs : Int}
    (h : (updateFs (·.emitTailCall a' nArgs line)).run c = .ok ((), c')) (ha : a ≤ a') :
    ExprOk a c c' := by
  obtain ⟨fs', h₁, rfl⟩ := run_updateFs h
  obtain ⟨hfit, rfl⟩ := FuncState.emitABC_ok h₁
  exact .emit (abc_elim hfit fun i ho ha' _ _ => .call (.inr ho) (ha' ▸ ha))

theorem emitTest_exprOk {a' x line : Nat} (h : (updateFs (·.emitTest a' x line)).run c = .ok ((), c'))
    (ha : Readable c.fs.slots a a') : ExprOk a c c' := by
  obtain ⟨fs', h₁, rfl⟩ := run_updateFs h
  obtain ⟨hfit, rfl⟩ := FuncState.emitABC_ok h₁
  exact .emit (abc_elim hfit fun i ho ha' _ _ => .test ho (ha' ▸ ha))

/-- A jump with a fixed displacement. -/
theorem emitJmp_exprOk {a' line : Nat} {sbx : Int}
    (h : (updateFs (·.emitAsBx .jmp a' sbx line)).run c = .ok ((), c')) : ExprOk a c c' := by
  obtain ⟨fs', h₁, rfl⟩ := run_updateFs h
  obtain ⟨-, bx, rfl⟩ := FuncState.emitAsBx_ok h₁
  exact .emit (.of_jmp (opcode_abx _ _ _))

/-- A plain jump to be patched reads and writes no register. -/
theorem emitJump_jmp {a' line pc : Nat} (h : (emitJump .jmp a' line).run c = .ok (pc, c')) :
    pc = c.fs.code.size ∧ ExprOk a c c' ∧ c'.fs.code[pc]?.map Instruction.opcode = some .jmp := by
  obtain ⟨rfl, -, bx, rfl⟩ := emitJump_spec h
  have he : Emits a c { c with fs := c.fs.emit' (abx .jmp a' bx) line } :=
    .push (.of_jmp (opcode_abx _ _ _))
  exact ⟨rfl, ⟨⟨.of_fs (by simp) (by simp) (by simp), ⟨he.old, he.new⟩⟩, by simp⟩, by simp⟩

/-- Patching a jump emitted since `c₀` keeps what was emitted since `c₀` to `a`. -/
theorem patchJump_exprOk {c₀ : Compiler} {pc target : Nat} (h : ExprOk a c₀ c)
    (hpc : c₀.fs.code.size ≤ pc) (hj : c.fs.code[pc]?.map Instruction.opcode = some .jmp)
    (hp : (patchJump pc target).run c = .ok ((), c')) : ExprOk a c₀ c' := by
  obtain ⟨sbx, hcode, hk, hu, hprotos⟩ := patchJump_spec hp
  have hj' : ∀ i, c.fs.code[pc]? = some i → i.opcode = .jmp := by
    intro i hi
    simpa [hi] using hj
  exact ⟨⟨h.toKeeps.trans hk, h.toEmits.patch hpc hj' hcode hprotos⟩, hu.trans h.usedRegs⟩

end Compiler

end LuaBytecode
