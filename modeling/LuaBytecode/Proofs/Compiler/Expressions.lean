import LuaBytecode.Proofs.Compiler.Functions
/-!
# Every node of an expression keeps to its target

The register discipline of `Compiler.compileExpr`, one node at a time: given that the parts of a
node keep to their targets, so does the node. The recursion over the whole tree, which supplies
the parts, is in `Compiler.Registers`.

What the recursion carries for an expression `e` is `Sound e`:

* `KeepsTo e`: compiling `e` into any register `a` in use, with any count of values wanted, is
  `ExprOk a`: the registers in use and the locals are as they were, and every instruction
  written reads below `a` only locals and writes only from `a` up;
* `PartsKeep e`: so do the parts that statements compile by themselves around targets of their
  own: the callee and arguments of a call (a call statement, a tail call) and the table and key
  of an index (the targets of an assignment);
* the operands of a concatenation or power chain, which the chain's node compiles flat.

Lists of arguments and of table fields are handled by induction on the list
(`compileArgs_spec`, `compileFields_spec`): their registers are taken above the target and
given back by the call or by `setlist`.
-/

namespace LuaBytecode

namespace Compiler

open Instruction

/-- Compiling `e` into any register in use keeps to it, whatever the count of values wanted. -/
def KeepsTo (e : Expr) : Prop := ∀ n, Into fun r => compileExpr e r n

/-- The parts of `e` that statements compile by themselves keep to their targets: the callee (or
object) and the arguments of a call, and the table and key of an index. -/
def PartsKeep : Expr → Prop
  | .call f args _ | .method f _ args _ => KeepsTo f ∧ ∀ x ∈ args, KeepsTo x
  | .index t k _ => KeepsTo t ∧ KeepsTo k
  | .field t _ _ => KeepsTo t
  | _ => True

/-- What the recursion over the tree proves of each expression. -/
structure Sound (e : Expr) : Prop where
  keeps : KeepsTo e
  parts : PartsKeep e
  concat : ∀ p ∈ concatParts e, Into p
  pow : ∀ p ∈ powParts e, Classifies p.1 ∧ Into p.2

/-- The key and the value of a table field keep to their targets. -/
def FieldKeeps : Field → Prop
  | .keyed k v => KeepsTo k ∧ KeepsTo v
  | .named _ v | .positional v => KeepsTo v

/-- A nested function compiled into `a` keeps to it. -/
def FuncKeeps (body : FuncBody) : Prop :=
  ∀ a isMethod c c', (compileFunction body a isMethod).run c = .ok ((), c') → ExprOk a c c'

variable {a line : Nat} {c c' : Compiler}

/-- A node that is neither a chain nor has parts of its own is sound once it keeps to its
target. -/
theorem Sound.of_keeps {e : Expr} (hk : KeepsTo e) (hp : PartsKeep e) (hc : concatParts e = [])
    (hw : powParts e = []) : Sound e :=
  ⟨hk, hp, by simp [hc], by simp [hw]⟩

/-! ## Arguments and fields -/

/-- The arguments of a call go to consecutive fresh registers, which stay taken. -/
theorem compileArgs_spec : ∀ {args : List Expr} {c c' : Compiler} {isOpen : Bool},
    (∀ x ∈ args, KeepsTo x) → (compileArgs line args).run c = .ok (isOpen, c') →
      Step c.fs.usedRegs c c' ∧ c'.fs.usedRegs = c.fs.usedRegs + args.length
  | [], _, _, _, _, h => by
    obtain ⟨-, rfl⟩ := run_pure_ok h
    exact ⟨.refl _ _, rfl⟩
  | [x], c, c', _, hx, h => by
    obtain ⟨r, c₁, h₁, h₂⟩ := run_bind_ok h
    obtain ⟨rfl, hu₁, hk₁, hcode₁⟩ := alloc_spec h₁
    -- the last argument is left open when it can yield several values
    have hlast : ∀ n c₂, (compileExpr x c.fs.usedRegs n).run c₁ = .ok ((), c₂) →
        Step c.fs.usedRegs c c₂ ∧ c₂.fs.usedRegs = c.fs.usedRegs + 1 := fun n c₂ he => by
      have hc₂ := hx x (List.mem_singleton_self x) n _ _ _ (by omega) he
      exact ⟨(Step.of_keeps hk₁ hcode₁).trans hc₂.toStep, hc₂.usedRegs.trans hu₁⟩
    split at h₂ <;>
    · obtain ⟨u, c₂, h₃, h₄⟩ := run_bind_ok h₂
      obtain ⟨-, rfl⟩ := run_pure_ok h₄
      exact hlast _ _ h₃
  | x :: y :: rest, c, c', _, hx, h => by
    obtain ⟨r, c₁, h₁, h₂⟩ := run_bind_ok h
    obtain ⟨rfl, hu₁, hk₁, hcode₁⟩ := alloc_spec h₁
    obtain ⟨u, c₂, h₃, h₄⟩ := run_bind_ok h₂
    have hc₂ := hx x (.head _) 1 _ _ _ (by omega) h₃
    have hu₂ := hc₂.usedRegs
    obtain ⟨hs, hu⟩ := compileArgs_spec (fun z hz => hx z (.tail _ hz)) h₄
    refine ⟨(Step.of_keeps hk₁ hcode₁).trans (hc₂.toStep.trans (hs.mono (by omega))), ?_⟩
    simp only [List.length_cons] at hu ⊢
    omega

/-- The fields of a constructor for the table in `a`. The `pending` list items wait in the
registers above `a` for the next `setlist`, which comes after the last list item at the
latest. -/
theorem compileFields_spec {nArr nFields : Nat} :
    ∀ {fields : List Field} {i arrIdx pending : Nat} {c c' : Compiler},
      (∀ f ∈ fields, FieldKeeps f) → a + pending < c.fs.usedRegs →
      arrIdx + fields.countP Field.isPositional = nArr →
      (fields.countP Field.isPositional = 0 → pending = 0) →
      (compileFields a line nArr nFields fields i arrIdx pending).run c = .ok ((), c') →
      Step a c c' ∧ c'.fs.usedRegs + pending = c.fs.usedRegs
  | [], _, _, _, _, _, _, _, _, hlast, h => by
    obtain ⟨-, rfl⟩ := run_pure_ok h
    simp [hlast rfl, Step.refl]
  | .positional v :: rest, i, arrIdx, pending, c, c', hf, ha, hn, _, h => by
    obtain ⟨r, c₁, h₁, h₂⟩ := run_bind_ok h
    obtain ⟨rfl, hu₁, hk₁, hcode₁⟩ := alloc_spec h₁
    obtain ⟨u, c₂, h₃, h₄⟩ := run_bind_ok h₂
    have hv : KeepsTo v := hf _ (.head _)
    have hc₂ := hv _ _ _ _ (by omega) h₃
    have hu₂ := hc₂.usedRegs
    have hs₂ : Step a c c₂ := (Step.of_keeps hk₁ hcode₁).trans (hc₂.toStep.mono (by omega))
    have hrest : ∀ f ∈ rest, FieldKeeps f := fun f hf' => hf f (.tail _ hf')
    simp only [List.countP_cons, Field.isPositional, if_true] at hn
    split at h₄
    · -- a `setlist` takes the waiting items and gives their registers back
      obtain ⟨u, c₃, h₅, h₆⟩ := run_bind_ok h₄
      obtain ⟨-, hu₃, hk₃, hcode₃⟩ := freeN_spec h₅
      obtain ⟨u, c₄, h₇, h₈⟩ := run_bind_ok h₆
      have hc₄ := emitSetList_exprOk h₇ (Nat.le_refl a)
      have hu₄ := hc₄.usedRegs
      obtain ⟨hs, hu⟩ := compileFields_spec hrest (by omega) (by omega) (fun _ => rfl) h₈
      exact ⟨hs₂.trans ((Step.of_keeps hk₃ hcode₃).trans (hc₄.toStep.trans hs)), by omega⟩
    · -- the item waits: it is not the last one
      rename_i hflush
      have hmore : rest.countP Field.isPositional ≠ 0 := fun h0 => hflush (by simp; omega)
      obtain ⟨hs, hu⟩ := compileFields_spec hrest (by omega) (by omega) (absurd · hmore) h₄
      exact ⟨hs₂.trans hs, by omega⟩
  | .named name v :: rest, i, arrIdx, pending, c, c', hf, ha, hn, hlast, h => by
    obtain ⟨u, c₁, h₁, h₂⟩ := run_bind_ok h
    have hc₁ := entryWith_exprOk (constOperand_classifies _) (loadK_into _) (classify_classifies v)
      ((hf _ (.head _) : KeepsTo v) 1) (by omega) h₁
    have hu₁ := hc₁.usedRegs
    simp only [List.countP_cons, Field.isPositional] at hn hlast
    obtain ⟨hs, hu⟩ := compileFields_spec (fun f hf' => hf f (.tail _ hf')) (by omega) hn hlast h₂
    exact ⟨hc₁.toStep.trans hs, by omega⟩
  | .keyed k v :: rest, i, arrIdx, pending, c, c', hf, ha, hn, hlast, h => by
    obtain ⟨u, c₁, h₁, h₂⟩ := run_bind_ok h
    obtain ⟨hk, hv⟩ : KeepsTo k ∧ KeepsTo v := hf _ (.head _)
    have hc₁ := entryWith_exprOk (classify_classifies k) (hk 1) (classify_classifies v) (hv 1)
      (by omega) h₁
    have hu₁ := hc₁.usedRegs
    simp only [List.countP_cons, Field.isPositional] at hn hlast
    obtain ⟨hs, hu⟩ := compileFields_spec (fun f hf' => hf f (.tail _ hf')) (by omega) hn hlast h₂
    exact ⟨hc₁.toStep.trans hs, by omega⟩

/-! ## Leaves -/

theorem nil_keeps : KeepsTo (.nil line) := by
  intro n a c c' _ h
  exact emitLoadNil_exprOk h (Nat.le_refl a)

theorem bool_keeps {b : Bool} : KeepsTo (.bool b line) := by
  intro n a c c' _ h
  exact emitLoadBool_exprOk h (Nat.le_refl a)

theorem int_keeps {v : Int64} : KeepsTo (.int v line) := by
  intro n
  exact loadK_into (.int v)

theorem float_keeps {bits : UInt64} : KeepsTo (.float bits line) := by
  intro n
  exact loadK_into (.float bits)

theorem str_keeps {s : String} : KeepsTo (.str s line) := by
  intro n
  exact loadK_into (.str s)

/-- `...` is refused outside a vararg function, and loads the extra arguments from the target up
inside one. -/
theorem vararg_keeps : KeepsTo (.vararg line) := by
  intro n a c c' _ h
  obtain ⟨v, c₁, h₁, h₂⟩ := run_bind_ok h
  obtain ⟨rfl, rfl⟩ := run_readFs h₁
  obtain ⟨-, h₂⟩ := run_guard h₂
  exact emitVararg_exprOk h₂ (Nat.le_refl a)

theorem name_keeps {s : String} : KeepsTo (.name s line) := by
  intro n a c c' ha h
  exact compileName_exprOk ha h

/-! ## Operators -/

/-- Parentheses cut an expression down to one value. -/
theorem paren_keeps {inner : Expr} (hi : KeepsTo inner) : KeepsTo (.paren inner line) := by
  intro n
  exact hi 1

/-- A unary operator reads its operand from a temporary above the target. -/
theorem unop_keeps {op : UnOp} {operand : Expr} (ho : KeepsTo operand) :
    KeepsTo (.unop op operand line) := by
  intro n a c c' ha h
  obtain ⟨c₁, hc₁, h₂⟩ := temp_exprOk (ho 1) (Nat.le_of_lt ha) h
  refine hc₁.trans (emitABC_exprOk h₂ fun hfit => abc_elim hfit fun i hop hia hib _ =>
    .unary ?_ (Nat.le_of_eq hia.symm) (hib ▸ .of_le (Nat.le_of_lt ha)))
  rw [hop]
  cases op <;> simp [unopOpcode]

theorem arithOpcode_mem (op : BinOp) :
    arithOpcode op ∈ [.add, .sub, .mul, .mod, .pow, .div, .idiv, .band, .bor, .bxor, .shl, .shr] := by
  cases op <;> simp [arithOpcode]

variable {lhs rhs : Expr}

/-- The operands of `lhs .. rhs`, as its node compiles them: `lhs`, then the chain of `rhs`, or
`rhs` itself when it is not a concatenation. -/
theorem concat_operands (hl : KeepsTo lhs) (hr : Sound rhs) :
    ∀ p ∈ (fun r => compileExpr lhs r 1) ::
      (if rhs.isBinop .concat then concatParts rhs else [fun r => compileExpr rhs r 1]), Into p := by
  intro p hp
  rcases List.mem_cons.mp hp with rfl | hp
  · exact hl 1
  · split at hp
    · exact hr.concat p hp
    · obtain rfl := List.mem_singleton.mp hp
      exact hr.keeps 1

/-- The operands of `lhs ^ rhs`, as its node compiles them. -/
theorem pow_operands (hl : KeepsTo lhs) (hr : Sound rhs) :
    ∀ p ∈ (classify lhs, fun r => compileExpr lhs r 1) ::
      (if rhs.isBinop .pow then powParts rhs else [(classify rhs, fun r => compileExpr rhs r 1)]),
      Classifies p.1 ∧ Into p.2 := by
  intro p hp
  rcases List.mem_cons.mp hp with rfl | hp
  · exact ⟨classify_classifies lhs, hl 1⟩
  · split at hp
    · exact hr.pow p hp
    · obtain rfl := List.mem_singleton.mp hp
      exact ⟨classify_classifies rhs, hr.keeps 1⟩

theorem concatParts_binop {op : BinOp} : concatParts (.binop op lhs rhs line) =
    if op = .concat then (fun r => compileExpr lhs r 1) ::
      (if rhs.isBinop .concat then concatParts rhs else [fun r => compileExpr rhs r 1])
    else [] := by
  cases op <;> rfl

theorem powParts_binop {op : BinOp} : powParts (.binop op lhs rhs line) =
    if op = .pow then (classify lhs, fun r => compileExpr lhs r 1) ::
      (if rhs.isBinop .pow then powParts rhs else [(classify rhs, fun r => compileExpr rhs r 1)])
    else [] := by
  cases op <;> rfl

/-- A binary operator: `and` and `or` test the left operand in the target, chains go to
consecutive registers from the target, and the other operators read RK operands, evaluated into
the target or a temporary above it. -/
theorem binop_keeps {op : BinOp} (hl : KeepsTo lhs) (hr : Sound rhs) :
    KeepsTo (.binop op lhs rhs line) := by
  intro n a c c' ha h
  simp only [compileExpr] at h
  have hops : ∀ {c₀ c₁ : Compiler} {b x : Nat}, a < c₀.fs.usedRegs →
      (operandsWith (classify lhs) (fun r => compileExpr lhs r 1) (classify rhs)
        (fun r => compileExpr rhs r 1) a line).run c₀ = .ok ((b, x), c₁) →
      ExprOk a c₀ c₁ ∧ RKFits c₀.fs.slots a b ∧ RKFits c₀.fs.slots a x := fun ha h =>
    operandsWith_spec (classify_classifies lhs) (hl 1) (classify_classifies rhs) (hr.keeps 1) ha h
  -- one case for each pattern of the match on the operator: `and` and `or`, `..`, `^`, the six
  -- comparisons, then the arithmetic and bitwise operators
  split at h
  case h_1 | h_2 => exact logicalWith_exprOk (classify_classifies lhs) (hl 1) (hr.keeps 1) ha h
  case h_3 => exact concatWith_exprOk (concat_operands hl hr) h
  case h_4 => exact powWith_exprOk (pow_operands hl hr) ha h
  case h_5 | h_6 | h_7 | h_8 | h_9 | h_10 => exact compareWith_exprOk (fun _ _ _ h₁ => hops ha h₁) h
  case h_11 =>
    obtain ⟨⟨b, x⟩, c₁, h₁, h₂⟩ := run_bind_ok h
    obtain ⟨hc₁, hb, hx⟩ := hops ha h₁
    rw [← hc₁.slots] at hb hx
    exact hc₁.trans (emitABC_exprOk h₂ fun hfit => abc_elim hfit fun i ho hia hib hic =>
      .arith (ho ▸ arithOpcode_mem _) (Nat.le_of_eq hia.symm) (hib ▸ hb) (hic ▸ hx))

theorem binop_sound {op : BinOp} (hl : KeepsTo lhs) (hr : Sound rhs) :
    Sound (.binop op lhs rhs line) where
  keeps := binop_keeps hl hr
  parts := trivial
  concat := by
    rw [concatParts_binop]
    split
    · exact concat_operands hl hr
    · simp
  pow := by
    rw [powParts_binop]
    split
    · exact pow_operands hl hr
    · simp

/-! ## Indexing, calls, functions and tables -/

/-- `t[k]`: the table read in place or evaluated into the target, the key an RK operand or
evaluated into the target or a temporary. -/
theorem index_keeps {t k : Expr} (ht : KeepsTo t) (hk : KeepsTo k) : KeepsTo (.index t k line) := by
  intro n a c c' ha h
  exact indexWith_exprOk (classify_classifies t) (ht 1) (classify_classifies k) (hk 1) ha h

/-- `t.key`: an index whose key is a string constant. -/
theorem field_keeps {t : Expr} {key : String} (ht : KeepsTo t) : KeepsTo (.field t key line) := by
  intro n a c c' ha h
  exact indexWith_exprOk (classify_classifies t) (ht 1) (constOperand_classifies _) (loadK_into _)
    ha h

variable {args : List Expr} {n : Int} {tail : Bool}

/-- A call of `f` into the top register `a`, as a value or in tail position. -/
theorem call_exprOk {f : Expr} (hf : KeepsTo f) (hargs : ∀ x ∈ args, KeepsTo x)
    (h : (callWith (do compileExpr f a 1; pure 0) (compileArgs line args) args.length a n tail
      line).run c = .ok ((), c')) : ExprOk a c c' := by
  refine callWith_exprOk (fun c₀ c₁ own ha h₀ => ?_) (fun _ _ _ h₀ => compileArgs_spec hargs h₀) h
  obtain ⟨u, c₂, h₁, h₂⟩ := run_bind_ok h₀
  obtain ⟨rfl, rfl⟩ := run_pure_ok h₂
  have hc₂ := hf 1 a c₀ c₂ ha h₁
  exact ⟨hc₂.toStep, hc₂.usedRegs⟩

/-- A method call `obj:name(args)` into the top register `a`, as a value or in tail position. -/
theorem method_exprOk {obj : Expr} {name : String} (hobj : KeepsTo obj)
    (hargs : ∀ x ∈ args, KeepsTo x)
    (h : (callWith (methodWith (classify obj) (fun r => compileExpr obj r 1) name a line)
      (compileArgs line args) args.length a n tail line).run c = .ok ((), c')) : ExprOk a c c' :=
  callWith_exprOk (fun _ _ _ ha h₀ => methodWith_spec (classify_classifies obj) (hobj 1) ha h₀)
    (fun _ _ _ h₀ => compileArgs_spec hargs h₀) h

theorem call_keeps {f : Expr} (hf : KeepsTo f) (hargs : ∀ x ∈ args, KeepsTo x) :
    KeepsTo (.call f args line) := by
  intro n a c c' _ h
  exact call_exprOk hf hargs h

theorem method_keeps {obj : Expr} {name : String} (hobj : KeepsTo obj)
    (hargs : ∀ x ∈ args, KeepsTo x) : KeepsTo (.method obj name args line) := by
  intro n a c c' _ h
  exact method_exprOk hobj hargs h

theorem func_keeps {body : FuncBody} (hb : FuncKeeps body) : KeepsTo (.func body) := by
  intro n a c c' _ h
  exact hb a false c c' h

/-- A table constructor, into the top register: `newtable`, then its fields. -/
theorem table_keeps {fields : List Field} (hf : ∀ f ∈ fields, FieldKeeps f) :
    KeepsTo (.table fields line) := by
  intro n a c c' ha h
  obtain ⟨top, c₁, h₁, h₂⟩ := run_bind_ok h
  obtain ⟨rfl, rfl⟩ := run_readFs h₁
  obtain ⟨-, h₂⟩ := run_guard h₂
  obtain ⟨u, c₂, h₃, h₄⟩ := run_bind_ok h₂
  have hc₂ := emitNewTable_exprOk h₃ (Nat.le_refl a)
  have hu₂ := hc₂.usedRegs
  obtain ⟨hs, hu⟩ := compileFields_spec hf (by omega) (Nat.zero_add _) (fun _ => rfl) h₄
  exact hc₂.trans ⟨hs, by omega⟩

end Compiler

end LuaBytecode
