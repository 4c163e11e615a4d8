import LuaBytecode.Proofs.Compiler.BuiltOperands
import LuaBytecode.Proofs.Compiler.Expressions
/-!
# Every node of an expression keeps the code well built

`Compiler.compileExpr`, one node at a time: given that the parts of a node keep the code well
built, so does the node. The recursion over the whole tree, which supplies the parts, is in
`Compiler.WellFormedCode`.

Compiled with `n` values wanted, an expression leaves the code asking `exprDemand e n` of the
next instruction: the values up to top when a call or `...` is asked for all of them, nothing
otherwise. What the recursion carries for an expression `e` is `ExprBuilds e`:

* `BuildsInto e`: compiling `e` into any register below 256, with any count of values wanted,
  from code that asks nothing, keeps the code well built and asks `exprDemand e n`;
* `JumpsOut e`: a comparison compiled as a condition ends with its jump, which the statement
  around it patches;
* the parts that statements compile by themselves (the callee and arguments of a call, the
  table and key of an index), and the operands of concatenation and power chains.

Lists of arguments and of table fields are handled by induction on the list
(`compileArgs_built`, `compileFields_built`): the last argument, and the last list item of a
constructor, may be left open, and then the call or the `setlist` right after takes the values
up to top.
-/

namespace LuaBytecode

namespace Compiler

open Instruction

/-- What compiling `e` with `n` values wanted asks of the next instruction: the values up to
top, for a call or `...` asked for all of them, and nothing otherwise. -/
def exprDemand (e : Expr) (n : Int) : Demand :=
  if e.isMultiValued then topIf (FuncState.word32 (n + 1)) else .free

/-- Compiling `e` into any register below 256 keeps the code well built, whatever count of
values is wanted. -/
def BuildsInto (e : Expr) : Prop := ∀ n, IntoBuilt (fun a => compileExpr e a n) (exprDemand e n)

/-- With no value wanted, a comparison ends with its jump, still to be patched. -/
def JumpsOut (e : Expr) : Prop :=
  e.isComparison = true → ∀ a c c', a < 256 → WellBuilt .free c →
    (compileExpr e a 0).run c = .ok ((), c') → c'.fs.JumpAt (c'.fs.code.size - 1)

/-- The parts of `e` that statements compile by themselves keep the code well built: the callee
(or object) and the arguments of a call, and the table and key of an index. -/
def PartsBuild : Expr → Prop
  | .call f args _ | .method f _ args _ => BuildsInto f ∧ ∀ x ∈ args, BuildsInto x
  | .index t k _ => BuildsInto t ∧ BuildsInto k
  | .field t _ _ => BuildsInto t
  | _ => True

/-- What the recursion over the tree proves of each expression. -/
structure ExprBuilds (e : Expr) : Prop where
  into : BuildsInto e
  cond : JumpsOut e
  parts : PartsBuild e
  concat : ∀ p ∈ concatParts e, IntoBuilt p .free
  pow : ∀ p ∈ powParts e, ClassifiesRK p.1 ∧ IntoBuilt p.2 .free

/-- The key and the value of a table field keep the code well built. -/
def FieldBuilds : Field → Prop
  | .keyed k v => BuildsInto k ∧ BuildsInto v
  | .named _ v | .positional v => BuildsInto v

/-- A nested function compiled into any register keeps the code well built. -/
def FuncBuilds (body : FuncBody) : Prop :=
  ∀ a isMethod c c', WellBuilt .free c → (compileFunction body a isMethod).run c = .ok ((), c') →
    Built .free c c'

variable {a line : Nat} {n : Int} {c c' : Compiler} {e : Expr}

/-! ## What an expression asks -/

theorem exprDemand_one (e : Expr) : exprDemand e 1 = .free := by
  simp [exprDemand, topIf, FuncState.word32]

theorem exprDemand_zero (e : Expr) : exprDemand e 0 = .free := by
  simp [exprDemand, topIf, FuncState.word32]

/-- A call or `...` asked for all its values leaves them open up to top. -/
theorem exprDemand_open (h : e.isMultiValued = true) : exprDemand e (-1) = .top := by
  simp [exprDemand, h, topIf, FuncState.word32]

/-- The last of a list of values, left open when it can yield several. -/
theorem exprDemand_last {isOpen : Bool} (h : isOpen = true → e.isMultiValued = true) :
    exprDemand e (if isOpen then -1 else 1) = if isOpen then .top else .free := by
  cases isOpen
  · exact exprDemand_one e
  · exact exprDemand_open (h rfl)

theorem BuildsInto.one (h : BuildsInto e) : IntoBuilt (fun a => compileExpr e a 1) .free :=
  exprDemand_one e ▸ h 1

/-- Only a binary node can be a comparison. -/
theorem JumpsOut.of_not (h : e.isComparison = false) : JumpsOut e :=
  fun h' => absurd (h.symm.trans h') (by decide)

/-- A node that is neither a comparison nor a chain, with no parts of its own, is sound once it
keeps the code well built. -/
theorem ExprBuilds.of_into (hb : BuildsInto e) (hj : e.isComparison = false) (hp : PartsBuild e)
    (hc : concatParts e = []) (hw : powParts e = []) : ExprBuilds e :=
  ⟨hb, .of_not hj, hp, by simp [hc], by simp [hw]⟩

/-! ## Arguments and fields -/

/-- The arguments of a call, each into the next register; the call that follows takes them up
to top when the last one was left open. -/
theorem compileArgs_built : ∀ {args : List Expr} {c c' : Compiler} {isOpen : Bool},
    (∀ x ∈ args, BuildsInto x) → WellBuilt .free c →
      (compileArgs line args).run c = .ok (isOpen, c') →
      Built (if isOpen then .top else .free) c c'
  | [], _, _, _, _, hw, h => by
    obtain ⟨rfl, rfl⟩ := run_pure_ok h
    exact .refl hw
  | [x], c, c', _, hx, hw, h => by
    obtain ⟨r, c₁, h₁, h₂⟩ := run_bind_ok h
    obtain ⟨hb₁, hr⟩ := alloc_built hw h₁
    have hx' := hx x (List.mem_singleton_self x)
    split at h₂
    · -- the last argument, left open
      rename_i hm
      obtain ⟨u, c₂, h₃, h₄⟩ := run_bind_ok h₂
      obtain ⟨rfl, rfl⟩ := run_pure_ok h₄
      have hb₂ := hx' (-1) _ _ _ (by omega) hb₁.wb h₃
      rw [exprDemand_open hm] at hb₂
      exact hb₁.trans hb₂
    · obtain ⟨u, c₂, h₃, h₄⟩ := run_bind_ok h₂
      obtain ⟨rfl, rfl⟩ := run_pure_ok h₄
      exact hb₁.trans (hx'.one _ _ _ (by omega) hb₁.wb h₃)
  | x :: y :: rest, c, c', _, hx, hw, h => by
    obtain ⟨r, c₁, h₁, h₂⟩ := run_bind_ok h
    obtain ⟨hb₁, hr⟩ := alloc_built hw h₁
    obtain ⟨u, c₂, h₃, h₄⟩ := run_bind_ok h₂
    have hb₂ := (hx x (.head _)).one _ _ _ (by omega) hb₁.wb h₃
    exact hb₁.trans (hb₂.trans (compileArgs_built (fun z hz => hx z (.tail _ hz)) hb₂.wb h₄))

theorem topIf_last {isOpen : Bool} {p : Nat} :
    topIf (if isOpen then 0 else p + 1) = if isOpen then .top else .free := by
  cases isOpen <;> simp [topIf]

/-- The fields of a constructor for the table in `a`. A list item is left open only when it is
the last field, and then it is also the last list item, so a `setlist` that takes the values up
to top follows it at once. -/
theorem compileFields_built {nArr nFields : Nat} (ha : a < 256) :
    ∀ {fields : List Field} {i arrIdx pending : Nat} {c c' : Compiler},
      (∀ f ∈ fields, FieldBuilds f) → WellBuilt .free c →
      arrIdx + fields.countP Field.isPositional = nArr → i + fields.length = nFields →
      (compileFields a line nArr nFields fields i arrIdx pending).run c = .ok ((), c') →
      Built .free c c'
  | [], _, _, _, _, _, _, hw, _, _, h => by
    obtain ⟨-, rfl⟩ := run_pure_ok h
    exact .refl hw
  | .positional v :: rest, i, arrIdx, pending, c, c', hf, hw, hn, hi, h => by
    obtain ⟨r, c₁, h₁, h₂⟩ := run_bind_ok h
    obtain ⟨hb₁, hr⟩ := alloc_built hw h₁
    obtain ⟨u, c₂, h₃, h₄⟩ := run_bind_ok h₂
    have hv : BuildsInto v := hf _ (.head _)
    have hrest : ∀ f ∈ rest, FieldBuilds f := fun f hf' => hf f (.tail _ hf')
    have hb₂ := hv _ _ _ _ (by omega) hb₁.wb h₃
    rw [exprDemand_last fun ho => (Bool.and_eq_true _ _ ▸ ho).2] at hb₂
    simp only [List.countP_cons, Field.isPositional, if_true] at hn
    simp only [List.length_cons] at hi
    split at h₄
    · -- a `setlist` takes the waiting items, up to top when the last one is open
      obtain ⟨u, c₃, h₅, h₆⟩ := run_bind_ok h₄
      obtain ⟨hb₃, -⟩ := freeN_built hb₂.wb h₅
      obtain ⟨u, c₄, h₇, h₈⟩ := run_bind_ok h₆
      have hb₄ := emitSetList_built (topIf_last ▸ hb₃.wb) (Nat.succ_pos _) h₇
      exact hb₁.trans (hb₂.trans (hb₃.trans (hb₄.trans
        (compileFields_built ha hrest hb₄.wb (by omega) (by omega) h₈))))
    · -- the item waits: it is not the last one, so it was not left open
      rename_i hflush
      have hclosed : (i + 1 == nFields && v.isMultiValued) = false := by
        refine Bool.eq_false_iff.mpr fun ho => hflush ?_
        have hlast : i + 1 = nFields := beq_iff_eq.mp (Bool.and_eq_true _ _ ▸ ho).1
        have hnil : rest = [] := List.eq_nil_of_length_eq_zero (by omega)
        subst hnil
        simp at hn
        simp [hn]
      rw [hclosed] at hb₂
      exact hb₁.trans (hb₂.trans (compileFields_built ha hrest hb₂.wb (by omega) (by omega) h₄))
  | .named name v :: rest, i, arrIdx, pending, c, c', hf, hw, hn, hi, h => by
    obtain ⟨u, c₁, h₁, h₂⟩ := run_bind_ok h
    have hb₁ := entryWith_built (constOperand_classifiesRK _) (loadK_built _)
      (classify_classifiesRK v) (hf _ (.head _) : BuildsInto v).one hw h₁
    simp only [List.countP_cons, Field.isPositional, List.length_cons] at hn hi
    exact hb₁.trans (compileFields_built ha (fun f hf' => hf f (.tail _ hf')) hb₁.wb (by simpa using hn)
      (by omega) h₂)
  | .keyed k v :: rest, i, arrIdx, pending, c, c', hf, hw, hn, hi, h => by
    obtain ⟨u, c₁, h₁, h₂⟩ := run_bind_ok h
    obtain ⟨hk, hv⟩ : BuildsInto k ∧ BuildsInto v := hf _ (.head _)
    have hb₁ := entryWith_built (classify_classifiesRK k) hk.one (classify_classifiesRK v) hv.one
      hw h₁
    simp only [List.countP_cons, Field.isPositional, List.length_cons] at hn hi
    exact hb₁.trans (compileFields_built ha (fun f hf' => hf f (.tail _ hf')) hb₁.wb (by simpa using hn)
      (by omega) h₂)

/-! ## Leaves -/

theorem nil_builds : BuildsInto (.nil line) := fun _ _ _ _ _ hw h => emitLoadNil_built hw h

theorem bool_builds {b : Bool} : BuildsInto (.bool b line) :=
  fun _ _ _ _ _ hw h => emitLoadBool_built hw (.inl rfl) h

theorem int_builds {v : Int64} : BuildsInto (.int v line) := fun _ => loadK_built (.int v)

theorem float_builds {bits : UInt64} : BuildsInto (.float bits line) :=
  fun _ => loadK_built (.float bits)

theorem str_builds {s : String} : BuildsInto (.str s line) := fun _ => loadK_built (.str s)

/-- `...` is refused outside a vararg function, and leaves its values open when all are
wanted. -/
theorem vararg_builds : BuildsInto (.vararg line) := by
  intro n a c c' _ hw h
  obtain ⟨v, c₁, h₁, h₂⟩ := run_bind_ok h
  obtain ⟨rfl, rfl⟩ := run_readFs h₁
  obtain ⟨-, h₂⟩ := run_guard h₂
  exact emitVararg_built hw h₂

theorem name_builds {s : String} : BuildsInto (.name s line) := fun _ => compileName_built

/-! ## Operators -/

/-- Parentheses cut an expression down to one value. -/
theorem paren_builds {inner : Expr} (hi : BuildsInto inner) : BuildsInto (.paren inner line) :=
  fun _ => hi.one

theorem unopOpcode_plain (op : UnOp) : unopOpcode op ∈ plainOpcodes := by
  cases op <;> decide

/-- A unary operator reads its operand from a temporary. -/
theorem unop_builds {op : UnOp} {operand : Expr} (ho : BuildsInto operand) :
    BuildsInto (.unop op operand line) := by
  intro n a c c' ha hw h
  obtain ⟨b, c₁, hb, hb₁, h₂⟩ := temp_built ho.one hw h
  exact hb₁.trans (emitPlain_built _ hb₁.wb (unopOpcode_plain op)
    (fun e => absurd e (by cases op <;> decide)) (fun e => absurd e (by cases op <;> decide)) h₂)

variable {lhs rhs : Expr}

/-- The operands of `lhs .. rhs`, as its node compiles them. -/
theorem concat_parts_build (hl : BuildsInto lhs) (hr : ExprBuilds rhs) :
    ∀ p ∈ (fun r => compileExpr lhs r 1) ::
      (if rhs.isBinop .concat then concatParts rhs else [fun r => compileExpr rhs r 1]),
      IntoBuilt p .free := by
  intro p hp
  rcases List.mem_cons.mp hp with rfl | hp
  · exact hl.one
  · split at hp
    · exact hr.concat p hp
    · obtain rfl := List.mem_singleton.mp hp
      exact hr.into.one

/-- The operands of `lhs ^ rhs`, as its node compiles them. -/
theorem pow_parts_build (hl : BuildsInto lhs) (hr : ExprBuilds rhs) :
    ∀ p ∈ (classify lhs, fun r => compileExpr lhs r 1) ::
      (if rhs.isBinop .pow then powParts rhs else [(classify rhs, fun r => compileExpr rhs r 1)]),
      ClassifiesRK p.1 ∧ IntoBuilt p.2 .free := by
  intro p hp
  rcases List.mem_cons.mp hp with rfl | hp
  · exact ⟨classify_classifiesRK lhs, hl.one⟩
  · split at hp
    · exact hr.pow p hp
    · obtain rfl := List.mem_singleton.mp hp
      exact ⟨classify_classifiesRK rhs, hr.into.one⟩

variable (line) in
/-- The operands of a binary instruction with the parts of a node as its operands. -/
theorem binop_operands (hl : BuildsInto lhs) (hr : ExprBuilds rhs) (ha : a < 256) :
    ∀ c c' b x, WellBuilt .free c →
      (operandsWith (classify lhs) (fun r => compileExpr lhs r 1) (classify rhs)
        (fun r => compileExpr rhs r 1) a line).run c = .ok ((b, x), c') →
      Built .free c c' ∧ c'.RK b ∧ c'.RK x :=
  fun _ _ _ _ hw h => operandsWith_built (classify_classifiesRK lhs) hl.one
    (classify_classifiesRK rhs) hr.into.one ha hw h

/-- A binary operator: `and` and `or` test the left operand, chains go to consecutive registers,
comparisons test and jump, and the other operators read RK operands. -/
theorem binop_into {op : BinOp} (hl : BuildsInto lhs) (hr : ExprBuilds rhs) :
    BuildsInto (.binop op lhs rhs line) := by
  intro n a c c' ha hw h
  have hops := binop_operands line hl hr ha
  -- one case for each operator: `and` and `or`, `..`, `^`, the six comparisons, then the
  -- arithmetic and bitwise operators
  cases op
  case and | or =>
    exact logicalWith_built (classify_classifiesRK lhs) hl.one hr.into.one a c c' ha hw h
  case concat => exact concatWith_built (concat_parts_build hl hr) a c c' ha hw h
  case pow => exact powWith_built (pow_parts_build hl hr) a c c' ha hw h
  case eq | ne | lt | le | gt | ge => exact (compareWith_built hops hw h).1
  all_goals
    obtain ⟨⟨b, x⟩, c₁, h₁, h₂⟩ := run_bind_ok h
    obtain ⟨hb₁, hb, hx⟩ := hops _ _ _ _ hw h₁
    exact hb₁.trans (emitPlain_built _ hb₁.wb (by decide) (fun _ => hb) (fun _ => hx) h₂)

/-- As a condition, a comparison ends with the jump taken when it fails. -/
theorem binop_jumpsOut {op : BinOp} (hl : BuildsInto lhs) (hr : ExprBuilds rhs) :
    JumpsOut (.binop op lhs rhs line) := by
  intro hc a c c' ha hw h
  have hops := binop_operands line hl hr ha
  cases op
  case eq | ne | lt | le | gt | ge => exact (compareWith_built hops hw h).2 (by decide)
  all_goals simp [Expr.isComparison] at hc

theorem binop_builds {op : BinOp} (hl : BuildsInto lhs) (hr : ExprBuilds rhs) :
    ExprBuilds (.binop op lhs rhs line) where
  into := binop_into hl hr
  cond := binop_jumpsOut hl hr
  parts := trivial
  concat := by
    rw [concatParts_binop]
    split
    · exact concat_parts_build hl hr
    · simp
  pow := by
    rw [powParts_binop]
    split
    · exact pow_parts_build hl hr
    · simp

/-! ## Indexing, calls, functions and tables -/

theorem index_builds {t k : Expr} (ht : BuildsInto t) (hk : BuildsInto k) :
    BuildsInto (.index t k line) :=
  fun _ => indexWith_built (classify_classifiesRK t) ht.one (classify_classifiesRK k) hk.one

theorem field_builds {t : Expr} {key : String} (ht : BuildsInto t) :
    BuildsInto (.field t key line) :=
  fun _ => indexWith_built (classify_classifiesRK t) ht.one (constOperand_classifiesRK _)
    (loadK_built _)

variable {args : List Expr} {t : Bool}

/-- A call of `f` into the top register `a`, as a value or in tail position. -/
theorem call_built {f : Expr} (hf : BuildsInto f) (hargs : ∀ x ∈ args, BuildsInto x) (ha : a < 256)
    (hw : WellBuilt .free c)
    (h : (callWith (do compileExpr f a 1; pure 0) (compileArgs line args) args.length a n t
      line).run c = .ok ((), c')) :
    Built (if t then .top else topIf (FuncState.word32 (n + 1))) c c' := by
  refine callWith_built (fun c₀ c₁ own hw₀ h₀ => ?_) (fun _ _ _ hw₀ h₀ => compileArgs_built hargs hw₀ h₀)
    hw h
  obtain ⟨u, c₂, h₁, h₂⟩ := run_bind_ok h₀
  obtain ⟨rfl, rfl⟩ := run_pure_ok h₂
  exact hf.one a _ _ ha hw₀ h₁

/-- A method call `obj:name(args)` into the top register `a`, as a value or in tail position. -/
theorem method_built {obj : Expr} {name : String} (hobj : BuildsInto obj)
    (hargs : ∀ x ∈ args, BuildsInto x) (ha : a < 256) (hw : WellBuilt .free c)
    (h : (callWith (methodWith (classify obj) (fun r => compileExpr obj r 1) name a line)
      (compileArgs line args) args.length a n t line).run c = .ok ((), c')) :
    Built (if t then .top else topIf (FuncState.word32 (n + 1))) c c' :=
  callWith_built (fun _ _ _ hw₀ h₀ => methodWith_built (classify_classifiesRK obj) hobj.one ha hw₀ h₀)
    (fun _ _ _ hw₀ h₀ => compileArgs_built hargs hw₀ h₀) hw h

theorem call_builds {f : Expr} (hf : BuildsInto f) (hargs : ∀ x ∈ args, BuildsInto x) :
    BuildsInto (.call f args line) :=
  fun _ _ _ _ ha hw h => call_built (t := false) hf hargs ha hw h

theorem method_builds {obj : Expr} {name : String} (hobj : BuildsInto obj)
    (hargs : ∀ x ∈ args, BuildsInto x) : BuildsInto (.method obj name args line) :=
  fun _ _ _ _ ha hw h => method_built (t := false) hobj hargs ha hw h

theorem func_builds {body : FuncBody} (hb : FuncBuilds body) : BuildsInto (.func body) :=
  fun _ a c c' _ hw h => hb a false c c' hw h

/-- A table constructor into the top register: `newtable`, then its fields. -/
theorem table_builds {fields : List Field} (hf : ∀ f ∈ fields, FieldBuilds f) :
    BuildsInto (.table fields line) := by
  intro n a c c' ha hw h
  obtain ⟨top, c₁, h₁, h₂⟩ := run_bind_ok h
  obtain ⟨rfl, rfl⟩ := run_readFs h₁
  obtain ⟨-, h₂⟩ := run_guard h₂
  obtain ⟨u, c₂, h₃, h₄⟩ := run_bind_ok h₂
  have hb₂ := emitNewTable_built hw h₃
  exact hb₂.trans (compileFields_built ha hf hb₂.wb (Nat.zero_add _) (Nat.zero_add _) h₄)

end Compiler

end LuaBytecode
