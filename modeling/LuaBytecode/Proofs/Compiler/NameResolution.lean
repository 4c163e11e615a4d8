import LuaBytecode.Proofs.Compiler.Scoping
import LuaBytecode.Proofs.Compiler.Expressions
/-!
# Names resolve lexically

Every name the compiler meets is compiled as an access to what it stands for: the register of
its innermost active local in the function being written, else an upvalue whose chain of
sources leads to the register of the innermost local of that name in the nearest enclosing
function that has one, else a field of `_ENV`, itself a name resolved by the same rule.

* `compileExpr_stable`, `compileStmt_stable`, `compileBlock_stable`: one recursion over the
  syntax tree shows that every expression, statement and block keeps `Compiler.Scoped`, from
  the lemma of `Compiler.Scoping` for each kind of node applied to what the recursion gives for
  the node's parts;
* `compile_upvaluesDistinct`: the prototypes of a compiled chunk name each upvalue once, at every
  depth;
* `names_resolve_lexically`: the chunk starts scoped, every step keeps it so, and in a scoped
  state every lookup is lexical (`Compiler.LooksUpLexically`).
-/

namespace LuaBytecode

namespace Compiler

variable {line : Nat}

/-- Compiling `e` keeps the invariant, into any register and for any count of values. -/
def CompilesStably (e : Expr) : Prop := ∀ a n, Stable Scoped (compileExpr e a n)

/-- The parts of `e` that statements compile by themselves keep the invariant: the callee (or
object) and the arguments of a call, and the table and key of an index. -/
def PartsStable : Expr → Prop
  | .call f args _ | .method f _ args _ => CompilesStably f ∧ ∀ x ∈ args, CompilesStably x
  | .index t k _ => CompilesStably t ∧ CompilesStably k
  | .field t _ _ => CompilesStably t
  | _ => True

/-- What the recursion over the tree proves of each expression. -/
structure ExprStable (e : Expr) : Prop where
  compile : CompilesStably e
  parts : PartsStable e
  concat : ∀ p ∈ concatParts e, ∀ r, Stable Scoped (p r)
  pow : ∀ p ∈ powParts e, Stable Scoped p.1 ∧ ∀ r, Stable Scoped (p.2 r)

/-- The key and the value of a table field keep the invariant. -/
def FieldStable : Field → Prop
  | .keyed k v => CompilesStably k ∧ CompilesStably v
  | .named _ v | .positional v => CompilesStably v

/-- A node that heads no chain is stable once its code and its parts are. -/
theorem ExprStable.of_compile {e : Expr} (h : CompilesStably e) (hp : PartsStable e)
    (hc : concatParts e = []) (hw : powParts e = []) : ExprStable e :=
  ⟨h, hp, by simp [hc], by simp [hw]⟩

/-! ## Arguments, fields and values -/

theorem compileArgs_stable : ∀ {args : List Expr}, (∀ x ∈ args, CompilesStably x) →
    Stable Scoped (compileArgs line args)
  | [], _ => .pure _
  | [x], h => by
    unfold compileArgs
    refine alloc_stable.bind fun tmp => ?_
    split
    · exact (h x List.mem_cons_self tmp _).bind fun _ => .pure _
    · exact (h x List.mem_cons_self tmp _).bind fun _ => .pure _
  | x :: y :: rest, h => by
    unfold compileArgs
    exact alloc_stable.bind fun tmp => (h x List.mem_cons_self tmp 1).bind fun _ =>
      compileArgs_stable fun z hz => h z (List.mem_cons_of_mem _ hz)

theorem compileFields_stable {a nArr nFields : Nat} :
    ∀ {fields : List Field} {i arrIdx pending : Nat}, (∀ f ∈ fields, FieldStable f) →
      Stable Scoped (compileFields a line nArr nFields fields i arrIdx pending)
  | [], _, _, _, _ => .pure _
  | .positional v :: rest, i, arrIdx, pending, h => by
    have hv : CompilesStably v := h _ List.mem_cons_self
    have ih : ∀ {i arrIdx pending : Nat},
        Stable Scoped (compileFields a line nArr nFields rest i arrIdx pending) :=
      compileFields_stable fun f hf => h f (List.mem_cons_of_mem _ hf)
    unfold compileFields
    refine alloc_stable.bind fun tmp => (hv tmp _).bind fun _ => ?_
    split
    · exact freeN_stable.bind fun _ =>
        (Stable.updateFs_nesting fun _ _ => FuncState.emitSetList_nesting).bind fun _ => ih
    · exact ih
  | .named name v :: rest, i, arrIdx, pending, h => by
    have hv : CompilesStably v := h _ List.mem_cons_self
    unfold compileFields
    exact (entryWith_stable constOperand_stable (fun _ => emitLoadK_stable) (classify_stable v)
      (fun r => hv r 1)).bind fun _ => compileFields_stable fun f hf => h f (List.mem_cons_of_mem _ hf)
  | .keyed k v :: rest, i, arrIdx, pending, h => by
    obtain ⟨hk, hv⟩ : FieldStable (.keyed k v) := h _ List.mem_cons_self
    unfold compileFields
    exact (entryWith_stable (classify_stable k) (fun r => hk r 1) (classify_stable v)
      (fun r => hv r 1)).bind fun _ => compileFields_stable fun f hf => h f (List.mem_cons_of_mem _ hf)

theorem adjustValues_stable {nVars kept : Nat} : ∀ {values : List Expr} {i : Nat},
    (∀ v ∈ values, CompilesStably v) → Stable Scoped (adjustValues nVars kept line values i)
  | [], _, _ => .pure _
  | v :: rest, i, h => by
    have hv : CompilesStably v := h v List.mem_cons_self
    have ih : ∀ {i : Nat}, Stable Scoped (adjustValues nVars kept line rest i) :=
      adjustValues_stable fun w hw => h w (List.mem_cons_of_mem _ hw)
    unfold adjustValues
    split
    · exact .pure _
    · refine alloc_stable.bind fun a => ?_
      split
      · exact (hv a _).bind fun _ => ih
      · split
        · exact (hv a _).bind fun _ =>
            (Stable.onFs_nesting fun _ _ _ => FuncState.allocRegs_nesting).bind fun _ => .pure _
        · exact (hv a 1).bind fun _ => ih

theorem resolveTargets_stable : ∀ {targets : List Expr}, (∀ t ∈ targets, PartsStable t) →
    Stable Scoped (resolveTargets targets)
  | [], _ => .pure _
  | t :: rest, h => by
    have ht := h t List.mem_cons_self
    unfold resolveTargets
    refine Stable.bind ?_ fun _ =>
      (resolveTargets_stable fun u hu => h u (List.mem_cons_of_mem _ hu)).bind fun _ => .pure _
    split
    · exact nameTarget_stable
    · obtain ⟨htbl, hkey⟩ := ht
      exact alloc_stable.bind fun tr => (htbl tr 1).bind fun _ => alloc_stable.bind fun kr =>
        (hkey kr 1).bind fun _ => .pure _
    · exact alloc_stable.bind fun tr => (ht tr 1).bind fun _ => alloc_stable.bind fun _ =>
        emitLoadK_stable.bind fun _ => .pure _
    · exact .throw _

theorem compileReturnValues_stable : ∀ {values : List Expr}, (∀ v ∈ values, CompilesStably v) →
    Stable Scoped (compileReturnValues line values)
  | [], _ => .pure _
  | [v], h => by
    unfold compileReturnValues
    exact alloc_stable.bind fun a => h v List.mem_cons_self a _
  | v :: w :: rest, h => by
    unfold compileReturnValues
    exact alloc_stable.bind fun a => (h v List.mem_cons_self a 1).bind fun _ =>
      compileReturnValues_stable fun u hu => h u (List.mem_cons_of_mem _ hu)

/-! ## Expressions -/

section Expressions

variable {lhs rhs : Expr}

theorem nil_stable : ExprStable (.nil line) :=
  .of_compile (fun _ _ => .updateFs_nesting fun _ _ => FuncState.emitLoadNil_nesting) trivial rfl rfl

theorem bool_stable {b : Bool} : ExprStable (.bool b line) :=
  .of_compile (fun _ _ => .updateFs_nesting fun _ _ => FuncState.emitABC_nesting) trivial rfl rfl

theorem int_stable {v : Int64} : ExprStable (.int v line) :=
  .of_compile (fun _ _ => emitLoadK_stable) trivial rfl rfl

theorem float_stable {bits : UInt64} : ExprStable (.float bits line) :=
  .of_compile (fun _ _ => emitLoadK_stable) trivial rfl rfl

theorem str_stable {s : String} : ExprStable (.str s line) :=
  .of_compile (fun _ _ => emitLoadK_stable) trivial rfl rfl

theorem vararg_stable : ExprStable (.vararg line) :=
  .of_compile (fun _ _ => (Stable.readFs _).bind fun _ =>
    .guard (.updateFs_nesting fun _ _ => FuncState.emitABC_nesting)) trivial rfl rfl

theorem name_stable {s : String} : ExprStable (.name s line) :=
  .of_compile (fun _ _ => compileName_stable) trivial rfl rfl

theorem paren_stable {inner : Expr} (hi : CompilesStably inner) : ExprStable (.paren inner line) :=
  .of_compile (fun _ _ => hi _ 1) trivial rfl rfl

theorem unop_stable {op : UnOp} {operand : Expr} (ho : CompilesStably operand) :
    ExprStable (.unop op operand line) :=
  .of_compile (fun _ _ => alloc_stable.bind fun b => (ho b 1).bind fun _ => free_stable.bind fun _ =>
    emitABC_stable) trivial rfl rfl

/-- The operands of `lhs .. rhs`, as its node compiles them. -/
theorem concat_stable (hl : CompilesStably lhs) (hr : ExprStable rhs) :
    ∀ p ∈ (fun r => compileExpr lhs r 1) ::
      (if rhs.isBinop .concat then concatParts rhs else [fun r => compileExpr rhs r 1]),
      ∀ r, Stable Scoped (p r) := by
  intro p hp
  rcases List.mem_cons.mp hp with rfl | hp
  · exact fun r => hl r 1
  · split at hp
    · exact hr.concat p hp
    · obtain rfl := List.mem_singleton.mp hp
      exact fun r => hr.compile r 1

/-- The operands of `lhs ^ rhs`, as its node compiles them. -/
theorem pow_stable (hl : CompilesStably lhs) (hr : ExprStable rhs) :
    ∀ p ∈ (classify lhs, fun r => compileExpr lhs r 1) ::
      (if rhs.isBinop .pow then powParts rhs else [(classify rhs, fun r => compileExpr rhs r 1)]),
      Stable Scoped p.1 ∧ ∀ r, Stable Scoped (p.2 r) := by
  intro p hp
  rcases List.mem_cons.mp hp with rfl | hp
  · exact ⟨classify_stable lhs, fun r => hl r 1⟩
  · split at hp
    · exact hr.pow p hp
    · obtain rfl := List.mem_singleton.mp hp
      exact ⟨classify_stable rhs, fun r => hr.compile r 1⟩

theorem binop_stable {op : BinOp} (hl : CompilesStably lhs) (hr : ExprStable rhs) :
    ExprStable (.binop op lhs rhs line) where
  compile a n := by
    have hops : Stable Scoped (operandsWith (classify lhs) (fun r => compileExpr lhs r 1)
        (classify rhs) (fun r => compileExpr rhs r 1) a line) :=
      operandsWith_stable (classify_stable lhs) (fun r => hl r 1) (classify_stable rhs)
        (fun r => hr.compile r 1)
    simp only [compileExpr]
    -- one case for each pattern of the match on the operator: `and` and `or`, `..`, `^`, the six
    -- comparisons, then the arithmetic and bitwise operators
    split
    case h_1 | h_2 =>
      exact logicalWith_stable (classify_stable lhs) (fun r => hl r 1) (fun r => hr.compile r 1)
    case h_3 => exact concatWith_stable (concat_stable hl hr)
    case h_4 => exact powWith_stable (pow_stable hl hr)
    case h_5 | h_6 | h_7 | h_8 | h_9 | h_10 => exact compareWith_stable hops
    case h_11 => exact hops.bind fun _ => emitABC_stable
  parts := trivial
  concat := by
    rw [concatParts_binop]
    split
    · exact concat_stable hl hr
    · simp
  pow := by
    rw [powParts_binop]
    split
    · exact pow_stable hl hr
    · simp

theorem index_stable {t k : Expr} (ht : CompilesStably t) (hk : CompilesStably k) :
    ExprStable (.index t k line) :=
  .of_compile (fun _ _ => indexWith_stable (classify_stable t) (fun r => ht r 1) (classify_stable k)
    fun r => hk r 1) ⟨ht, hk⟩ rfl rfl

theorem field_stable {t : Expr} {key : String} (ht : CompilesStably t) :
    ExprStable (.field t key line) :=
  .of_compile (fun _ _ => indexWith_stable (classify_stable t) (fun r => ht r 1) constOperand_stable
    fun _ => emitLoadK_stable) ht rfl rfl

variable {args : List Expr}

theorem call_stable {f : Expr} (hf : CompilesStably f) (hargs : ∀ x ∈ args, CompilesStably x) :
    ExprStable (.call f args line) :=
  .of_compile (fun a _ => callWith_stable ((hf a 1).bind fun _ => .pure _)
    (compileArgs_stable hargs)) ⟨hf, hargs⟩ rfl rfl

theorem method_stable {obj : Expr} {name : String} (hobj : CompilesStably obj)
    (hargs : ∀ x ∈ args, CompilesStably x) : ExprStable (.method obj name args line) :=
  .of_compile (fun _ _ => callWith_stable (methodWith_stable (classify_stable obj) fun r => hobj r 1)
    (compileArgs_stable hargs)) ⟨hobj, hargs⟩ rfl rfl

theorem func_stable {body : FuncBody} (hb : ∀ a isMethod, Stable Scoped (compileFunction body a isMethod)) :
    ExprStable (.func body) :=
  .of_compile (fun a _ => hb a false) trivial rfl rfl

theorem table_stable {fields : List Field} (hf : ∀ f ∈ fields, FieldStable f) :
    ExprStable (.table fields line) :=
  .of_compile (fun _ _ => (Stable.readFs _).bind fun _ => .guard
    ((Stable.updateFs_nesting fun _ _ => FuncState.emitABC_nesting).bind fun _ =>
      compileFields_stable hf)) trivial rfl rfl

end Expressions


/-! ## Statements and blocks -/

section Statements

theorem return_stable {values : List Expr} (hv : ∀ v ∈ values, ExprStable v) :
    Stable Scoped (compileReturn (.mk values line)) := by
  unfold compileReturn
  split
  · exact .updateFs_nesting fun _ _ => FuncState.emitABC_nesting
  split
  · -- a single call is a tail call
    split
    · obtain ⟨hf, hargs⟩ := (hv _ List.mem_cons_self).parts
      exact alloc_stable.bind fun a => (callWith_stable ((hf a 1).bind fun _ => .pure _)
        (compileArgs_stable hargs)).bind fun _ => free_stable.bind fun _ =>
          .updateFs_nesting fun _ _ => FuncState.emitABC_nesting
    · obtain ⟨hobj, hargs⟩ := (hv _ List.mem_cons_self).parts
      exact alloc_stable.bind fun _ => (callWith_stable (methodWith_stable (classify_stable _)
        fun r => hobj r 1) (compileArgs_stable hargs)).bind fun _ => free_stable.bind fun _ =>
          .updateFs_nesting fun _ _ => FuncState.emitABC_nesting
    · exact .pure _
  · refine singleLocal_stable.bind fun slot => ?_
    split
    · exact .updateFs_nesting fun _ _ => FuncState.emitABC_nesting
    · exact (compileReturnValues_stable fun v hv' => (hv v hv').compile).bind fun _ =>
        freeN_stable.bind fun _ => (Stable.readFs _).bind fun _ =>
          .updateFs_nesting fun _ _ => FuncState.emitABC_nesting

theorem compileStmts_stable : ∀ {stmts : List Stmt}, (∀ s ∈ stmts, Stable Scoped (compileStmt s)) →
    Stable Scoped (compileStmts stmts)
  | [], _ => .pure _
  | s :: _, h => (h s List.mem_cons_self).bind fun _ =>
    compileStmts_stable fun t ht => h t (List.mem_cons_of_mem _ ht)

theorem block_stable {stmts : List Stmt} {ret : Option Return}
    (hs : ∀ s ∈ stmts, Stable Scoped (compileStmt s)) (hr : ∀ r ∈ ret, Stable Scoped (compileReturn r)) :
    Stable Scoped (compileBlock (.mk stmts ret line)) := by
  unfold compileBlock
  refine (compileStmts_stable hs).bind fun _ => ?_
  cases ret with
  | some r => exact hr r rfl
  | none => exact .pure _

/-- A nested function: entered with no upvalues of its own, left with its prototype added to the
function around it. -/
theorem function_stable {params : List String} {vararg : Bool} {blk : Block}
    (hb : Stable Scoped (compileBlock blk)) (a : Nat) (isMethod : Bool) :
    Stable Scoped (compileFunction (.mk params vararg blk line) a isMethod) := by
  unfold compileFunction
  exact openFunction_stable.bind fun _ => hb.bind fun _ =>
    (Stable.updateFs_nesting fun _ _ => FuncState.emitABC_nesting).bind fun _ => leaveFunction_stable

theorem compileClauses_stable {hasElse : Bool} : ∀ {clauses : List (Expr × Block)},
    (∀ p ∈ clauses, CompilesStably p.1 ∧ Stable Scoped (compileBlock p.2)) →
      Stable Scoped (compileClauses hasElse clauses)
  | [], _ => .pure _
  | (cond, body) :: _, h => by
    obtain ⟨hc, hb⟩ := h _ List.mem_cons_self
    unfold compileClauses
    exact (clauseWith_stable hc hb).bind fun _ =>
      (compileClauses_stable fun p hp => h p (List.mem_cons_of_mem _ hp)).bind fun _ => .pure _

theorem compileElse_stable {elseBody : Option Block}
    (h : ∀ b ∈ elseBody, Stable Scoped (compileBlock b)) : Stable Scoped (compileElse elseBody) := by
  unfold compileElse
  split
  · exact scopedWith_stable (h _ rfl)
  · exact .pure _

theorem compileStep_stable {step : Option Expr} {r : Nat} (h : ∀ e ∈ step, CompilesStably e) :
    Stable Scoped (compileStep step line r) := by
  unfold compileStep
  split
  · exact h _ rfl r 1
  · exact emitLoadK_stable

variable {b : Block}

-- Each statement's step is its arm of `compileStmt` by definition, so the lemmas below are the
-- arm's own lemma, read at the statement.

theorem localDecl_stable {names : List String} {values : List Expr}
    (hv : ∀ v ∈ values, CompilesStably v) : Stable Scoped (compileStmt (.localDecl names values line)) :=
  localWith_stable (adjustValues_stable hv)

theorem assign_stable {targets values : List Expr} (ht : ∀ t ∈ targets, PartsStable t)
    (hv : ∀ v ∈ values, CompilesStably v) : Stable Scoped (compileStmt (.assign targets values line)) :=
  assignWith_stable (resolveTargets_stable ht) (adjustValues_stable hv)

theorem callStmt_stable {e : Expr} (he : CompilesStably e) : Stable Scoped (compileStmt (.callStmt e)) :=
  callStmtWith_stable he

theorem doBlock_stable (hb : Stable Scoped (compileBlock b)) : Stable Scoped (compileStmt (.doBlock b)) :=
  scopedWith_stable hb

theorem whileLoop_stable {cond : Expr} (hc : CompilesStably cond) (hb : Stable Scoped (compileBlock b)) :
    Stable Scoped (compileStmt (.whileLoop cond b line)) :=
  whileWith_stable hc hb

theorem repeatLoop_stable {cond : Expr} (hc : CompilesStably cond) (hb : Stable Scoped (compileBlock b)) :
    Stable Scoped (compileStmt (.repeatLoop b cond line)) :=
  repeatWith_stable hb hc

theorem ifStmt_stable {cond : Expr} {elseifs : List (Expr × Block)} {elseBody : Option Block}
    (hc : CompilesStably cond) (hb : Stable Scoped (compileBlock b))
    (hcl : ∀ p ∈ elseifs, CompilesStably p.1 ∧ Stable Scoped (compileBlock p.2))
    (he : ∀ b ∈ elseBody, Stable Scoped (compileBlock b)) :
    Stable Scoped (compileStmt (.ifStmt cond b elseifs elseBody line)) :=
  ifWith_stable (clauseWith_stable hc hb) (compileClauses_stable hcl) (compileElse_stable he)

theorem numericFor_stable {var : String} {start limit : Expr} {step : Option Expr}
    (hs : CompilesStably start) (hl : CompilesStably limit) (hst : ∀ e ∈ step, CompilesStably e)
    (hb : Stable Scoped (compileBlock b)) :
    Stable Scoped (compileStmt (.numericFor var start limit step b line)) := by
  refine numericForWith_stable (intoFresh_stable ?_) hb
  intro p hp r
  simp only [List.mem_cons, List.not_mem_nil, or_false] at hp
  rcases hp with rfl | rfl | rfl
  · exact hs r 1
  · exact hl r 1
  · exact compileStep_stable hst

theorem genericFor_stable {vars : List String} {exprs : List Expr}
    (he : ∀ e ∈ exprs, CompilesStably e) (hb : Stable Scoped (compileBlock b)) :
    Stable Scoped (compileStmt (.genericFor vars exprs b line)) :=
  genericForWith_stable (adjustValues_stable he) hb

theorem functionDef_stable {path : List String} {method : Option String} {body : FuncBody}
    (hb : ∀ a isMethod, Stable Scoped (compileFunction body a isMethod)) :
    Stable Scoped (compileStmt (.functionDef path method body line)) :=
  functionDefWith_stable hb

/-- A local function is declared before its body is compiled, so the body sees itself. -/
theorem localFunction_stable {name : String} {body : FuncBody}
    (hb : ∀ a isMethod, Stable Scoped (compileFunction body a isMethod)) :
    Stable Scoped (compileStmt (.localFunction name body line)) :=
  addLocal_stable.bind fun r => hb r false

theorem breakStmt_stable : Stable Scoped (compileStmt (.breakStmt line)) :=
  .updateFs_nesting fun _ _ h => (FuncState.addBreak_alike h).nesting

theorem gotoStmt_stable {label : String} : Stable Scoped (compileStmt (.gotoStmt label line)) :=
  fun _ _ _ _ h => absurd h run_throw_ne

theorem labelStmt_stable {name : String} : Stable Scoped (compileStmt (.labelStmt name line)) :=
  fun _ _ _ _ h => absurd h run_throw_ne

end Statements

/-! ## The recursion over the tree -/

mutual

theorem compileExpr_stable (e : Expr) : ExprStable e :=
  match e with
  | .nil _ => nil_stable
  | .bool _ _ => bool_stable
  | .int _ _ => int_stable
  | .float _ _ => float_stable
  | .str _ _ => str_stable
  | .vararg _ => vararg_stable
  | .name _ _ => name_stable
  | .paren inner _ => paren_stable (compileExpr_stable inner).compile
  | .binop _ lhs rhs _ => binop_stable (compileExpr_stable lhs).compile (compileExpr_stable rhs)
  | .unop _ operand _ => unop_stable (compileExpr_stable operand).compile
  | .index t k _ => index_stable (compileExpr_stable t).compile (compileExpr_stable k).compile
  | .field t _ _ => field_stable (compileExpr_stable t).compile
  | .call f args _ =>
    call_stable (compileExpr_stable f).compile fun x hx => (exprs_stable args x hx).compile
  | .method obj _ args _ =>
    method_stable (compileExpr_stable obj).compile fun x hx => (exprs_stable args x hx).compile
  | .func body => func_stable (compileFunction_stable body)
  | .table fields _ => table_stable (tableFields_stable fields)
  termination_by structural e

theorem exprs_stable (es : List Expr) : ∀ e ∈ es, ExprStable e :=
  match es with
  | [] => nofun
  | e :: rest => List.forall_mem_cons.mpr ⟨compileExpr_stable e, exprs_stable rest⟩
  termination_by structural es

theorem tableField_stable (f : Field) : FieldStable f :=
  match f with
  | .keyed k v => ⟨(compileExpr_stable k).compile, (compileExpr_stable v).compile⟩
  | .named _ v => (compileExpr_stable v).compile
  | .positional v => (compileExpr_stable v).compile
  termination_by structural f

theorem tableFields_stable (fs : List Field) : ∀ f ∈ fs, FieldStable f :=
  match fs with
  | [] => nofun
  | f :: rest => List.forall_mem_cons.mpr ⟨tableField_stable f, tableFields_stable rest⟩
  termination_by structural fs

theorem compileFunction_stable (body : FuncBody) :
    ∀ a isMethod, Stable Scoped (compileFunction body a isMethod) :=
  match body with
  | .mk _ _ blk _ => function_stable (compileBlock_stable blk)
  termination_by structural body

theorem compileBlock_stable (b : Block) : Stable Scoped (compileBlock b) :=
  match b with
  | .mk stmts ret _ => block_stable (stmts_stable stmts) (ret_stable ret)
  termination_by structural b

theorem stmts_stable (ss : List Stmt) : ∀ s ∈ ss, Stable Scoped (compileStmt s) :=
  match ss with
  | [] => nofun
  | s :: rest => List.forall_mem_cons.mpr ⟨compileStmt_stable s, stmts_stable rest⟩
  termination_by structural ss

theorem ret_stable (ret : Option Return) : ∀ r ∈ ret, Stable Scoped (compileReturn r) :=
  match ret with
  | some r => fun _ h => Option.some.inj h ▸ compileReturn_stable r
  | none => nofun
  termination_by structural ret

theorem compileReturn_stable (r : Return) : Stable Scoped (compileReturn r) :=
  match r with
  | .mk values _ => return_stable (exprs_stable values)
  termination_by structural r

theorem clauses_stable (cs : List (Expr × Block)) :
    ∀ p ∈ cs, CompilesStably p.1 ∧ Stable Scoped (compileBlock p.2) :=
  match cs with
  | [] => nofun
  | (cond, body) :: rest => List.forall_mem_cons.mpr
      ⟨⟨(compileExpr_stable cond).compile, compileBlock_stable body⟩, clauses_stable rest⟩
  termination_by structural cs

theorem else_stable (elseBody : Option Block) : ∀ b ∈ elseBody, Stable Scoped (compileBlock b) :=
  match elseBody with
  | some b => fun _ h => Option.some.inj h ▸ compileBlock_stable b
  | none => nofun
  termination_by structural elseBody

theorem step_stable (step : Option Expr) : ∀ e ∈ step, CompilesStably e :=
  match step with
  | some e => fun _ h => Option.some.inj h ▸ (compileExpr_stable e).compile
  | none => nofun
  termination_by structural step

theorem compileStmt_stable (s : Stmt) : Stable Scoped (compileStmt s) :=
  match s with
  | .localDecl _ values _ => localDecl_stable fun v hv => (exprs_stable values v hv).compile
  | .assign targets values _ =>
    assign_stable (fun t ht => (exprs_stable targets t ht).parts)
      (fun v hv => (exprs_stable values v hv).compile)
  | .callStmt e => callStmt_stable (compileExpr_stable e).compile
  | .doBlock b => doBlock_stable (compileBlock_stable b)
  | .whileLoop cond b _ => whileLoop_stable (compileExpr_stable cond).compile (compileBlock_stable b)
  | .repeatLoop b cond _ =>
    repeatLoop_stable (compileExpr_stable cond).compile (compileBlock_stable b)
  | .ifStmt cond t elseifs elseBody _ =>
    ifStmt_stable (compileExpr_stable cond).compile (compileBlock_stable t) (clauses_stable elseifs)
      (else_stable elseBody)
  | .numericFor _ start limit step b _ =>
    numericFor_stable (compileExpr_stable start).compile (compileExpr_stable limit).compile
      (step_stable step) (compileBlock_stable b)
  | .genericFor _ exprs b _ =>
    genericFor_stable (fun e he => (exprs_stable exprs e he).compile) (compileBlock_stable b)
  | .functionDef _ _ body _ => functionDef_stable (compileFunction_stable body)
  | .localFunction _ body _ => localFunction_stable (compileFunction_stable body)
  | .breakStmt _ => breakStmt_stable
  | .gotoStmt _ _ => gotoStmt_stable
  | .labelStmt _ _ => labelStmt_stable
  termination_by structural s

end

/-! ## Whole chunks -/

/-- A compiled chunk names each upvalue of each of its prototypes once, at every depth. -/
theorem compile_upvaluesDistinct {block : Block} {source : String} {p : Proto}
    (h : compile block source = .ok p) : p.Every Proto.UpvaluesDistinct := by
  unfold compile at h
  obtain ⟨⟨q, c'⟩, hrun, hp⟩ := except_bind_ok h
  cases hp
  obtain ⟨_, c₁, h₁, h₂⟩ := run_bind_ok hrun
  have hs₁ := compileBlock_stable block _ _ _ (scoped_main source) h₁
  obtain ⟨_, c₂, h₃, h₄⟩ := run_bind_ok h₂
  have hs₂ := (Stable.updateFs_nesting fun _ _ => FuncState.emitABC_nesting) _ _ _ hs₁ h₃
  obtain ⟨fs, c₃, h₅, h₆⟩ := run_bind_ok h₄
  obtain ⟨rfl, rfl⟩ := run_readFs h₅
  obtain ⟨hfin, -⟩ := run_lift_ok h₆
  have hd := hs₂.distinct _ (Nat.le_refl _)
  have hq := hs₂.protos _ (Nat.le_refl _)
  rw [funcAt_size] at hd hq
  exact finish_every hd hq hfin

/-- Names resolve lexically, for every chunk. The compiler starts in a scoped state; compiling
any expression, statement or block keeps the state scoped, so every name is looked up in a scoped
state; and in a scoped state every lookup reaches what the name stands for: the register of its
innermost active local in the function being written, else an upvalue leading to the register
of the innermost active local of that name in the nearest enclosing function that has one, else
the field of `_ENV`, with `_ENV` itself resolved the same way
(`LooksUpLexically`). The prototypes of a compiled chunk name each upvalue once. -/
theorem names_resolve_lexically (source : String) :
    Scoped { fs := FuncState.main source, enclosing := #[], source } ∧
      (∀ (e : Expr) (a : Nat) (n : Int), Stable Scoped (compileExpr e a n)) ∧
      (∀ s : Stmt, Stable Scoped (compileStmt s)) ∧
      (∀ b : Block, Stable Scoped (compileBlock b)) ∧
      (∀ c : Compiler, Scoped c → LooksUpLexically c) ∧
      (∀ (block : Block) (p : Proto), compile block source = .ok p →
        p.Every Proto.UpvaluesDistinct) :=
  ⟨scoped_main source, fun e => (compileExpr_stable e).compile, compileStmt_stable,
    compileBlock_stable, fun _ hs => hs.looksUp, fun _ _ h => compile_upvaluesDistinct h⟩

/-- In the chunk `local x = 1; local function f(a) return a + x end; return f(2)`: after the
first statement `x` stands for register 0 of the main function and is read by a `move` from it;
in a function `f(a)` opened there, `x` still stands for that register, and reading it there is
a `getupval` from an upvalue that leads to it. The chunk compiles, and each of its prototypes
names each upvalue once. -/
theorem names_resolve_in_nested_function :
    ∃ c₁ c₂, (compileStmt (.localDecl ["x"] [.int 1 1] 1)).run
        { fs := FuncState.main "t", enclosing := #[], source := "t" } = .ok ((), c₁) ∧
      (openFunction ["a"] false false 2).run c₁ = .ok ((), c₂) ∧
      c₁.enclosing.size = 0 ∧ c₁.binding "x" 0 = some (.local 0 0) ∧
      (∀ a line, (compileName "x" a line).run c₁ =
        (updateFs (·.emitMove a 0 line)).run c₁) ∧
      c₂.enclosing.size = 1 ∧ c₂.binding "x" 1 = some (.local 0 0) ∧
      (∃ c', (compileName "x" 1 2).run c₂ = .ok ((), c')) ∧
      (∀ a line c', (compileName "x" a line).run c₂ = .ok ((), c') →
        ∃ idx c₃, c₃.UpvalueReaches "x" idx ∧
          (emitABC .getUpval a idx 0 line).run c₃ = .ok ((), c')) ∧
      ∃ p, compile (.mk [.localDecl ["x"] [.int 1 1] 1,
          .localFunction "f" (.mk ["a"] false
            (.mk [] (some (.mk [.binop .add (.name "a" 2) (.name "x" 2) 2] 2)) 2) 2) 2]
          (some (.mk [.call (.name "f" 3) [.int 2 3] 3] 3)) 3) "t" = .ok p ∧
        p.Every Proto.UpvaluesDistinct := by
  obtain ⟨hmain, -, hstmt, -, hlooks, hdistinct⟩ := names_resolve_lexically "t"
  -- the first statement, the function opened after it and a read of `x` there, run once by the
  -- kernel, then split at each step
  obtain ⟨⟨⟨⟩, c'⟩, h⟩ := exists_ok_of_isOk (x := (do
    compileStmt (.localDecl ["x"] [.int 1 1] 1)
    openFunction ["a"] false false 2
    compileName "x" 1 2).run
      { fs := FuncState.main "t", enclosing := #[], source := "t" }) (by decide +kernel)
  obtain ⟨⟨⟩, c₁, h₁, h'⟩ := run_bind_ok h
  obtain ⟨⟨⟩, c₂, h₂, h₃⟩ := run_bind_ok h'
  have h₁₂ := (run_bind_of_ok (f := fun _ => openFunction ["a"] false false 2) h₁).trans h₂
  have hsize₁ : c₁.enclosing.size = 0 :=
    eq_of_toOption_map h₁ (f := fun r => r.2.enclosing.size) (by decide +kernel)
  have hb₁ : c₁.binding "x" 0 = some (.local 0 0) :=
    eq_of_toOption_map h₁ (f := fun r => r.2.binding "x" 0) (by decide +kernel)
  have hsize : c₂.enclosing.size = 1 :=
    eq_of_toOption_map h₁₂ (f := fun r => r.2.enclosing.size) (by decide +kernel)
  have hb₂ : c₂.binding "x" 1 = some (.local 0 0) :=
    eq_of_toOption_map h₁₂ (f := fun r => r.2.binding "x" 1) (by decide +kernel)
  -- both states are scoped, so both lookups are lexical
  have hs₁ : Scoped c₁ := hstmt _ _ _ () hmain h₁
  have hs₂ : Scoped c₂ := openFunction_stable _ _ () hs₁ h₂
  refine ⟨c₁, c₂, h₁, h₂, hsize₁, hb₁,
    fun a line => (hlooks c₁ hs₁).readLocal "x" a line 0 (by rw [hsize₁]; exact hb₁), hsize,
    hb₂, ⟨c', h₃⟩, fun a line c₃ hx => ?_, exists_ok_of_isOk (by decide +kernel) |>.imp
      fun _ hp => ⟨hp, hdistinct _ _ hp⟩⟩
  refine (hlooks c₂ hs₂).readUpvalue "x" a line (.local 0 0) c₃ (by rw [hsize]; exact hb₂)
    (fun r h => ?_) hx
  rw [hsize] at h
  cases h

end Compiler

end LuaBytecode
