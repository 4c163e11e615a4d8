import LuaBytecode.Proofs.Compiler.OperatorMeaning
/-!
# The meaning of structured blocks

A structured block is built from local declarations, assignments to locals, `do`, `if`,
`while`, `repeat` and `break`, and may end with a `return`. Its values and conditions are
operator terms, and a loop may also test a condition that is always true (a constructor or a
function among them), which is then not evaluated (`Expr.truth`, `Stmt.structured`).

Its meaning is a run over the tree (`Stmt.exec`, `Block.exec`). The run keeps the locals in
scope as a stack of bindings, innermost first (`Scope`): a name reads and writes its innermost
binding, a declaration pushes new ones, and a block's bindings are dropped where it ends. A
statement ends in one of five ways (`Flow`): it runs to its end, a `break` leaves the innermost
loop, a `return` gives values, an operation fails, or a loop has gone round as often as the
run's clock allows. Each loop may go round at most `k` times for a clock `k`, so the run is a
total function; a block terminates when some clock lets it finish.

`Block.answer` is what a chunk gives: the values of its `return`, none when it runs to its end,
or its error.
-/

namespace LuaBytecode

/-- The locals in scope with their values, innermost first. -/
abbrev Scope := List (String × Value)

namespace Scope

/-- The value of a name: that of its innermost binding, nil when it has none. -/
def value (ρ : Scope) (s : String) : Value :=
  ((ρ.find? (·.1 == s)).map (·.2)).getD .nil

/-- The names in scope, innermost first. -/
def names (ρ : Scope) : List String := ρ.map (·.1)

/-- Writes the innermost binding of a name; a name with none is left alone. -/
def assign : Scope → String → Value → Scope
  | [], _, _ => []
  | (t, w) :: ρ, s, v => if t == s then (t, v) :: ρ else (t, w) :: assign ρ s v

/-- Writes values to names, one after the other. -/
def assignAll (ρ : Scope) : List String → List Value → Scope
  | s :: ss, v :: vs => assignAll (ρ.assign s v) ss vs
  | _, _ => ρ

/-- Declares locals in order, with their values: the last one is innermost. -/
def declare (ρ : Scope) (names : List String) (vs : List Value) : Scope :=
  (names.zip vs).reverse ++ ρ

/-- The bindings left when a block that began with `n` bindings in scope ends. -/
def close (ρ : Scope) (n : Nat) : Scope := ρ.drop (ρ.length - n)

/-- No value in scope is a table. -/
def Plain (ρ : Scope) : Prop := ∀ x ∈ ρ, x.2.isTable = false

end Scope

/-- The values taken by `n` names: the first `n` values, with nil for the missing ones. -/
def adjustTo (n : Nat) (vs : List Value) : List Value := (vs ++ List.replicate n Value.nil).take n

/-- How a statement ends. -/
inductive Flow where
  /-- It ran to its end, with these locals in scope. -/
  | normal (ρ : Scope)
  /-- A `break` left the innermost loop, with these locals in scope at the `break`. -/
  | brk (ρ : Scope)
  /-- A `return` gave these values. -/
  | ret (vs : List Value)
  /-- An operation failed. -/
  | error (e : Fault)
  /-- A loop went round as often as the clock allows. -/
  | timeout

/-- The flow of a block that began with `n` locals in scope, once the block's own locals are
gone. -/
def Flow.close (n : Nat) : Flow → Flow
  | .normal ρ => .normal (ρ.close n)
  | .brk ρ => .brk (ρ.close n)
  | r => r

/-- A flow followed by what runs after it when it ends normally. -/
def Flow.andThen (r : Flow) (next : Scope → Flow) : Flow :=
  match r with
  | .normal ρ => next ρ
  | r => r

/-- The flow of a computation that fails with its error, or else goes on as `next` says. -/
def Flow.ofOutcome {α : Type} (o : Except Fault α) (next : α → Flow) : Flow :=
  match o with
  | .ok x => next x
  | .error e => .error e

namespace Expr

/-- A condition evaluated: it holds when its value is truthy. -/
def test (call : VM.Call) (σ : String → Value) (e : Expr) : Except Fault Bool :=
  (e.evalOp call σ).outcome.map Value.isTruthy

/-- The truth of a loop's condition: a condition that is always true is not evaluated, any other
one is evaluated. -/
def truth (call : VM.Call) (σ : String → Value) (e : Expr) : Except Fault Bool :=
  if e.isAlwaysTrue then .ok true else e.test call σ

/-- The name an expression stands for, if it is one. -/
def nameOf? : Expr → Option String
  | .name s _ => some s
  | _ => none

/-- A condition a loop may test: an operator term, or one that is always true. -/
def isLoopTest (isLocal : String → Bool) (e : Expr) : Bool :=
  e.isAlwaysTrue || e.isOperatorTerm isLocal

end Expr

/-- The values of a `return`. -/
def Return.exec (call : VM.Call) (ρ : Scope) : Return → Flow
  | .mk values _ => Flow.ofOutcome (Expr.evalAll call ρ.value values) .ret

/-- A `while` loop that may go round `k` times from the scope `ρ`: the test, and while it holds
the body, which ends its own scope. A `break` ends the loop normally. -/
def whileLoop (test : Scope → Except Fault Bool) (body : Scope → Flow) : Nat → Scope → Flow
  | 0, _ => .timeout
  | k + 1, ρ =>
    Flow.ofOutcome (test ρ) fun b =>
      if b then
        match body ρ with
        | .normal ρ' => whileLoop test body k ρ'
        | .brk ρ' => .normal ρ'
        | r => r
      else .normal ρ

/-- A `repeat` loop that may go round `k` times from the scope `ρ`: the body, then the test,
which sees the body's locals, until it holds; the body's scope ends after the test. -/
def repeatLoop (body : Scope → Flow) (test : Scope → Except Fault Bool) : Nat → Scope → Flow
  | 0, _ => .timeout
  | k + 1, ρ =>
    match body ρ with
    | .normal ρ' =>
      Flow.ofOutcome (test ρ') fun b =>
        if b then .normal (ρ'.close ρ.length) else repeatLoop body test k (ρ'.close ρ.length)
    | .brk ρ' => .normal (ρ'.close ρ.length)
    | r => r

mutual

/-- A statement run from the scope `ρ`, each loop going round at most `k` times. Statements
outside the structured fragment are given no meaning here. -/
def Stmt.exec (call : VM.Call) (k : Nat) (ρ : Scope) (s : Stmt) : Flow :=
  match s with
  | .localDecl names values _ =>
    Flow.ofOutcome (Expr.evalAll call ρ.value values) fun vs =>
      .normal (ρ.declare names (adjustTo names.length vs))
  | .assign targets values _ =>
    Flow.ofOutcome (Expr.evalAll call ρ.value values) fun vs =>
      .normal (ρ.assignAll (targets.filterMap Expr.nameOf?) (adjustTo targets.length vs))
  | .doBlock body => (Block.exec call k ρ body).close ρ.length
  | .whileLoop cond body _ =>
    whileLoop (fun ρ' => cond.truth call ρ'.value)
      (fun ρ' => (Block.exec call k ρ' body).close ρ'.length) k ρ
  | .repeatLoop body cond _ =>
    repeatLoop (fun ρ' => Block.exec call k ρ' body) (fun ρ' => cond.truth call ρ'.value) k ρ
  | .ifStmt cond thenBody elseifs elseBody _ =>
    Flow.ofOutcome (cond.test call ρ.value) fun b =>
      if b then (Block.exec call k ρ thenBody).close ρ.length
      else (Stmt.execClauses call k ρ elseifs).getD (Stmt.execElse call k ρ elseBody)
  | .breakStmt _ => .brk ρ
  | _ => .error (.internal "not a structured statement")
  termination_by structural s

/-- Statements in order, each from the scope the one before left. -/
def Stmt.execAll (call : VM.Call) (k : Nat) (ρ : Scope) (stmts : List Stmt) : Flow :=
  match stmts with
  | [] => .normal ρ
  | s :: rest => (Stmt.exec call k ρ s).andThen fun ρ' => Stmt.execAll call k ρ' rest
  termination_by structural stmts

/-- A block run from the scope `ρ`: its statements, then its `return`. The block's locals stay
in scope; the statement around it ends them. -/
def Block.exec (call : VM.Call) (k : Nat) (ρ : Scope) (b : Block) : Flow :=
  match b with
  | .mk stmts ret _ =>
    (Stmt.execAll call k ρ stmts).andThen fun ρ' =>
      match ret with
      | some r => r.exec call ρ'
      | none => .normal ρ'
  termination_by structural b

/-- The clauses of an `if` after its first: the block of the first one whose condition holds,
none when no condition holds. -/
def Stmt.execClauses (call : VM.Call) (k : Nat) (ρ : Scope) (clauses : List (Expr × Block)) :
    Option Flow :=
  match clauses with
  | [] => none
  | (cond, body) :: rest =>
    match cond.test call ρ.value with
    | .error e => some (.error e)
    | .ok true => some ((Block.exec call k ρ body).close ρ.length)
    | .ok false => Stmt.execClauses call k ρ rest
  termination_by structural clauses

/-- The `else` block of an `if`, if it has one. -/
def Stmt.execElse (call : VM.Call) (k : Nat) (ρ : Scope) (elseBody : Option Block) : Flow :=
  match elseBody with
  | some body => (Block.exec call k ρ body).close ρ.length
  | none => .normal ρ
  termination_by structural elseBody

end

/-- What a chunk gives, run with the clock `k`: the values of its `return`, none when it runs to
its end, or its error; nothing while the clock runs out, nor for a `break` outside every loop. -/
def Block.answer (call : VM.Call) (k : Nat) (b : Block) : Option (Except Fault (List Value)) :=
  match b.exec call k [] with
  | .normal _ => some (.ok [])
  | .ret vs => some (.ok vs)
  | .error e => some (.error e)
  | .brk _ | .timeout => none

/-! ## The structured fragment -/

/-- The names in scope after a statement, innermost first, from `names` before it. -/
def Stmt.scope (names : List String) : Stmt → List String
  | .localDecl declared _ _ => declared.reverse ++ names
  | _ => names

/-- The names in scope after statements, from `names` before them. -/
def Stmt.scopeAll (names : List String) : List Stmt → List String
  | [] => names
  | s :: rest => Stmt.scopeAll (s.scope names) rest

/-- The values of a `return` are operator terms over the names in scope. -/
def Return.structured (names : List String) : Return → Bool
  | .mk values _ => values.all (·.isOperatorTerm names.contains)

mutual

/-- The statement is structured with the locals `names` in scope: its values and conditions are
operator terms over them, a loop's condition may also be always true, and it assigns only to
them. -/
def Stmt.structured (names : List String) (s : Stmt) : Bool :=
  match s with
  | .localDecl _ values _ => values.all (·.isOperatorTerm names.contains)
  | .assign targets values _ =>
    targets.all (fun t => (t.nameOf?.map names.contains).getD false) &&
      values.all (·.isOperatorTerm names.contains)
  | .doBlock body => Block.structured names body
  | .whileLoop cond body _ => cond.isLoopTest names.contains && Block.structured names body
  | .repeatLoop body cond _ =>
    Block.structured names body && cond.isLoopTest (Stmt.scopeAll names body.stmts).contains
  | .ifStmt cond thenBody elseifs elseBody _ =>
    cond.isOperatorTerm names.contains && Block.structured names thenBody &&
      Stmt.structuredClauses names elseifs && Stmt.structuredElse names elseBody
  | .breakStmt _ => true
  | _ => false
  termination_by structural s

/-- Statements in order are structured, each with the names the ones before left in scope. -/
def Stmt.structuredAll (names : List String) (stmts : List Stmt) : Bool :=
  match stmts with
  | [] => true
  | s :: rest => Stmt.structured names s && Stmt.structuredAll (s.scope names) rest
  termination_by structural stmts

/-- A block is structured: its statements, and its `return` with the names they leave. -/
def Block.structured (names : List String) (b : Block) : Bool :=
  match b with
  | .mk stmts ret _ =>
    Stmt.structuredAll names stmts && (ret.map (Return.structured (Stmt.scopeAll names stmts))).getD true
  termination_by structural b

/-- The clauses of an `if` after its first are structured. -/
def Stmt.structuredClauses (names : List String) (clauses : List (Expr × Block)) : Bool :=
  match clauses with
  | [] => true
  | (cond, body) :: rest =>
    cond.isOperatorTerm names.contains && Block.structured names body &&
      Stmt.structuredClauses names rest
  termination_by structural clauses

/-- The `else` block of an `if` is structured, if it has one. -/
def Stmt.structuredElse (names : List String) (elseBody : Option Block) : Bool :=
  match elseBody with
  | some body => Block.structured names body
  | none => true
  termination_by structural elseBody

end

end LuaBytecode
