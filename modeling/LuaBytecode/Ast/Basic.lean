/-!
# Syntax trees of Lua chunks

The compiler reads a chunk as a tree: there is no text to parse. Every node carries the source
line it is reported at. Function bodies, blocks and return lists are single-constructor types
so that the whole family is one mutual inductive definition.

`Expr.isMultiValued` marks the expressions that can yield several values (calls and `...`),
and `Expr.line` the line a node is reported at.
-/

namespace LuaBytecode

/-- Binary operators. Comparisons `>` and `>=` are kept as written; the compiler swaps their
operands. -/
inductive BinOp where
  | add | sub | mul | div | idiv | mod | pow | band | bor | bxor | shl | shr | concat
  | eq | ne | lt | le | gt | ge | and | or
  deriving DecidableEq, Repr, Inhabited

/-- Unary operators: `-`, `not`, `#` and `~`. -/
inductive UnOp where
  | neg | not | len | bnot
  deriving DecidableEq, Repr, Inhabited

mutual

/-- Expressions. -/
inductive Expr where
  | nil (line : Nat)
  | bool (b : Bool) (line : Nat)
  | int (n : Int64) (line : Nat)
  /-- A float literal, by its bits. -/
  | float (bits : UInt64) (line : Nat)
  | str (s : String) (line : Nat)
  | vararg (line : Nat)
  | name (s : String) (line : Nat)
  | paren (e : Expr) (line : Nat)
  | binop (op : BinOp) (lhs rhs : Expr) (line : Nat)
  | unop (op : UnOp) (e : Expr) (line : Nat)
  | index (t k : Expr) (line : Nat)
  | field (t : Expr) (key : String) (line : Nat)
  | call (f : Expr) (args : List Expr) (line : Nat)
  | method (obj : Expr) (name : String) (args : List Expr) (line : Nat)
  | func (body : FuncBody)
  | table (fields : List Field) (line : Nat)

/-- The fields of a table constructor. -/
inductive Field where
  /-- A keyed field `[k] = v`. -/
  | keyed (k v : Expr)
  /-- A named field `name = v`. -/
  | named (name : String) (v : Expr)
  /-- A value at the next list position. -/
  | positional (v : Expr)

/-- A function body: parameters, whether it takes `...`, its block and its line. -/
inductive FuncBody where
  | mk (params : List String) (vararg : Bool) (body : Block) (line : Nat)

/-- A block: statements, an optional closing `return`, and the line of the block's end. -/
inductive Block where
  | mk (stmts : List Stmt) (ret : Option Return) (line : Nat)

/-- A `return` statement: its values and line. -/
inductive Return where
  | mk (values : List Expr) (line : Nat)

/-- Statements. -/
inductive Stmt where
  | assign (targets values : List Expr) (line : Nat)
  | localDecl (names : List String) (values : List Expr) (line : Nat)
  /-- A call used as a statement; any other expression here is refused by the compiler. -/
  | callStmt (e : Expr)
  | doBlock (body : Block)
  | whileLoop (cond : Expr) (body : Block) (line : Nat)
  | repeatLoop (body : Block) (cond : Expr) (line : Nat)
  | ifStmt (cond : Expr) (thenBody : Block) (elseifs : List (Expr × Block))
      (elseBody : Option Block) (line : Nat)
  | numericFor (var : String) (start limit : Expr) (step : Option Expr) (body : Block) (line : Nat)
  | genericFor (vars : List String) (exprs : List Expr) (body : Block) (line : Nat)
  /-- A definition `function a.b.c:m() … end`: the dotted path, the method name, the body. -/
  | functionDef (path : List String) (method : Option String) (body : FuncBody) (line : Nat)
  | localFunction (name : String) (body : FuncBody) (line : Nat)
  | gotoStmt (label : String) (line : Nat)
  | labelStmt (name : String) (line : Nat)
  | breakStmt (line : Nat)

end

namespace FuncBody

def params : FuncBody → List String | .mk p _ _ _ => p
def vararg : FuncBody → Bool | .mk _ v _ _ => v
def body : FuncBody → Block | .mk _ _ b _ => b
def line : FuncBody → Nat | .mk _ _ _ l => l

end FuncBody

namespace Block

def stmts : Block → List Stmt | .mk s _ _ => s
def ret : Block → Option Return | .mk _ r _ => r
def line : Block → Nat | .mk _ _ l => l

end Block

namespace Expr

/-- The line a node is reported at. -/
def line : Expr → Nat
  | nil l | bool _ l | int _ l | float _ l | str _ l | vararg l | name _ l | paren _ l => l
  | binop _ _ _ l | unop _ _ l | index _ _ l | field _ _ l | call _ _ l | method _ _ _ l => l
  | func b => b.line
  | table _ l => l

/-- Calls and `...` can yield any number of values. -/
def isMultiValued : Expr → Bool
  | vararg _ | call .. | method .. => true
  | _ => false

/-- Is this a call or a method call? -/
def isCall : Expr → Bool
  | call .. | method .. => true
  | _ => false

/-- Conditions that are true whatever happens: `true`, numbers, strings, constructors and
functions. -/
def isAlwaysTrue : Expr → Bool
  | bool true _ | int .. | float .. | str .. | table .. | func _ => true
  | _ => false

/-- Is this an application of the binary operator `op`? -/
def isBinop (op : BinOp) : Expr → Bool
  | binop o _ _ _ => o == op
  | _ => false

/-- Is this a comparison? -/
def isComparison : Expr → Bool
  | binop op _ _ _ => op == .eq || op == .ne || op == .lt || op == .le || op == .gt || op == .ge
  | _ => false

end Expr

/-- Is this a list item, placed by position? -/
def Field.isPositional : Field → Bool
  | .positional _ => true
  | _ => false

end LuaBytecode
