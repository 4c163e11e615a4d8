import LuaBytecode.Proofs.Machine.Plain
import LuaBytecode.Ast.Basic
/-!
# The meaning of operator terms

An operator term is built from literals, names of locals, parentheses and the unary and binary
operators. Its meaning, `Expr.evalOp`, is computed by the machine's own operations on the
values of its parts: operands from left to right, `and` and `or` giving the operand that
decides without evaluating the other, `a > b` as `b < a` and `a >= b` as `b <= a`; `..` and `^`
group as the tree does. A name has the value the assignment `σ` gives it.

On values that are no tables the machine never calls a metamethod, so when the names hold no
tables the meaning of a term is stateless and no table itself (`evalOp_plain`): its outcome is
the same from every state of the machine.
-/

namespace LuaBytecode

/-- The arithmetic or bitwise operator of a binary operator (`shr` for the others, which
have their own meaning). -/
def BinOp.toArith : BinOp → ArithOp
  | .add => .add | .sub => .sub | .mul => .mul | .div => .div | .idiv => .idiv | .mod => .mod
  | .pow => .pow | .band => .band | .bor => .bor | .bxor => .bxor | .shl => .shl | _ => .shr

namespace Expr

/-- Is the expression an operator term whose names are all admitted by `isLocal`? -/
def isOperatorTerm (isLocal : String → Bool) : Expr → Bool
  | .nil _ | .bool .. | .int .. | .float .. | .str .. => true
  | .name s _ => isLocal s
  | .paren e _ => e.isOperatorTerm isLocal
  | .unop _ e _ => e.isOperatorTerm isLocal
  | .binop _ lhs rhs _ => lhs.isOperatorTerm isLocal && rhs.isOperatorTerm isLocal
  | _ => false

end Expr

namespace VM

variable (call : Call)

/-- A unary operator applied to a value. -/
def unary (op : UnOp) (v : Value) : VM Value :=
  match op with
  | .neg => arith call .unm v v
  | .bnot => arith call .bnot v v
  | .not => pure (.bool !v.isTruthy)
  | .len => len call v

/-- A binary operator applied to the computations of its operands: `and` and `or` run the right
one only when the left one does not decide. -/
def binary (op : BinOp) (lhs rhs : VM Value) : VM Value :=
  match op with
  | .and => do
    let x ← lhs
    if x.isTruthy then rhs else pure x
  | .or => do
    let x ← lhs
    if x.isTruthy then pure x else rhs
  | .concat => do concat call #[← lhs, ← rhs]
  | .eq => do pure (.bool (← equals call (← lhs) (← rhs)))
  | .ne => do pure (.bool !(← equals call (← lhs) (← rhs)))
  | .lt => do pure (.bool (← lessThan call (← lhs) (← rhs)))
  | .le => do pure (.bool (← lessEqual call (← lhs) (← rhs)))
  | .gt => do
    let x ← lhs
    pure (.bool (← lessThan call (← rhs) x))
  | .ge => do
    let x ← lhs
    pure (.bool (← lessEqual call (← rhs) x))
  | op => do arith call op.toArith (← lhs) (← rhs)

end VM

namespace Expr

/-- The meaning of an operator term, with the names' values given by `σ`. -/
def evalOp (call : VM.Call) (σ : String → Value) (e : Expr) : VM Value :=
  match e with
  | .nil _ => pure .nil
  | .bool b _ => pure (.bool b)
  | .int n _ => pure (.int n)
  | .float bits _ => pure (.float (Float.ofBits bits))
  | .str s _ => pure (.str s)
  | .name s _ => pure (σ s)
  | .paren e _ => e.evalOp call σ
  | .unop op e _ => do VM.unary call op (← e.evalOp call σ)
  | .binop op lhs rhs _ => VM.binary call op (lhs.evalOp call σ) (rhs.evalOp call σ)
  | _ => throw (.internal "not an operator term")
  termination_by structural e

end Expr

namespace VM

variable {call : Call}

theorem unary_plain {op : UnOp} {v : Value} (hv : v.isTable = false) : Plain (unary call op v) := by
  cases op with
  | neg => exact arith_plain hv hv
  | bnot => exact arith_plain hv hv
  | not => exact .pure rfl
  | len => exact len_plain hv

/-- A comparison gives a boolean. -/
theorem Plain.ofBool {x : VM Bool} (hx : Stateless x) (f : Bool → Bool) :
    Plain (do Pure.pure (Value.bool (f (← x)))) :=
  .bind hx fun _ _ => .pure rfl

theorem binary_plain {op : BinOp} {lhs rhs : VM Value} (hl : Plain lhs) (hr : Plain rhs) :
    Plain (binary call op lhs rhs) := by
  -- each operand value is no table, so no operation on them calls a metamethod
  have hboth {k : Value → Value → VM Value}
      (hk : ∀ x y, x.isTable = false → y.isTable = false → Plain (k x y)) :
      Plain (do k (← lhs) (← rhs)) :=
    .bind hl.stateless fun x hx => .bind hr.stateless fun y hy =>
      hk x y (hl.value x hx) (hr.value y hy)
  unfold binary
  cases op
  case and | or =>
    refine .bind hl.stateless fun x hx => ?_
    split
    · first | exact hr | exact .pure (hl.value x hx)
    · first | exact hr | exact .pure (hl.value x hx)
  case concat => exact hboth fun x y hx hy => concat_pair_plain hx hy
  case eq | ne =>
    refine hboth fun x y hx _ => ?_
    rw [equals_plain hx]
    exact .ofBool (.pure _) _
  case lt =>
    refine hboth fun x y hx hy => ?_
    rw [lessThan_plain hx hy]
    exact .ofBool (.of_lift _) id
  case le =>
    refine hboth fun x y hx hy => ?_
    rw [lessEqual_plain hx hy]
    exact .ofBool (.of_lift _) id
  case gt =>
    refine hboth fun x y hx hy => ?_
    rw [lessThan_plain hy hx]
    exact .ofBool (.of_lift _) id
  case ge =>
    refine hboth fun x y hx hy => ?_
    rw [lessEqual_plain hy hx]
    exact .ofBool (.of_lift _) id
  all_goals exact hboth fun x y hx hy => arith_plain hx hy

end VM

namespace Expr

variable {call : VM.Call} {σ : String → Value} {isLocal : String → Bool}

/-- When the names hold no tables, the meaning of an operator term is stateless and no table. -/
theorem evalOp_plain (hσ : ∀ s, isLocal s = true → (σ s).isTable = false) (e : Expr)
    (he : e.isOperatorTerm isLocal = true) : VM.Plain (e.evalOp call σ) :=
  match e, he with
  | .nil _, _ => .pure rfl
  | .bool _ _, _ => .pure rfl
  | .int _ _, _ => .pure rfl
  | .float _ _, _ => .pure rfl
  | .str _ _, _ => .pure rfl
  | .name s _, he => .pure (hσ s he)
  | .paren e _, he => evalOp_plain hσ e he
  | .unop _ e _, he => .bind (evalOp_plain hσ e he).stateless fun v hv =>
      VM.unary_plain ((evalOp_plain hσ e he).value v hv)
  | .binop _ lhs rhs _, he => by
    rw [isOperatorTerm, Bool.and_eq_true] at he
    exact VM.binary_plain (evalOp_plain hσ lhs he.1) (evalOp_plain hσ rhs he.2)
  termination_by structural e

end Expr

end LuaBytecode
