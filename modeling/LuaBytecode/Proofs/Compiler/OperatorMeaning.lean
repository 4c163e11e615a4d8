import LuaBytecode.Proofs.Compiler.Reference
import LuaBytecode.Proofs.Machine.Steps
import LuaBytecode.Proofs.Compiler.Run
/-!
# The outcome of an operator term, part by part

When the names hold no tables, the meaning of an operator term is stateless
(`Expr.evalOp_plain`), so its outcome is the outcome of its parts combined in the order the
parts are evaluated. This module states that combination for each kind of node, in the form
the code of the node computes it:

* an arithmetic or bitwise operator, and `^`: both operands, then `arith` on them;
* a comparison: both operands, then the primitive test (`Value.rawEq`, or the order or its
  failure), with `>` and `>=` testing the operands swapped and `~=` negated;
* `and` and `or`: the left operand, and the right one only when the left does not decide;
* a chain `e₀ .. e₁ .. ⋯ .. eₖ`, and likewise `e₀ ^ e₁ ^ ⋯ ^ eₖ`, which group to the right: all
  parts from left to right (`Expr.evalAll`), then the joins (or powers) from the right.
-/

namespace LuaBytecode

/-- The binary operators whose code is one arithmetic instruction on two operands: all but
`..`, `^`, the comparisons, `and` and `or`. -/
def BinOp.isPlainArith : BinOp → Bool
  | .add | .sub | .mul | .div | .idiv | .mod | .band | .bor | .bxor | .shl | .shr => true
  | _ => false

/-- The outcome of a comparison of two values: `>` and `>=` test the operands swapped, `~=` is
`==` negated. -/
def BinOp.compare (call : VM.Call) (op : BinOp) (x y : Value) : Except Fault Bool :=
  match op with
  | .eq => (VM.equals call x y).outcome
  | .ne => (VM.equals call x y).outcome.map (!·)
  | .lt => (VM.lessThan call x y).outcome
  | .le => (VM.lessEqual call x y).outcome
  | .gt => (VM.lessThan call y x).outcome
  | _ => (VM.lessEqual call y x).outcome

/-- A bind gives the same outcome when the continuations agree on every value it can pass. -/
theorem Except.bind_congr_ok {ε α β : Type} {o : Except ε α} {f g : α → Except ε β}
    (h : ∀ v, o = .ok v → f v = g v) : o >>= f = o >>= g := by
  cases o with
  | error e => rfl
  | ok v => exact h v rfl

namespace VM

/-- Two stateless operands and a stateless test of their values, as a value. -/
theorem outcome_test {lhs rhs : VM Value} {t : Value → Value → VM Bool} {g : Bool → Value}
    (hl : Plain lhs) (hr : Plain rhs)
    (ht : ∀ x y, x.isTable = false → y.isTable = false → Stateless (t x y)) :
    (do let x ← lhs; let y ← rhs; let b ← t x y; pure (g b) : VM Value).outcome =
      lhs.outcome >>= fun x => rhs.outcome >>= fun y => (t x y).outcome.map g := by
  rw [hl.stateless.outcome_bind]
  refine Except.bind_congr_ok fun x hx => ?_
  rw [hr.stateless.outcome_bind]
  refine Except.bind_congr_ok fun y hy => ?_
  rw [(ht x y (hl.value x hx) (hr.value y hy)).outcome_bind]
  cases (t x y).outcome <;> rfl

/-- `v₀ ^ (v₁ ^ (⋯ ^ vₖ))`: powers taken from the right. -/
def powRight (call : Call) : List Value → Except Fault Value
  | [] => .ok .nil
  | [v] => .ok v
  | v :: vs => powRight call vs >>= fun r => (arith call .pow v r).outcome

end VM

namespace Expr

/-- The outcomes of a list of operator terms, evaluated from left to right. -/
def evalAll (call : VM.Call) (σ : String → Value) : List Expr → Except Fault (List Value)
  | [] => .ok []
  | e :: es => do
    let v ← (e.evalOp call σ).outcome
    let vs ← evalAll call σ es
    pure (v :: vs)

/-- The parts of a chain of one right-grouping operator, left to right. -/
def chain (op : BinOp) : Expr → List Expr
  | .binop o lhs rhs _ =>
    if o = op then lhs :: (if rhs.isBinop op then rhs.chain op else [rhs]) else []
  | _ => []

variable {call : VM.Call} {σ : String → Value} {isLocal : String → Bool}

theorem chain_binop {op : BinOp} {lhs rhs : Expr} {l : Nat} :
    (Expr.binop op lhs rhs l).chain op =
      lhs :: (if rhs.isBinop op then rhs.chain op else [rhs]) := by
  rw [chain, if_pos rfl]

/-- An application of `op` is one. -/
theorem eq_binop_of_isBinop {op : BinOp} {e : Expr} (h : e.isBinop op = true) :
    ∃ lhs rhs l, e = .binop op lhs rhs l := by
  cases e <;> simp only [isBinop, Bool.false_eq_true, beq_iff_eq] at h
  subst h
  exact ⟨_, _, _, rfl⟩

/-- The parts of a chain of operator terms are operator terms. -/
theorem chain_operatorTerm {op : BinOp} (e : Expr) (he : e.isOperatorTerm isLocal = true) :
    ∀ x ∈ e.chain op, x.isOperatorTerm isLocal = true := by
  intro x hx
  by_cases hb : e.isBinop op = true
  · obtain ⟨lhs, rhs, l, hbe⟩ := eq_binop_of_isBinop hb
    rw [hbe, isOperatorTerm, Bool.and_eq_true] at he
    rw [hbe, chain_binop] at hx
    rcases List.mem_cons.mp hx with rfl | hx
    · exact he.1
    split at hx
    · exact chain_operatorTerm rhs he.2 x hx
    · rw [List.mem_singleton] at hx
      exact hx ▸ he.2
  · cases e <;> simp_all [chain, isBinop]
termination_by sizeOf e
decreasing_by subst hbe; simp; omega

/-- A chain has at least two parts. -/
theorem two_le_length_chain {op : BinOp} {e : Expr} (h : e.isBinop op = true) :
    2 ≤ (e.chain op).length := by
  obtain ⟨lhs, rhs, l, hbe⟩ := eq_binop_of_isBinop h
  rw [hbe, chain_binop]
  split
  · have := two_le_length_chain (e := rhs) ‹_›
    simp only [List.length_cons]
    omega
  · simp
termination_by sizeOf e
decreasing_by subst hbe; simp; omega

theorem outcome_paren {e : Expr} {l : Nat} :
    ((Expr.paren e l).evalOp call σ).outcome = (e.evalOp call σ).outcome := by
  rw [evalOp]

section

variable (hσ : ∀ s, isLocal s = true → (σ s).isTable = false)
include hσ

theorem outcome_unop {op : UnOp} {e : Expr} {l : Nat} (he : e.isOperatorTerm isLocal = true) :
    ((Expr.unop op e l).evalOp call σ).outcome =
      (e.evalOp call σ).outcome >>= fun v => (VM.unary call op v).outcome := by
  rw [evalOp, (evalOp_plain hσ e he).stateless.outcome_bind]

/-- An arithmetic or bitwise operator, or `^`: both operands, then the operation. -/
theorem outcome_arith {op : BinOp} {lhs rhs : Expr} {l : Nat}
    (hop : op.isPlainArith = true ∨ op = .pow) (hl : lhs.isOperatorTerm isLocal = true)
    (hr : rhs.isOperatorTerm isLocal = true) :
    ((Expr.binop op lhs rhs l).evalOp call σ).outcome =
      (lhs.evalOp call σ).outcome >>= fun x => (rhs.evalOp call σ).outcome >>= fun y =>
        (VM.arith call op.toArith x y).outcome := by
  have hb : VM.binary call op (lhs.evalOp call σ) (rhs.evalOp call σ) =
      (do let x ← lhs.evalOp call σ; let y ← rhs.evalOp call σ; VM.arith call op.toArith x y) := by
    rcases hop with hop | rfl
    · cases op <;> first | rfl | cases hop
    · rfl
  have hpl : VM.Plain (lhs.evalOp call σ) := evalOp_plain hσ lhs hl
  have hpr : VM.Plain (rhs.evalOp call σ) := evalOp_plain hσ rhs hr
  rw [evalOp, hb, hpl.stateless.outcome_bind]
  congr 1
  funext x
  rw [hpr.stateless.outcome_bind]

/-- A comparison: both operands, then the test, as a boolean. -/
theorem outcome_compare {op : BinOp} {lhs rhs : Expr} {l : Nat}
    (hop : op = .eq ∨ op = .ne ∨ op = .lt ∨ op = .le ∨ op = .gt ∨ op = .ge)
    (hl : lhs.isOperatorTerm isLocal = true) (hr : rhs.isOperatorTerm isLocal = true) :
    ((Expr.binop op lhs rhs l).evalOp call σ).outcome =
      (lhs.evalOp call σ).outcome >>= fun x => (rhs.evalOp call σ).outcome >>= fun y =>
        (op.compare call x y).map .bool := by
  have hpl : VM.Plain (lhs.evalOp call σ) := evalOp_plain hσ lhs hl
  have hpr : VM.Plain (rhs.evalOp call σ) := evalOp_plain hσ rhs hr
  rw [evalOp]
  rcases hop with rfl | rfl | rfl | rfl | rfl | rfl
  · refine VM.outcome_test hpl hpr fun x y hx _ => ?_
    rw [VM.equals_plain hx]
    exact .pure _
  · refine (VM.outcome_test (g := fun b => .bool !b) hpl hpr fun x y hx _ => ?_).trans ?_
    · rw [VM.equals_plain hx]
      exact .pure _
    · refine congrArg _ (funext fun x => congrArg _ (funext fun y => ?_))
      simp only [BinOp.compare]
      cases (VM.equals call x y).outcome <;> rfl
  · exact VM.outcome_test hpl hpr fun x y hx hy => by
      rw [VM.lessThan_plain hx hy]; exact .of_lift _
  · exact VM.outcome_test hpl hpr fun x y hx hy => by
      rw [VM.lessEqual_plain hx hy]; exact .of_lift _
  · exact VM.outcome_test hpl hpr fun x y hx hy => by
      rw [VM.lessThan_plain hy hx]; exact .of_lift _
  · exact VM.outcome_test hpl hpr fun x y hx hy => by
      rw [VM.lessEqual_plain hy hx]; exact .of_lift _

/-- The values of operator terms are no tables, one for each term. -/
theorem evalAll_plain {es : List Expr} {vs : List Value}
    (hes : ∀ e ∈ es, e.isOperatorTerm isLocal = true) (h : evalAll call σ es = .ok vs) :
    (∀ v ∈ vs, v.isTable = false) ∧ vs.length = es.length := by
  induction es generalizing vs with
  | nil =>
    cases h
    exact ⟨nofun, rfl⟩
  | cons e es ih =>
    simp only [evalAll] at h
    obtain ⟨v, hv, h⟩ := except_bind_ok h
    obtain ⟨ws, hws, h⟩ := except_bind_ok h
    cases h
    obtain ⟨hall, hlen⟩ := ih (fun x hx => hes x (List.mem_cons_of_mem e hx)) hws
    refine ⟨?_, by simp [hlen]⟩
    rintro x (_ | ⟨_, hx⟩)
    · exact (evalOp_plain hσ e (hes e List.mem_cons_self)).value v hv
    · exact hall x hx

/-- `e₀ .. e₁ .. ⋯ .. eₖ`: all parts from left to right, then one concatenation of their
values, which joins them from the right. -/
theorem outcome_concat {lhs rhs : Expr} {l : Nat} (hl : lhs.isOperatorTerm isLocal = true)
    (hr : rhs.isOperatorTerm isLocal = true) :
    ((Expr.binop .concat lhs rhs l).evalOp call σ).outcome =
      evalAll call σ ((Expr.binop .concat lhs rhs l).chain .concat) >>= fun vs =>
        (VM.concat call vs.toArray).outcome := by
  have hpl : VM.Plain (lhs.evalOp call σ) := evalOp_plain hσ lhs hl
  have hpr : VM.Plain (rhs.evalOp call σ) := evalOp_plain hσ rhs hr
  have hpair : ((Expr.binop .concat lhs rhs l).evalOp call σ).outcome =
      (lhs.evalOp call σ).outcome >>= fun x => (rhs.evalOp call σ).outcome >>= fun y =>
        (VM.concat call #[x, y]).outcome := by
    rw [evalOp]
    simp only [VM.binary]
    rw [hpl.stateless.outcome_bind]
    refine Except.bind_congr_ok fun x _ => ?_
    rw [hpr.stateless.outcome_bind]
  rw [hpair, chain_binop, evalAll]
  simp only [bind_assoc]
  refine Except.bind_congr_ok fun x hx => ?_
  have hxt : x.isTable = false := hpl.value x hx
  split
  · -- the right operand is a chain of its own: its parts, then its join
    rename_i hb
    obtain ⟨l', r', l'', hbe⟩ := eq_binop_of_isBinop hb
    have hr' := hr
    rw [hbe, isOperatorTerm, Bool.and_eq_true] at hr'
    rw [hbe, outcome_concat hr'.1 hr'.2, ← hbe, bind_assoc]
    refine Except.bind_congr_ok fun ws hws => ?_
    obtain ⟨hall, hlen⟩ := evalAll_plain hσ (chain_operatorTerm _ hr) hws
    have hne : ws ≠ [] := by
      have := two_le_length_chain hb
      intro h
      rw [h] at hlen
      simp at hlen
      omega
    have hp := VM.concat_list_plain call hall hne
    simp only [pure_bind]
    rw [VM.concat_cons x hne, hp.stateless.outcome_bind]
  · simp only [evalAll, bind_assoc]
    rfl
termination_by sizeOf rhs
decreasing_by subst hbe; simp; omega

/-- `e₀ ^ e₁ ^ ⋯ ^ eₖ`: all parts from left to right, then the powers from the right. -/
theorem outcome_pow {lhs rhs : Expr} {l : Nat} (hl : lhs.isOperatorTerm isLocal = true)
    (hr : rhs.isOperatorTerm isLocal = true) :
    ((Expr.binop .pow lhs rhs l).evalOp call σ).outcome =
      evalAll call σ ((Expr.binop .pow lhs rhs l).chain .pow) >>= VM.powRight call := by
  rw [outcome_arith hσ (.inr rfl) hl hr, chain_binop, evalAll]
  simp only [bind_assoc]
  refine Except.bind_congr_ok fun x _ => ?_
  split
  · -- the right operand is a chain of its own: its parts, then its powers
    rename_i hb
    obtain ⟨l', r', l'', hbe⟩ := eq_binop_of_isBinop hb
    have hr' := hr
    rw [hbe, isOperatorTerm, Bool.and_eq_true] at hr'
    rw [hbe, outcome_pow hr'.1 hr'.2, ← hbe, bind_assoc]
    refine Except.bind_congr_ok fun ws hws => ?_
    obtain ⟨-, hlen⟩ := evalAll_plain hσ (chain_operatorTerm _ hr) hws
    obtain ⟨w, ws', rfl⟩ : ∃ w ws', ws = w :: ws' := by
      have := two_le_length_chain hb
      cases ws with
      | nil => simp at hlen; omega
      | cons w ws' => exact ⟨w, ws', rfl⟩
    rfl
  · simp only [evalAll, bind_assoc]
    rfl
termination_by sizeOf rhs
decreasing_by subst hbe; simp; omega

/-- `and` and `or`: the left operand, and the right one only when the left does not decide. -/
theorem outcome_logical {isOr : Bool} {lhs rhs : Expr} {l : Nat}
    (hl : lhs.isOperatorTerm isLocal = true) :
    ((Expr.binop (if isOr then .or else .and) lhs rhs l).evalOp call σ).outcome =
      (lhs.evalOp call σ).outcome >>= fun x =>
        if x.isTruthy = isOr then .ok x else (rhs.evalOp call σ).outcome := by
  have hpl : VM.Plain (lhs.evalOp call σ) := evalOp_plain hσ lhs hl
  rw [evalOp]
  cases isOr <;>
  · simp only [VM.binary, Bool.false_eq_true, if_false, if_true]
    rw [hpl.stateless.outcome_bind]
    refine Except.bind_congr_ok fun x _ => ?_
    cases x.isTruthy <;> rfl

end

end Expr

end LuaBytecode
