import Mathlib
import LuaBytecode.Machine.Step
/-!
# Operations on values without metatables

Only tables have metatables, so on any other values the operations of the machine never call a
metamethod: each is then a computation that neither reads nor changes the machine
(`VM.Stateless`), the lift of its outcome (`VM.outcome`), which is the same from every state.

* `VM.Plain` adds that the value given is no table either, so that such results can be fed to
  further operations; `Plain.bind` chains them;
* `arith_plain`, `len_plain` and `concat_pair_plain` say so of arithmetic, length and the
  concatenation of two values, and `concat_cons` splits a longer concatenation into pairs,
  from the right;
* `equals_plain`, `lessThan_plain` and `lessEqual_plain` give the comparisons outright: primitive
  equality, and the primitive order or the comparison error.
-/

namespace LuaBytecode

/-- Is the value a table? Only tables have metatables. -/
def Value.isTable : Value → Bool
  | .table _ => true
  | _ => false

/-- A primitive arithmetic result is a number. -/
theorem Arith.apply_value {op : ArithOp} {a b v : Value}
    (h : Arith.apply op a b = .ok (some v)) : v.isTable = false := by
  unfold Arith.apply at h
  split at h
  · split at h
    · cases h
      rfl
    · cases h
  · split at h
    · split at h
      · cases h
        rfl
      · cases h
        rfl
      · simp only [Except.map] at h
        split at h
        · cases h
        · cases h
          rfl
      · cases h
        rfl
    · cases h

namespace VM

variable {α β : Type} {call : Call}

/-- What a computation gives from the empty machine, without the state it leaves. -/
def outcome (x : VM α) : Except Fault α :=
  match x.run default with
  | .ok a _ => .ok a
  | .error e _ => .error e

/-- A computation that neither reads nor changes the machine: the lift of its outcome. -/
def Stateless (x : VM α) : Prop := x = lift x.outcome

@[simp] theorem outcome_lift (r : Except Fault α) : (lift r).outcome = r := by
  cases r <;> rfl

theorem lift_bind (r : Except Fault α) (f : α → VM β) :
    lift r >>= f = match r with | .ok a => f a | .error e => throw e := by
  cases r <;> rfl

namespace Stateless

theorem of_lift (r : Except Fault α) : Stateless (lift r) := by
  rw [Stateless, outcome_lift]

theorem pure (a : α) : Stateless (Pure.pure a : VM α) := of_lift (.ok a)

theorem throw (e : Fault) : Stateless (MonadExcept.throw e : VM α) := of_lift (.error e)

theorem bind {x : VM α} {f : α → VM β} (hx : Stateless x)
    (hf : ∀ a, x.outcome = .ok a → Stateless (f a)) : Stateless (x >>= f) := by
  rw [Stateless, hx, lift_bind]
  cases h : x.outcome with
  | ok a => exact hf a h
  | error e => exact throw e

theorem outcome_bind {x : VM α} {f : α → VM β} (hx : Stateless x) :
    (x >>= f).outcome = x.outcome >>= fun a => (f a).outcome := by
  rw [hx, lift_bind, outcome_lift]
  cases x.outcome with
  | ok a => rfl
  | error e => rfl

/-- A stateless computation gives its outcome from every state and leaves the state alone. -/
theorem run {x : VM α} (hx : Stateless x) (m : Machine) :
    x.run m = match x.outcome with | .ok a => .ok a m | .error e => .error e m := by
  rw [hx, outcome_lift]
  cases x.outcome <;> rfl

end Stateless

/-- A stateless computation whose value is no table. -/
structure Plain (x : VM Value) : Prop where
  stateless : Stateless x
  value : ∀ v, x.outcome = .ok v → v.isTable = false

namespace Plain

theorem pure {v : Value} (hv : v.isTable = false) : Plain (Pure.pure v) :=
  ⟨.pure v, fun _ h => by cases h; exact hv⟩

theorem throw (e : Fault) : Plain (MonadExcept.throw e) :=
  ⟨.throw e, fun _ h => by cases h⟩

theorem bind {x : VM α} {f : α → VM Value} (hx : Stateless x)
    (hf : ∀ a, x.outcome = .ok a → Plain (f a)) : Plain (x >>= f) where
  stateless := hx.bind fun a h => (hf a h).stateless
  value v h := by
    rw [hx.outcome_bind] at h
    cases ho : x.outcome with
    | ok a =>
      rw [ho] at h
      exact (hf a ho).value v h
    | error e =>
      rw [ho] at h
      cases h

end Plain

/-! ## Metamethods are never looked up -/

theorem metamethod_plain {v : Value} (hv : v.isTable = false) (m : Machine) (event : String) :
    m.metamethod v event = .nil := by
  cases v <;> first | rfl | cases hv

theorem tryBinaryMeta_plain {a b : Value} (ha : a.isTable = false) (hb : b.isTable = false)
    (event : String) : tryBinaryMeta call a b event = Pure.pure none := by
  funext m
  simp [tryBinaryMeta, metamethod_plain ha, metamethod_plain hb, Value.isNil]

/-! ## The operations -/

theorem arith_plain {op : ArithOp} {a b : Value} (ha : a.isTable = false)
    (hb : b.isTable = false) : Plain (arith call op a b) := by
  unfold arith
  rw [tryBinaryMeta_plain ha hb]
  refine .bind (.of_lift _) fun r hr => ?_
  cases r with
  | some v =>
    -- the primitive result: a number
    rw [outcome_lift] at hr
    exact .pure (Arith.apply_value hr)
  | none =>
    simp only [pure_bind]
    repeat' split
    all_goals exact .throw _

theorem len_plain {v : Value} (hv : v.isTable = false) : Plain (len call v) := by
  cases v with
  | str s => exact .pure rfl
  | table id => cases hv
  | _ => exact ⟨by funext m; rfl, fun _ h => by cases h⟩

/-- The concatenation of two values: their texts joined, or the failure. -/
theorem concat_pair_plain {x y : Value} (hx : x.isTable = false) (hy : y.isTable = false) :
    Plain (concat call #[x, y]) := by
  simp only [concat, List.reverse_cons, List.reverse_nil, List.nil_append, List.cons_append,
    List.foldlM_cons, List.foldlM_nil, bind_pure]
  split
  · exact .pure rfl
  · rw [tryBinaryMeta_plain hx hy]
    simp only [pure_bind]
    exact .throw _

theorem concat_single (x : Value) : concat call #[x] = Pure.pure x := rfl

/-- A concatenation groups to the right: the first value is joined to the concatenation of the
others. -/
theorem concat_cons (x : Value) {ys : List Value} (hys : ys ≠ []) :
    concat call (x :: ys).toArray = concat call ys.toArray >>= fun r => concat call #[x, r] := by
  obtain ⟨last, rest, h⟩ : ∃ last rest, ys.reverse = last :: rest := by
    cases hr : ys.reverse with
    | nil => exact absurd (List.reverse_eq_nil_iff.mp hr) hys
    | cons l r => exact ⟨l, r, rfl⟩
  simp only [concat, List.reverse_cons, h, List.cons_append, List.foldlM_append]
  rfl

theorem equals_plain {a b : Value} (ha : a.isTable = false) :
    equals call a b = Pure.pure (a.rawEq b) := by
  unfold equals
  cases h : a.rawEq b
  · simp only [Bool.false_eq_true, ↓reduceIte]
    cases a <;> first | rfl | cases ha
  · rfl

theorem lessThan_plain {a b : Value} (ha : a.isTable = false) (hb : b.isTable = false) :
    lessThan call a b = lift (match Arith.lessThan? a b with
      | some r => .ok r
      | none => .error (compareError a b)) := by
  unfold lessThan
  rw [tryBinaryMeta_plain ha hb]
  cases Arith.lessThan? a b <;> rfl

theorem lessEqual_plain {a b : Value} (ha : a.isTable = false) (hb : b.isTable = false) :
    lessEqual call a b = lift (match Arith.lessEqual? a b with
      | some r => .ok r
      | none => .error (compareError a b)) := by
  unfold lessEqual
  rw [tryBinaryMeta_plain ha hb, tryBinaryMeta_plain hb ha]
  cases Arith.lessEqual? a b <;> rfl

end VM

end LuaBytecode
