import LuaBytecode.Proofs.Machine.Execution
import LuaBytecode.Machine.Run
/-!
# Runs that call nothing

The instructions that evaluate operators call nothing as long as their operands are no tables,
so each step of such code is the same whatever the machine's call does. `VM.runFunction` hands
every step the call of the budget it has left; a run of such code is therefore said by steps
that hold for every call:

* `VM.Moves m m'`: one step from `m` to `m'` for every call, and `VM.Steps n m m'`: `n` of
  them; `VM.Returns m vs` and `VM.Stops m e`: the step from `m` returns `vs`, or fails with
  `e`, for every call;
* `VM.Does m o post`: from `m` the machine does what the outcome `o` says by such steps, a
  weakest precondition with a failure branch; `Does.bind` follows the outcome's `bind`;
* `runFunction_steps`: `n` steps use `n` units of `runFunction`'s budget, so a run that
  returns or fails gives `runFunction` its result once the budget is large enough, and
  `runFunction_exhausts`: a budget of at most `n` is spent before `n` steps are over.

On operands that are no tables the operations have one outcome for every call (`arith_call`,
`len_call`, `concat_call`), and `moves_move`, `does_arith`, ... execute one instruction as such
a step.
-/

namespace LuaBytecode

namespace Machine

/-- The machine with the running frame past its next instruction. -/
def fetched (m : Machine) : Machine := { m with frame := { m.frame with pc := m.frame.pc + 1 } }

/-- The machine past its next instruction, with `v` written to register `r`. -/
def write (m : Machine) (r : Nat) (v : Value) : Machine :=
  { m with frame := { m.frame with pc := m.frame.pc + 1 }.setReg r v }

variable {m : Machine} {r r' : Nat} {v : Value}

@[simp] theorem fetched_pc : m.fetched.frame.pc = m.frame.pc + 1 := rfl

@[simp] theorem fetched_reg : m.fetched.frame.reg r = m.frame.reg r := rfl

@[simp] theorem write_pc : (m.write r v).frame.pc = m.frame.pc + 1 := rfl

@[simp] theorem write_reg : (m.write r v).frame.reg r' = if r' = r then v else m.frame.reg r' :=
  Frame.reg_setReg _ _ _ _

theorem Rest.fetched : Rest m m.fetched := (Rest.refl m).setPc _

theorem Rest.write : Rest m (m.write r v) := Rest.fetched.setReg r v

theorem Rest.openCells {m' : Machine} (h : Rest m m') : m'.frame.openCells = m.frame.openCells := by
  rw [h]

end Machine

/-- Clearing `n` registers from `a` with nil. -/
theorem Frame.reg_clear (f : Frame) (a n r : Nat) :
    ((List.range n).foldl (fun f r => f.setReg (a + r) .nil) f).reg r =
      if a ≤ r ∧ r < a + n then .nil else f.reg r := by
  induction n with
  | zero => simp
  | succ n ih =>
    rw [List.range_succ, List.foldl_append, List.foldl_cons, List.foldl_nil, Frame.reg_setReg, ih]
    split_ifs <;> first | rfl | omega

namespace VM

variable {α β : Type} {m m' m₁ m₂ : Machine} {n k : Nat}

/-- From `m` the machine moves to `m'` by one step of the running function, whatever a call
would do. -/
def Moves (m m' : Machine) : Prop := ∀ call, (step call).run m = .ok none m'

/-- `n` steps that call nothing. -/
inductive Steps : Nat → Machine → Machine → Prop
  | refl (m : Machine) : Steps 0 m m
  | cons {n : Nat} {m m₁ m₂ : Machine} : Moves m m₁ → Steps n m₁ m₂ → Steps (n + 1) m m₂

/-- The step from `m` returns `vs`, whatever a call would do. -/
def Returns (m : Machine) (vs : Array Value) : Prop :=
  ∃ m', ∀ call, (step call).run m = .ok (some vs) m'

/-- The step from `m` fails with `e`, whatever a call would do. -/
def Stops (m : Machine) (e : Fault) : Prop := ∃ m', ∀ call, (step call).run m = .error e m'

namespace Steps

theorem single (h : Moves m m') : Steps 1 m m' := .cons h (.refl m')

theorem trans (h₁ : Steps n m m₁) (h₂ : Steps k m₁ m₂) : Steps (n + k) m m₂ := by
  induction h₁ with
  | refl => simpa using h₂
  | cons hm _ ih =>
    rw [Nat.add_right_comm]
    exact .cons hm (ih h₂)

end Steps

/-! ## The budget of `runFunction` -/

theorem runFunction_moves (h : Moves m m') (fuel : Nat) :
    (runFunction (fuel + 1)).run m = (runFunction fuel).run m' := by
  rw [runFunction]
  simp only [EStateM.run_bind, h (callValue fuel)]

/-- `n` steps that call nothing use `n` units of the budget. -/
theorem runFunction_steps (h : Steps n m m') (fuel : Nat) :
    (runFunction (fuel + n)).run m = (runFunction fuel).run m' := by
  induction h generalizing fuel with
  | refl => rfl
  | cons hm _ ih => rw [← Nat.add_assoc, runFunction_moves hm, ih]

theorem runFunction_returns {vs : Array Value} (h : Returns m vs) (fuel : Nat) :
    ∃ m', (runFunction (fuel + 1)).run m = .ok vs m' := by
  obtain ⟨m', hm⟩ := h
  refine ⟨m', ?_⟩
  rw [runFunction]
  simp only [EStateM.run_bind, hm (callValue fuel)]
  rfl

theorem runFunction_stops {e : Fault} (h : Stops m e) (fuel : Nat) :
    ∃ m', (runFunction (fuel + 1)).run m = .error e m' := by
  obtain ⟨m', hm⟩ := h
  refine ⟨m', ?_⟩
  rw [runFunction]
  simp only [EStateM.run_bind, hm (callValue fuel)]

/-- A budget of at most `n` is spent before `n` steps that call nothing are over. -/
theorem runFunction_exhausts {fuel : Nat} (h : Steps n m m') (hf : fuel ≤ n) :
    ∃ m'', (runFunction fuel).run m = .error budgetSpent m'' := by
  induction h generalizing fuel with
  | refl =>
    obtain rfl : fuel = 0 := by omega
    exact ⟨_, rfl⟩
  | @cons n _ _ _ hm _ ih =>
    cases fuel with
    | zero => exact ⟨_, rfl⟩
    | succ fuel =>
      rw [runFunction_moves hm]
      exact ih (by omega)

/-! ## Doing what an outcome says -/

/-- From `m` the machine does what the outcome `o` says, by steps that call nothing: for
`.ok x` it reaches a state that satisfies `post x`, for `.error e` a step that fails with `e`. -/
def Does (m : Machine) (o : Except Fault α) (post : α → Machine → Prop) : Prop :=
  match o with
  | .ok x => ∃ n m', Steps n m m' ∧ post x m'
  | .error e => ∃ n m', Steps n m m' ∧ Stops m' e

namespace Does

variable {o : Except Fault α} {post post' : α → Machine → Prop}

theorem here {x : α} (h : post x m) : Does m (.ok x) post := ⟨0, m, .refl m, h⟩

/-- One step to a state where the post holds. -/
theorem move {x : α} (h : Moves m m₁) (hp : post x m₁) : Does m (.ok x) post :=
  ⟨1, m₁, .single h, hp⟩

/-- Steps taken before. -/
theorem prepend (h₁ : Steps n m m₁) (h : Does m₁ o post) : Does m o post := by
  cases o with
  | ok x =>
    obtain ⟨k, m', h₂, hp⟩ := h
    exact ⟨n + k, m', h₁.trans h₂, hp⟩
  | error e =>
    obtain ⟨k, m', h₂, hs⟩ := h
    exact ⟨n + k, m', h₁.trans h₂, hs⟩

theorem mono (h : Does m o post) (hp : ∀ x m', post x m' → post' x m') : Does m o post' := by
  cases o with
  | ok x =>
    obtain ⟨k, m', h₁, h₂⟩ := h
    exact ⟨k, m', h₁, hp x m' h₂⟩
  | error e => exact h

/-- Running the code of `o` and then, from where it ends, the code of `f x`. -/
theorem bind {f : α → Except Fault β} {post : α → Machine → Prop} {post' : β → Machine → Prop}
    (h : Does m o post) (hf : ∀ x m', o = .ok x → post x m' → Does m' (f x) post') :
    Does m (o >>= f) post' := by
  cases o with
  | ok x =>
    obtain ⟨k, m', h₁, hp⟩ := h
    exact prepend h₁ (hf x m' rfl hp)
  | error e => exact h

/-- Running the code of `o` and then more steps that keep its value. -/
theorem extend (h : Does m o post) (hf : ∀ x m', o = .ok x → post x m' → Does m' (.ok x) post') :
    Does m o post' := by
  cases o with
  | ok x =>
    obtain ⟨k, m', h₁, hp⟩ := h
    exact prepend h₁ (hf x m' rfl hp)
  | error e => exact h

/-- Running the code of `o` and then code that gives `f x` without failing. -/
theorem map {f : α → β} {post : α → Machine → Prop} {post' : β → Machine → Prop}
    (h : Does m o post) (hf : ∀ x m', o = .ok x → post x m' → Does m' (.ok (f x)) post') :
    Does m (o.map f) post' := by
  cases o with
  | ok x =>
    obtain ⟨k, m', h₁, hp⟩ := h
    exact prepend h₁ (hf x m' rfl hp)
  | error e => exact h

/-- One step that moves or fails as the outcome `o` says. -/
theorem step (m₂ : Machine) {next : α → Machine}
    (h : ∀ call, (VM.step call).run m =
      match o with | .ok x => .ok none (next x) | .error e => .error e m₂)
    (hp : ∀ x, o = .ok x → post x (next x)) : Does m o post := by
  cases o with
  | ok x => exact ⟨1, next x, .single h, hp x rfl⟩
  | error e => exact ⟨0, m, .refl m, m₂, h⟩

end Does

/-! ## Operations that call nothing -/

variable {call call' : Call}

/-- Arithmetic on operands that are no tables is the same for every call. -/
theorem arith_call (call call' : Call) {op : ArithOp} {a b : Value} (ha : a.isTable = false) (hb : b.isTable = false) :
    arith call op a b = arith call' op a b := by
  unfold arith
  rw [tryBinaryMeta_plain ha hb, tryBinaryMeta_plain ha hb]

theorem len_call (call call' : Call) (v : Value) : (len call v).outcome = (len call' v).outcome := by
  cases v <;> rfl

theorem concat_pair_call (call call' : Call) {x y : Value} (hx : x.isTable = false) (hy : y.isTable = false) :
    concat call #[x, y] = concat call' #[x, y] := by
  simp only [concat, List.reverse_cons, List.reverse_nil, List.nil_append, List.cons_append,
    List.foldlM_cons, List.foldlM_nil, bind_pure]
  rw [tryBinaryMeta_plain hx hy, tryBinaryMeta_plain hx hy]

/-- A concatenation of values that are no tables is no table. -/
theorem concat_list_plain (call : Call) {vs : List Value} (hvs : ∀ v ∈ vs, v.isTable = false) (hne : vs ≠ []) :
    Plain (concat call vs.toArray) := by
  induction vs with
  | nil => exact absurd rfl hne
  | cons x ys ih =>
    have hx : x.isTable = false := hvs x List.mem_cons_self
    by_cases hys : ys = []
    · subst hys
      exact .pure hx
    have hp := ih (fun v hv => hvs v (List.mem_cons_of_mem x hv)) hys
    rw [concat_cons x hys]
    exact .bind hp.stateless fun r hr => concat_pair_plain hx (hp.value r hr)

/-- A concatenation of values that are no tables is the same for every call. -/
theorem concat_call (call call' : Call) {vs : List Value} (hvs : ∀ v ∈ vs, v.isTable = false) :
    (concat call vs.toArray).outcome = (concat call' vs.toArray).outcome := by
  induction vs with
  | nil => rfl
  | cons x ys ih =>
    have hx : x.isTable = false := hvs x List.mem_cons_self
    have hys' : ∀ v ∈ ys, v.isTable = false := fun v hv => hvs v (List.mem_cons_of_mem x hv)
    by_cases hys : ys = []
    · subst hys
      rfl
    have hp : Plain (concat call ys.toArray) := concat_list_plain call hys' hys
    rw [concat_cons x hys, concat_cons x hys, hp.stateless.outcome_bind,
      (concat_list_plain call' hys' hys).stateless.outcome_bind, ← ih hys']
    cases hr : (concat call ys.toArray).outcome with
    | error e => rfl
    | ok r => exact congrArg VM.outcome (concat_pair_call call call' hx (hp.value r hr))

/-! ## Instructions as steps that call nothing -/

variable {lc : Closure} {i : Instruction}

/-- A step executes the next instruction of the running closure. -/
theorem step_fetched {call : Call} (hr : m.Runs lc) (hi : lc.proto.code[m.frame.pc]? = some i) :
    (step call).run m = (dispatch call lc i).run m.fetched :=
  step_run hr hi

theorem moves_of_dispatch (hr : m.Runs lc) (hi : lc.proto.code[m.frame.pc]? = some i)
    (h : ∀ call, (dispatch call lc i).run m.fetched = .ok none m') : Moves m m' :=
  fun call => (step_fetched hr hi).trans (h call)

theorem loadNil_loop (a : Nat) (rs : List Nat) (m : Machine) :
    (forIn rs PUnit.unit fun r _ => do
      setReg (a + r) Value.nil
      pure (ForInStep.yield PUnit.unit) : VM PUnit).run m =
      .ok PUnit.unit { m with frame := rs.foldl (fun f r => f.setReg (a + r) .nil) m.frame } := by
  induction rs generalizing m with
  | nil => rfl
  | cons r rs ih =>
    simp only [List.forIn_cons, List.foldl_cons, EStateM.run_bind, setReg, modifyFrame]
    exact ih _

section

variable (hr : m.Runs lc) (hi : lc.proto.code[m.frame.pc]? = some i)
include hr hi

theorem moves_move (ho : i.opcode = .move) : Moves m (m.write i.a (m.frame.reg i.b)) :=
  moves_of_dispatch hr hi fun _ => dispatch_move ho

theorem moves_loadK {k : Constant} (ho : i.opcode = .loadK)
    (hk : lc.proto.constants[i.bx]? = some k) : Moves m (m.write i.a k.toValue) :=
  moves_of_dispatch hr hi fun _ => dispatch_loadK ho hk

/-- `loadkx` reads its constant's index from the `extraArg` after it, and moves past both. -/
theorem moves_loadKx {x : Instruction} {k : Constant} (ho : i.opcode = .loadKx)
    (hx : lc.proto.code[m.frame.pc + 1]? = some x) (hk : lc.proto.constants[x.axArg]? = some k) :
    Moves m (m.fetched.write i.a k.toValue) :=
  moves_of_dispatch hr hi fun _ => dispatch_loadKx ho hx hk

theorem moves_loadBool (ho : i.opcode = .loadBool) (hc : i.c = 0) :
    Moves m (m.write i.a (.bool (i.b != 0))) :=
  moves_of_dispatch hr hi fun _ => by
    rw [dispatch_loadBool ho]
    simp [hc, Machine.write, Machine.fetched]

/-- `loadbool` with C set skips the next instruction. -/
theorem moves_loadBool_skip (ho : i.opcode = .loadBool) (hc : i.c ≠ 0) :
    Moves m (m.write i.a (.bool (i.b != 0))).fetched :=
  moves_of_dispatch hr hi fun _ => by
    rw [dispatch_loadBool ho]
    simp [hc, Machine.write, Machine.fetched]

theorem moves_loadNil (ho : i.opcode = .loadNil) :
    Moves m { m.fetched with
      frame := (List.range (i.b + 1)).foldl (fun f r => f.setReg (i.a + r) .nil) m.fetched.frame } :=
  moves_of_dispatch hr hi fun _ => by
    simp only [dispatch, ho, EStateM.run_bind, loadNil_loop]
    rfl

theorem moves_not (ho : i.opcode = .not) :
    Moves m (m.write i.a (.bool !(m.frame.reg i.b).isTruthy)) :=
  moves_of_dispatch hr hi fun _ => dispatch_not ho

/-- A jump that closes nothing moves to its target. -/
theorem moves_jmp {t : Nat} (ho : i.opcode = .jmp) (ha : i.a = 0)
    (ht : (m.frame.pc : Int) + 1 + i.sbx = t) :
    Moves m { m with frame := { m.frame with pc := t } } :=
  moves_of_dispatch hr hi fun _ => by
    rw [dispatch_jmp ho ha]
    simp only [Machine.fetched, Nat.cast_add, Nat.cast_one, ht, Int.toNat_natCast]

/-- In a frame with no open cell a jump moves to its target, whatever its A asks to close. -/
theorem moves_jmp_closed {t : Nat} (ho : i.opcode = .jmp) (hc : m.frame.openCells = #[])
    (ht : (m.frame.pc : Int) + 1 + i.sbx = t) :
    Moves m { m with frame := { m.frame with pc := t } } :=
  moves_of_dispatch hr hi fun _ => by
    by_cases ha : i.a = 0
    · rw [dispatch_jmp ho ha]
      simp only [Machine.fetched, Nat.cast_add, Nat.cast_one, ht, Int.toNat_natCast]
    · -- closing from slot A - 1 finds no cell to close
      simp [dispatch, ho, ha, jump, modifyFrame, closeCells, Machine.fetched, hc, ht]
      exact ⟨rfl, rfl⟩

theorem moves_test (ho : i.opcode = .test) :
    Moves m { m.fetched with
      frame := m.fetched.frame.skipIf ((m.frame.reg i.a).isTruthy != (i.c != 0)) } :=
  moves_of_dispatch hr hi fun _ => dispatch_test ho

theorem moves_testSet (ho : i.opcode = .testSet) :
    Moves m { m.fetched with frame :=
      if (m.frame.reg i.b).isTruthy == (i.c != 0) then m.fetched.frame.setReg i.a (m.frame.reg i.b)
      else { m.fetched.frame with pc := m.frame.pc + 2 } } :=
  moves_of_dispatch hr hi fun _ => dispatch_testSet ho

theorem moves_eq {x y : Value} (ho : i.opcode = .eq)
    (hb : (rk lc.proto i.b).run m.fetched = .ok x m.fetched)
    (hc : (rk lc.proto i.c).run m.fetched = .ok y m.fetched) (hx : x.isTable = false) :
    Moves m { m.fetched with frame := m.fetched.frame.skipIf (x.rawEq y != (i.a != 0)) } :=
  moves_of_dispatch hr hi fun _ => dispatch_eq ho hb hc hx

theorem does_lt {x y : Value} (ho : i.opcode = .lt)
    (hb : (rk lc.proto i.b).run m.fetched = .ok x m.fetched)
    (hc : (rk lc.proto i.c).run m.fetched = .ok y m.fetched) (hx : x.isTable = false)
    (hy : y.isTable = false) :
    Does m (lessThan call x y).outcome
      (fun h m' => m' = { m.fetched with frame := m.fetched.frame.skipIf (h != (i.a != 0)) }) := by
  refine Does.step m.fetched (fun call' => ?_) (fun _ _ => rfl)
  rw [step_fetched hr hi, dispatch_lt ho hb hc (by rw [lessThan_plain hx hy]; exact .of_lift _),
    lessThan_plain hx hy, lessThan_plain hx hy]
  cases Arith.lessThan? x y <;> rfl

theorem does_le {x y : Value} (ho : i.opcode = .le)
    (hb : (rk lc.proto i.b).run m.fetched = .ok x m.fetched)
    (hc : (rk lc.proto i.c).run m.fetched = .ok y m.fetched) (hx : x.isTable = false)
    (hy : y.isTable = false) :
    Does m (lessEqual call x y).outcome
      (fun h m' => m' = { m.fetched with frame := m.fetched.frame.skipIf (h != (i.a != 0)) }) := by
  refine Does.step m.fetched (fun call' => ?_) (fun _ _ => rfl)
  rw [step_fetched hr hi, dispatch_le ho hb hc (by rw [lessEqual_plain hx hy]; exact .of_lift _),
    lessEqual_plain hx hy, lessEqual_plain hx hy]
  cases Arith.lessEqual? x y <;> rfl

theorem does_arith (call : Call) {x y : Value}
    (ho : i.opcode ∈ [.add, .sub, .mul, .mod, .pow, .div, .idiv, .band, .bor, .bxor, .shl, .shr])
    (hb : (rk lc.proto i.b).run m.fetched = .ok x m.fetched)
    (hc : (rk lc.proto i.c).run m.fetched = .ok y m.fetched) (hx : x.isTable = false)
    (hy : y.isTable = false) :
    Does m (arith call (arithOf i.opcode) x y).outcome (fun v m' => m' = m.write i.a v) := by
  refine Does.step m.fetched (fun call' => ?_) (fun _ _ => rfl)
  rw [step_fetched hr hi, dispatch_arith ho hb hc (arith_plain hx hy).stateless,
    arith_call call' call hx hy]
  cases (arith call (arithOf i.opcode) x y).outcome <;> rfl

/-- `unm` and `bnot` apply their operator to register B. -/
theorem does_unary (call : Call) (ho : i.opcode = .unm ∨ i.opcode = .bnot)
    (hx : (m.frame.reg i.b).isTable = false) :
    Does m (arith call (arithOf i.opcode) (m.frame.reg i.b) (m.frame.reg i.b)).outcome
      (fun v m' => m' = m.write i.a v) := by
  refine Does.step m.fetched (fun call' => ?_) (fun _ _ => rfl)
  rw [step_fetched hr hi, dispatch_unary (m := m.fetched) ho (arith_plain hx hx).stateless,
    Machine.fetched_reg, arith_call call' call hx hx]
  cases (arith call (arithOf i.opcode) (m.frame.reg i.b) (m.frame.reg i.b)).outcome <;> rfl

theorem does_len (call : Call) (ho : i.opcode = .len) (hx : (m.frame.reg i.b).isTable = false) :
    Does m (len call (m.frame.reg i.b)).outcome (fun v m' => m' = m.write i.a v) := by
  refine Does.step m.fetched (fun call' => ?_) (fun _ _ => rfl)
  rw [step_fetched hr hi, dispatch_len (m := m.fetched) ho (len_plain hx).stateless,
    Machine.fetched_reg, len_call call' call]
  cases (len call (m.frame.reg i.b)).outcome <;> rfl

/-- `concat` joins registers B to C, at least one. -/
theorem does_concat (call : Call) (ho : i.opcode = .concat) (hbc : i.b ≤ i.c)
    (hvs : ∀ r, i.b ≤ r → r ≤ i.c → (m.frame.reg r).isTable = false) :
    Does m (concat call ((List.range (i.c + 1 - i.b)).map fun r => m.frame.reg (i.b + r)).toArray).outcome
      (fun v m' => m' = m.write i.a v) := by
  have hall : ∀ v ∈ (List.range (i.c + 1 - i.b)).map fun r => m.frame.reg (i.b + r),
      v.isTable = false := by
    intro v hv
    obtain ⟨r, hr, rfl⟩ := List.mem_map.mp hv
    exact hvs _ (by omega) (by simp at hr; omega)
  have hne : (List.range (i.c + 1 - i.b)).map (fun r => m.frame.reg (i.b + r)) ≠ [] := by
    simp only [ne_eq, List.map_eq_nil_iff, List.range_eq_nil]
    omega
  refine Does.step m.fetched (fun call' => ?_) (fun _ _ => rfl)
  rw [step_fetched hr hi, dispatch_concat (m := m.fetched) ho (concat_list_plain call' hall hne).stateless]
  simp only [Machine.fetched_reg]
  rw [concat_call call' call hall]
  cases (concat call ((List.range (i.c + 1 - i.b)).map fun r => m.frame.reg (i.b + r)).toArray).outcome <;> rfl

/-- `return` with B set gives the B - 1 registers from A. -/
theorem returns_ret (ho : i.opcode = .ret) (hb : i.b ≠ 0) :
    Returns m ((List.range (i.b - 1)).map fun r => m.frame.reg (i.a + r)).toArray :=
  ⟨m.fetched, fun _ => by
    rw [step_fetched hr hi]
    simp [dispatch, ho, hb, frame]⟩

end

end VM

end LuaBytecode
