import LuaBytecode.Proofs.Machine.CallStack
import LuaBytecode.Proofs.Machine.Registers
/-!
# The calling convention

Every way of calling a function (the `CALL` and `TFORCALL` instructions, a metamethod, the
host, a protected call) goes through `VM.callValue`; `TAILCALL` resolves its callee as
`callValue` does, builds the frame of a Lua function with `VM.enterLua` in place of the running
one, and calls a library function through the same `call` with all its results wanted
(`dispatch_tailCall`). A call of the function in slot `s` with `k` arguments above it:

* enters a Lua function on the frame `Frame.Entered` describes (`enterLua_run`): its fixed
  parameters hold the first arguments, nil for the missing ones, every other register is nil,
  and the arguments beyond the fixed parameters are kept aside when the function is vararg;
* runs a library function on a frame of exactly its arguments (`callValue_builtin`);
* calls a value that is not a function through its `__call` metamethod, as a call of the
  metamethod with the value as an extra first argument (`callValue_metacall`); what a call runs,
  and on which arguments, is `Machine.CallsWith` (`resolveCallee_calls`);
* receives the results in place of the function and its arguments, adjusted to the wanted
  count (`framed_receives`).
-/

namespace LuaBytecode

namespace Frame

variable {f : Frame}

/-- The values from slot `r` up to the top, on a frame whose top lies within its slots. -/
theorem getD_valuesFrom (hf : f.Sized) (r i : Nat) :
    (f.valuesFrom r).getD i .nil = if i < f.top - r then f.reg (r + i) else .nil := by
  unfold valuesFrom reg Sized at *
  simp only [Array.getD_eq_getD_getElem?, Array.getElem?_extract, Nat.min_eq_left hf]
  split
  · rename_i hi
    rw [if_pos (by omega), Nat.min_eq_left (by omega : r ≤ f.top)]
  · rename_i hi
    rw [if_neg (by omega)]
    rfl

theorem size_valuesFrom (hf : f.Sized) (r : Nat) : (f.valuesFrom r).size = f.top - r := by
  unfold valuesFrom Sized at *
  simp only [Array.size_extract, Nat.min_eq_left hf]
  omega

/-- The `k` values a call takes off the top are the values above the function's slot. -/
theorem popN_args {s k : Nat} (htop : f.top = s + 1 + k) : (f.popN k).2 = f.valuesFrom (s + 1) := by
  rw [popN_values _ _ (by omega), valuesFrom, htop, Nat.min_eq_left (by omega)]
  congr 1
  omega

/-- The frame a Lua function of prototype `p` starts in when `callee` is called with `args`:
the first registers hold the fixed parameters (nil for the missing ones) and every other one is
nil; the arguments beyond the fixed parameters are kept aside when the function is vararg, and
no others. -/
structure Entered (f : Frame) (callee : Value) (p : Proto) (args : Array Value) : Prop where
  params : ∀ r < p.numParams, f.reg r = args.getD r .nil
  rest : ∀ r, p.numParams ≤ r → f.reg r = .nil
  varargs : f.varargs =
    if p.isVararg ∧ p.numParams < args.size then args.extract p.numParams args.size else #[]
  top : f.top = p.maxStack
  sized : f.Sized
  running : f.running = some callee
  pc : f.pc = 0
  openCells : f.openCells = #[]

/-- The frame built from the fixed parameters `fixed` and the extra arguments `V` satisfies the
convention as soon as `fixed` agrees with the arguments on the parameters and `V` is the right
part of them. -/
theorem entered_of {callee : Value} {p : Proto} {args fixed V : Array Value}
    (hfixed : ∀ r < p.numParams, fixed.getD r .nil = args.getD r .nil)
    (hV : V = if p.isVararg ∧ p.numParams < args.size then args.extract p.numParams args.size
      else #[]) :
    ((({ running := some callee, varargs := V } : Frame).pushN fixed p.numParams).resetTop
      p.maxStack).Entered callee p args := by
  have hbase : ({ running := some callee, varargs := V } : Frame).Sized := Nat.zero_le _
  obtain ⟨-, -, hreg⟩ := pushN_spec hbase fixed p.numParams
  obtain ⟨slots, top, he⟩ := pushN_eq { running := some callee, varargs := V } fixed p.numParams
  have hw : wanted (p.numParams : Int) fixed = p.numParams := by simp [wanted]
  refine ⟨fun r hr => ?_, fun r hr => ?_, ?_, rfl, sized_resetTop _ _, ?_, ?_, ?_⟩
  · rw [reg_resetTop, hreg, hw, if_pos ⟨Nat.zero_le _, by simpa using hr⟩, Nat.sub_zero]
    exact hfixed r hr
  · rw [reg_resetTop, hreg, hw, if_neg (by simp; omega)]
    rfl
  -- the remaining fields are those of the bottom frame: pushing changes only slots and top
  all_goals simp only [resetTop, he]
  exact hV

/-- A vararg function called with more arguments than it has parameters keeps the others. -/
theorem Entered.varargs_of_lt {callee : Value} {p : Proto} {args : Array Value}
    (hE : f.Entered callee p args) (hv : p.isVararg = true) (hn : p.numParams < args.size) :
    f.varargs = args.extract p.numParams args.size := by
  rw [hE.varargs, if_pos ⟨hv, hn⟩]

/-- The arguments of a call through `__call`: the called value, then the original arguments. -/
theorem valuesFrom_prepend (hf : f.Sized) {s : Nat} (hs : s < f.top) (mm v : Value) :
    ((f.setReg s mm).insertAt (s + 1) v).valuesFrom (s + 1) = #[v] ++ f.valuesFrom (s + 1) := by
  have hg : ((f.setReg s mm).insertAt (s + 1) v).Sized := sized_insertAt (sized_setReg hf s mm) _
  have htop : ((f.setReg s mm).insertAt (s + 1) v).top = f.top + 1 := top_insertAt _ _ _
  refine Array.ext ?_ fun i h₁ _ => ?_
  · rw [size_valuesFrom hg, Array.size_append, size_valuesFrom hf, htop]
    simp only [List.size_toArray, List.length_cons, List.length_nil]
    omega
  · rw [size_valuesFrom hg, htop] at h₁
    rw [Array.getElem_eq_getD .nil, Array.getElem_eq_getD .nil, getD_valuesFrom hg, htop,
      if_pos h₁, reg_insertAt (sized_setReg hf s mm) hs, top_setReg, Array.getD_eq_getD_getElem?,
      Array.getElem?_append]
    simp only [List.size_toArray, List.length_cons, List.length_nil, Nat.zero_add]
    by_cases hi : i = 0
    · subst hi
      simp
    · rw [if_neg (by omega), if_pos ⟨by omega, by omega⟩, if_neg (by omega), reg_setReg,
        if_neg (by omega), ← Array.getD_eq_getD_getElem?, getD_valuesFrom hf, if_pos (by omega)]
      congr 1
      omega

/-- Through `__call` the metamethod takes the called value's slot. -/
theorem reg_metacall (hf : f.Sized) {s : Nat} (hs : s < f.top) (mm v : Value) :
    ((f.setReg s mm).insertAt (s + 1) v).reg s = mm := by
  rw [reg_insertAt (sized_setReg hf s mm) (by rw [top_setReg]; omega), if_neg (by omega),
    if_neg (by omega), reg_setReg, if_pos rfl]

/-- The frame a library function runs on: exactly its arguments. -/
def native (callee : Value) (args : Array Value) : Frame :=
  { slots := args, top := args.size, running := some callee }

/-- The frame a call returns to holds the results, adjusted to `n` of them (all for a negative
`n`), from slot `s` up, and its top is just above them. -/
structure Receives (f : Frame) (s : Nat) (n : Int) (results : Array Value) : Prop where
  top : f.top = s + wanted n results
  reg : ∀ j < wanted n results, f.reg (s + j) = results.getD j .nil

/-- The running frame with the arguments of a call instruction on top: `B - 1` of them above
register `A`, the top just past them, or every value up to the top when `B = 0`. -/
def withArgs (f : Frame) (a b : Nat) : Frame := if b = 0 then f else f.setTop (a + b)

theorem sized_withArgs (hf : f.Sized) (a b : Nat) : (f.withArgs a b).Sized := by
  unfold withArgs
  split
  · exact hf
  · exact sized_setTop f _

end Frame

namespace Machine

/-- A call of slot `s` of frame `f` runs `callee` on `args`: a function in the slot runs on the
values above it; any other value runs through its `__call` metamethod, when that is a function,
with the value itself in front of them. -/
def CallsWith (m : Machine) (f : Frame) (s : Nat) (callee : Value) (args : Array Value) : Prop :=
  (VM.isFunction (f.reg s) = true ∧ callee = f.reg s ∧ args = f.valuesFrom (s + 1)) ∨
    (VM.isFunction (f.reg s) = false ∧ VM.isFunction (m.metamethod (f.reg s) "__call") = true ∧
      callee = m.metamethod (f.reg s) "__call" ∧ args = #[f.reg s] ++ f.valuesFrom (s + 1))

end Machine

namespace VM

open LuaBytecode.Frame

variable {m : Machine}

/-- Entering a Lua function takes its arguments and the function off the running frame, whose
top comes down to the function's slot, and gives the frame the convention describes. -/
theorem enterLua_run {id s k : Nat} {c : Closure} (hc : m.closures[id]? = some c)
    (htop : m.frame.top = s + 1 + k) (hf : m.frame.Sized) :
    ∃ F, (enterLua (.closure id) k).run m = .ok F { m with frame := m.frame.setTop s } ∧
      F.Entered (.closure id) c.proto (m.frame.valuesFrom (s + 1)) := by
  simp [enterLua, closureOf, VM.popN, VM.pop, hc, pop_popN htop hf, popN_args htop]
  generalize m.frame.valuesFrom (s + 1) = args
  -- a vararg function with more arguments than parameters keeps the first ones as parameters
  refine entered_of (fun r hr => ?_) ?_
  · split
    · rename_i hv
      simp only [Array.getD_eq_getD_getElem?, Array.getElem?_extract, Nat.min_eq_left hv.2.le,
        Nat.sub_zero, Nat.zero_add, if_pos hr]
    · rfl
  · split <;> rfl

/-- Runs `body` on the frame `F` entered above the running one, leaves it, and pushes the values
`body` gives, adjusted to `n` of them, on the frame returned to. -/
def framed (F : Frame) (body : VM (Array Value)) (n : Int) : VM Unit := do
  pushFrame F
  let results ← body
  popFrame
  modifyFrame (·.pushN results n)

/-- Whatever a balanced body does to the frames below, the frame returned to has the top it had
when `F` was entered, and receives the body's results from there up. -/
theorem framed_receives {F : Frame} {body : VM (Array Value)} {n : Int} {m' : Machine}
    (hb : Balanced body) (hf : m.frame.Sized) (h : (framed F body n).run m = .ok () m') :
    ∃ results m₁, body.run { m with frame := F, callers := m.callers.push m.frame } =
      .ok results m₁ ∧ m'.frame.Receives m.frame.top n results := by
  have hd : ¬ m.depth ≥ m.maxDepth := by
    intro hd
    simp [framed, VM.pushFrame, hd] at h
  have hb₂ := hb { m with frame := F, callers := m.callers.push m.frame }
  simp only [framed, VM.pushFrame, EStateM.run_bind, EStateM.run_get, EStateM.run_set, hd,
    if_false] at h
  cases hr : body.run { m with frame := F, callers := m.callers.push m.frame } with
  | error e m₁ =>
    rw [hr] at h
    cases h
  | ok results m₁ =>
    rw [hr] at h hb₂
    -- the caller's frame is found again at the top of the callers, kept
    obtain ⟨L₁, G, hL, -, hG⟩ := KeptAll.concat_inv (by simpa using hb₂)
    have hback : m₁.callers.back? = some G := by
      rw [← Array.getLast?_toList, hL, List.getLast?_concat]
    obtain ⟨cells, hpop⟩ := popFrame_run hback
    simp only [hpop, modifyFrame, EStateM.run_modify] at h
    cases h
    have hGs : G.Sized := by
      unfold Sized at hf ⊢
      unfold Kept at hG
      omega
    obtain ⟨-, htop, hreg⟩ := pushN_spec hGs results n
    refine ⟨results, m₁, rfl, ⟨by rw [htop, hG.1], fun j hj => ?_⟩⟩
    rw [hreg, hG.1, if_pos (by omega), Nat.add_sub_cancel_left]

/-- A function is called as it is, with its arguments. -/
theorem resolveCallee_function (slot nArgs : Nat) (h : isFunction (m.frame.reg slot)) :
    (resolveCallee slot nArgs).run m = .ok (m.frame.reg slot, nArgs) m := by
  unfold resolveCallee
  cases hv : m.frame.reg slot <;> simp_all [isFunction]

/-- Calling a Lua function: its frame is entered with the arguments placed by the convention,
and its results are pushed where the function and its arguments were. -/
theorem callValue_closure (fuel : Nat) {s k id : Nat} {n : Int} {c : Closure}
    (hreg : m.frame.reg s = .closure id) (hc : m.closures[id]? = some c)
    (htop : m.frame.top = s + 1 + k) (hf : m.frame.Sized) :
    ∃ F, F.Entered (.closure id) c.proto (m.frame.valuesFrom (s + 1)) ∧
      (callValue (fuel + 1) k n).run m =
        (framed F (runFunction fuel) n).run { m with frame := m.frame.setTop s } := by
  obtain ⟨F, hF, hE⟩ := enterLua_run hc htop hf
  have hres := resolveCallee_function (m := m) s k (by simp [hreg, isFunction])
  refine ⟨F, hE, ?_⟩
  rw [callValue]
  simp only [top, frame, EStateM.run_bind, EStateM.run_get, EStateM.run_pure, htop,
    show ¬ s + 1 + k < k + 1 by omega, show s + 1 + k - (k + 1) = s by omega, if_false, hres]
  simp only [hreg, EStateM.run_bind, hF, framed]

/-- Calling a library function: it runs on a frame of exactly its arguments, and the values it
leaves on top of that frame are pushed where the function and its arguments were. -/
theorem callValue_builtin {fuel s k : Nat} {n : Int} {b : Builtin} {id : Nat}
    (hreg : m.frame.reg s = .builtin b id) (htop : m.frame.top = s + 1 + k) (hf : m.frame.Sized) :
    (callValue (fuel + 1) k n).run m =
      (framed (native (.builtin b id) (m.frame.valuesFrom (s + 1)))
        (do popN (← b.run (callValue fuel))) n).run { m with frame := m.frame.setTop s } := by
  have hres := resolveCallee_function (m := m) s k (by simp [hreg, isFunction])
  rw [callValue, framed]
  simp only [bind_assoc]
  simp only [top, frame, EStateM.run_bind, EStateM.run_get, EStateM.run_pure, htop,
    show ¬ s + 1 + k < k + 1 by omega, show s + 1 + k - (k + 1) = s by omega, if_false, hres]
  simp only [hreg, VM.popN, VM.pop, EStateM.run_bind, EStateM.run_modifyGet, popN_args htop,
    pop_popN htop hf]
  rfl

/-- A call of a Lua function that returns gives the caller the values the function returned,
from the function's slot up. -/
theorem callValue_closure_receives {fuel s k id : Nat} {n : Int} {c : Closure} {m' : Machine}
    (hreg : m.frame.reg s = .closure id) (hc : m.closures[id]? = some c)
    (htop : m.frame.top = s + 1 + k) (hf : m.frame.Sized)
    (h : (callValue (fuel + 1) k n).run m = .ok () m') :
    ∃ F results m₁, F.Entered (.closure id) c.proto (m.frame.valuesFrom (s + 1)) ∧
      (runFunction fuel).run { m with frame := F, callers := m.callers.push (m.frame.setTop s) } =
        .ok results m₁ ∧ m'.frame.Receives s n results := by
  obtain ⟨F, hE, heq⟩ := callValue_closure fuel (n := n) hreg hc htop hf
  rw [heq] at h
  obtain ⟨results, m₁, hr, hrec⟩ := framed_receives (call_balanced fuel).2 (sized_setTop _ _) h
  exact ⟨F, results, m₁, hE, hr, hrec⟩

/-- A call of a library function that returns gives the caller the values the function left on
top of its frame. -/
theorem callValue_builtin_receives {fuel s k : Nat} {n : Int} {b : Builtin} {id : Nat}
    {m' : Machine} (hreg : m.frame.reg s = .builtin b id) (htop : m.frame.top = s + 1 + k)
    (hf : m.frame.Sized) (h : (callValue (fuel + 1) k n).run m = .ok () m') :
    ∃ results m₁, (do popN (← b.run (callValue fuel))).run { m with
        frame := native (.builtin b id) (m.frame.valuesFrom (s + 1)),
        callers := m.callers.push (m.frame.setTop s) } = .ok results m₁ ∧
      m'.frame.Receives s n results := by
  rw [callValue_builtin hreg htop hf] at h
  exact framed_receives ((run_balanced (call_balanced fuel).1 b).bind fun r => popN_balanced r)
    (sized_setTop _ _) h

/-- A value that is not a function is called through its `__call` metamethod, which takes the
value as an extra first argument. -/
theorem resolveCallee_metacall {slot nArgs : Nat} (h : isFunction (m.frame.reg slot) = false)
    (hmm : isFunction (m.metamethod (m.frame.reg slot) "__call")) :
    (resolveCallee slot nArgs).run m = .ok (m.metamethod (m.frame.reg slot) "__call", nArgs + 1)
      { m with frame := ((m.frame.setReg slot (m.metamethod (m.frame.reg slot) "__call")).insertAt
          (slot + 1) (m.frame.reg slot)) } := by
  unfold resolveCallee
  simp only [EStateM.run_bind, EStateM.run_get]
  cases hv : m.frame.reg slot <;> simp only [hv, isFunction] at h hmm ⊢ <;> try contradiction
  all_goals
    cases hmv : m.metamethod _ "__call" <;> simp only [hmv] at hmm ⊢ <;> try contradiction
    all_goals rfl

/-- Calling a value through its `__call` metamethod is calling the metamethod with the value
before the arguments. -/
theorem callValue_metacall {fuel s k : Nat} {n : Int} (htop : m.frame.top = s + 1 + k)
    (hf : m.frame.Sized) (h : isFunction (m.frame.reg s) = false)
    (hmm : isFunction (m.metamethod (m.frame.reg s) "__call")) :
    (callValue (fuel + 1) k n).run m = (callValue (fuel + 1) (k + 1) n).run
      { m with frame := ((m.frame.setReg s (m.metamethod (m.frame.reg s) "__call")).insertAt
          (s + 1) (m.frame.reg s)) } := by
  -- the metamethod stays in the called value's slot, one argument more above it
  have hreg := reg_metacall hf (show s < m.frame.top by omega)
    (m.metamethod (m.frame.reg s) "__call") (m.frame.reg s)
  have hres := resolveCallee_function s (k + 1) (by rw [hreg]; exact hmm)
    (m := { m with frame := ((m.frame.setReg s (m.metamethod (m.frame.reg s) "__call")).insertAt
          (s + 1) (m.frame.reg s)) })
  rw [callValue, callValue]
  simp only [top, frame, EStateM.run_bind, EStateM.run_get, EStateM.run_pure, htop, top_insertAt,
    top_setReg, show ¬ s + 1 + k < k + 1 by omega, show ¬ s + 1 + k + 1 < k + 1 + 1 by omega,
    show s + 1 + k - (k + 1) = s by omega, show s + 1 + k + 1 - (k + 1 + 1) = s by omega, if_false,
    resolveCallee_metacall h hmm, hres, hreg]

/-- A loop pushing the values of a list, one by one. -/
theorem forIn_push_run : ∀ (l : List Value) (m : Machine),
    (forIn l PUnit.unit fun v _ => do push v; pure (ForInStep.yield PUnit.unit) : VM PUnit).run m =
      .ok PUnit.unit { m with frame := l.foldl Frame.push m.frame }
  | [], m => rfl
  | v :: l, m => by
    rw [List.forIn_cons]
    simp only [EStateM.run_bind, push, modifyFrame, EStateM.run_modify, EStateM.run_pure]
    exact forIn_push_run l { m with frame := m.frame.push v }

/-- `vararg` with `B = 0` pushes every extra argument of the running function from register `A`
up, and the top ends just above them. -/
theorem dispatch_vararg_all (call : Call) (lc : Closure) {i : Instruction}
    (ho : i.opcode = .vararg) (hb : i.b = 0) :
    ∃ f', (dispatch call lc i).run m = .ok none { m with frame := f' } ∧
      f'.Receives i.a (-1) m.frame.varargs ∧ ∀ j < i.a, f'.reg j = m.frame.reg j := by
  refine ⟨(m.frame.resetTop i.a).pushN m.frame.varargs (-1), ?_, ?_⟩
  · simp only [dispatch, ho, hb, frame, EStateM.run_bind, EStateM.run_get, EStateM.run_pure]
    rw [if_pos (beq_self_eq_true 0)]
    simp only [EStateM.run_bind, modifyFrame, EStateM.run_modify, ← Array.forIn_toList,
      forIn_push_run, EStateM.run_pure, pushN_all]
  · obtain ⟨-, htop, hreg⟩ := pushN_spec (sized_resetTop m.frame i.a) m.frame.varargs (-1)
    have hw : wanted (-1) m.frame.varargs = m.frame.varargs.size := by simp [wanted]
    refine ⟨⟨by rw [htop, top_resetTop], fun j hj => ?_⟩, fun j hj => ?_⟩
    · rw [hreg, top_resetTop, if_pos (by omega), Nat.add_sub_cancel_left]
    · rw [hreg, top_resetTop, if_neg (by omega), reg_resetTop]

/-- `select('#', …)` pushes the number of arguments after the first. -/
theorem select_count (call : Call) (h : m.frame.get 1 = .str "#") :
    (Builtin.run call .select).run m =
      .ok 1 { m with frame := m.frame.push (.int (Int64.ofInt ((m.frame.top : Int) - 1))) } := by
  simp only [Builtin.run, VM.select, top, frame, getAt, EStateM.run_bind, EStateM.run_get,
    EStateM.run_pure, h]
  rfl

/-- A body that leaves the frames as it found them lets the frame entered for it be left. -/
theorem framed_ok {F : Frame} {body : VM (Array Value)} {n : Int} {results : Array Value}
    {m₁ : Machine} (hd : m.depth < m.maxDepth)
    (hb : body.run { m with frame := F, callers := m.callers.push m.frame } = .ok results m₁)
    (hc : m₁.callers = m.callers.push m.frame) :
    ∃ m', (framed F body n).run m = .ok () m' := by
  have hback : m₁.callers.back? = some m.frame := by
    rw [hc, Array.back?_push]
  obtain ⟨cells, hpop⟩ := popFrame_run hback
  simp only [framed, VM.pushFrame, EStateM.run_bind, EStateM.run_get, EStateM.run_set,
    show ¬ m.depth ≥ m.maxDepth by omega, if_false, hb, hpop, modifyFrame, EStateM.run_modify]
  exact ⟨_, rfl⟩

/-- A call of `select` with `'#'` as its first argument gives the number of the other
arguments, in place of the function and its arguments. -/
theorem callValue_select_count {fuel s k id : Nat} {n : Int}
    (hreg : m.frame.reg s = .builtin .select id) (hfirst : m.frame.reg (s + 1) = .str "#")
    (htop : m.frame.top = s + 1 + k) (hk : 0 < k) (hf : m.frame.Sized)
    (hd : m.depth < m.maxDepth) :
    ∃ m', (callValue (fuel + 1) k n).run m = .ok () m' ∧
      m'.frame.Receives s n #[.int (Int64.ofInt ((k : Int) - 1))] := by
  have hsize : (m.frame.valuesFrom (s + 1)).size = k := by
    rw [size_valuesFrom hf, htop]
    omega
  -- the library function's frame: its arguments, `'#'` first
  have hget : (native (.builtin .select id) (m.frame.valuesFrom (s + 1))).get 1 = .str "#" := by
    simp only [Frame.get, absIndex, native, hsize]
    rw [if_pos (show (1 : Int) ≥ 0 by decide),
      if_neg (show ¬ (decide ((1 : Int) < 1) || decide ((1 : Int) > k)) = true by simp; omega),
      show ((1 : Int) - 1).toNat = 0 from rfl, getD_valuesFrom hf, if_pos (by omega)]
    exact hfirst
  -- `select` leaves the count on top of its frame, and the call takes that one value off
  have hcount : ∀ v, (((native (.builtin .select id) (m.frame.valuesFrom (s + 1))).push v).popN 1).2 =
      #[v] := by
    intro v
    simp only [Frame.push, Frame.popN, native, lt_self_iff_false, if_false]
    refine Array.ext (by simp) fun i h₁ h₂ => ?_
    simp at h₂
    subst h₂
    simp
  have hbody := (select_count (callValue fuel) (m := { m with
    frame := native (.builtin .select id) (m.frame.valuesFrom (s + 1)),
    callers := m.callers.push (m.frame.setTop s) }) hget)
  have hrun : ∃ m₂, (do popN (← Builtin.run (callValue fuel) .select)).run { m with
      frame := native (.builtin .select id) (m.frame.valuesFrom (s + 1)),
      callers := m.callers.push (m.frame.setTop s) } = .ok #[.int (Int64.ofInt ((k : Int) - 1))] m₂ ∧
      m₂.callers = m.callers.push (m.frame.setTop s) := by
    have htop' : (native (.builtin .select id) (m.frame.valuesFrom (s + 1))).top = k := hsize
    simp only [EStateM.run_bind, hbody, VM.popN, EStateM.run_modifyGet, hcount, htop']
    exact ⟨_, rfl, rfl⟩
  obtain ⟨m₂, hrun, hcallers⟩ := hrun
  obtain ⟨m', hm'⟩ := framed_ok (n := n) (m := { m with frame := m.frame.setTop s }) hd hrun hcallers
  refine ⟨m', by rw [callValue_builtin hreg htop hf, hm'], ?_⟩
  have hb : Balanced (do popN (← Builtin.run (callValue fuel) .select)) :=
    (run_balanced (call_balanced fuel).1 _).bind fun r => popN_balanced r
  obtain ⟨results, m₃, hr, hrec⟩ := framed_receives hb (sized_setTop _ _) hm'
  rw [hrun] at hr
  cases hr
  exact hrec

/-- Resolving the value in slot `s`, `k` arguments above it, leaves the function `CallsWith`
names in the slot and its arguments above it, up to the top. -/
theorem resolveCallee_calls {s k : Nat} {callee : Value} {args : Array Value}
    (htop : m.frame.top = s + 1 + k) (hf : m.frame.Sized) (h : m.CallsWith m.frame s callee args) :
    ∃ f, (resolveCallee s k).run m = .ok (callee, args.size) { m with frame := f } ∧
      f.reg s = callee ∧ f.valuesFrom (s + 1) = args ∧ f.top = s + 1 + args.size ∧
      f.Sized := by
  rcases h with ⟨hfun, rfl, rfl⟩ | ⟨hnf, hmm, rfl, rfl⟩
  · -- a function is called as it is
    have hsize : (m.frame.valuesFrom (s + 1)).size = k := by
      rw [size_valuesFrom hf, htop]
      omega
    refine ⟨m.frame, ?_, rfl, rfl, by rw [hsize, htop], hf⟩
    rw [resolveCallee_function s k hfun, hsize]
  · -- any other value through `__call`, itself the first argument
    have hsize : (#[m.frame.reg s] ++ m.frame.valuesFrom (s + 1)).size = k + 1 := by
      rw [Array.size_append, size_valuesFrom hf, htop]
      simp only [List.size_toArray, List.length_cons, List.length_nil]
      omega
    refine ⟨_, ?_, reg_metacall hf (by omega) _ _, valuesFrom_prepend hf (by omega) _ _, ?_,
      sized_insertAt (sized_setReg hf _ _) _⟩
    · rw [resolveCallee_metacall hnf hmm, hsize]
    · rw [top_insertAt, top_setReg, htop, hsize]
      omega

/-- A call instruction's arguments are those `Frame.withArgs` puts on top. -/
theorem callArgs_run (a b : Nat) :
    (callArgs a b).run m =
      .ok ((m.frame.withArgs a b).top - (a + 1)) { m with frame := m.frame.withArgs a b } := by
  by_cases hb : b = 0
  · simp [callArgs, withArgs, hb, top, frame]
  · simp [callArgs, withArgs, hb, top, frame, modifyFrame]

/-- `tailcall` of the value in register `A`, its arguments above it (`B - 1` of them, or every
value up to the top when `B = 0`), when it calls `callee` on `args`: a Lua function replaces the
running frame by the frame the convention describes; a library function is called by `call`, with
every result kept, on the frame with it in register `A` and its arguments above. -/
theorem dispatch_tailCall (call : Call) (lc : Closure) {i : Instruction} {callee : Value}
    {args : Array Value} (ho : i.opcode = .tailCall) (ha : i.a < (m.frame.withArgs i.a i.b).top)
    (hf : m.frame.Sized) (h : m.CallsWith (m.frame.withArgs i.a i.b) i.a callee args) :
    (∀ id c, callee = .closure id → m.closures[id]? = some c →
      ∃ F cells, (dispatch call lc i).run m = .ok none { m with frame := F, cells } ∧
        F.Entered callee c.proto args) ∧
    (∀ b id, callee = .builtin b id → ∃ f, f.reg i.a = callee ∧
      f.valuesFrom (i.a + 1) = args ∧ f.top = i.a + 1 + args.size ∧ f.Sized ∧
      (dispatch call lc i).run m =
        (do call args.size (-1); pure none).run { m with frame := f }) := by
  obtain ⟨f, hres, hreg, hargs, htop, hfs⟩ := resolveCallee_calls
    (m := { m with frame := m.frame.withArgs i.a i.b })
    (k := (m.frame.withArgs i.a i.b).top - (i.a + 1)) (by dsimp only; omega)
    (sized_withArgs hf _ _) h
  refine ⟨fun id c hid hc => ?_, fun b id hid => ⟨f, hreg, hargs, htop, hfs, ?_⟩⟩
  · subst hid
    obtain ⟨F, hF, hE⟩ := enterLua_run (m := { m with frame := f }) hc htop hfs
    refine ⟨F, ?_⟩
    simp only [dispatch, ho, EStateM.run_bind, callArgs_run, hres]
    simp only [hF, closeCells, modifyFrame, EStateM.run_bind, EStateM.run_get, EStateM.run_set,
      EStateM.run_modify, EStateM.run_pure]
    exact ⟨_, rfl, hargs ▸ hE⟩
  · subst hid
    simp only [dispatch, ho, EStateM.run_bind, callArgs_run, hres]

/-- The calling convention. A call of the function in slot `s` with `k` arguments above it:
a Lua function runs on the frame `Frame.Entered` describes and a library function on a frame of
exactly its arguments, and the caller receives what either returns, adjusted to the wanted
count, from slot `s` up; a value that is not a function is called through `__call` with itself
before the arguments; `select('#', …)` gives the number of arguments after the first. `vararg`
with `B = 0` pushes exactly the running frame's extra arguments. `tailcall`, with its arguments
counted by `B` or running up to the top when `B = 0`, calls what `CallsWith` names (through
`__call` too): a Lua function enters the same frame a call does, in place of the running one,
and a library function runs on a frame of exactly its arguments and leaves all its results in
place of it and its arguments. -/
theorem calling_convention {fuel s k : Nat} {n : Int} (htop : m.frame.top = s + 1 + k)
    (hf : m.frame.Sized) :
    (∀ id c m', m.frame.reg s = .closure id → m.closures[id]? = some c →
      (callValue (fuel + 1) k n).run m = .ok () m' →
      ∃ F results m₁, F.Entered (.closure id) c.proto (m.frame.valuesFrom (s + 1)) ∧
        (runFunction fuel).run { m with frame := F, callers := m.callers.push (m.frame.setTop s) } =
          .ok results m₁ ∧ m'.frame.Receives s n results) ∧
    (∀ b id m', m.frame.reg s = .builtin b id → (callValue (fuel + 1) k n).run m = .ok () m' →
      ∃ results m₁, (do popN (← b.run (callValue fuel))).run { m with
          frame := native (.builtin b id) (m.frame.valuesFrom (s + 1)),
          callers := m.callers.push (m.frame.setTop s) } = .ok results m₁ ∧
        m'.frame.Receives s n results) ∧
    (isFunction (m.frame.reg s) = false → isFunction (m.metamethod (m.frame.reg s) "__call") →
      ∃ f, f.valuesFrom (s + 1) = #[m.frame.reg s] ++ m.frame.valuesFrom (s + 1) ∧
        f.reg s = m.metamethod (m.frame.reg s) "__call" ∧ f.top = s + 1 + (k + 1) ∧ f.Sized ∧
        (callValue (fuel + 1) k n).run m = (callValue (fuel + 1) (k + 1) n).run { m with frame := f }) ∧
    (∀ id, m.frame.reg s = .builtin .select id → m.frame.reg (s + 1) = .str "#" → 0 < k →
      m.depth < m.maxDepth → ∃ m', (callValue (fuel + 1) k n).run m = .ok () m' ∧
        m'.frame.Receives s n #[.int (Int64.ofInt ((k : Int) - 1))]) ∧
    (∀ (call : Call) lc (i : Instruction), i.opcode = .vararg → i.b = 0 →
      ∃ f', (dispatch call lc i).run m = .ok none { m with frame := f' } ∧
        f'.Receives i.a (-1) m.frame.varargs) ∧
    (∀ lc (i : Instruction) callee args, i.opcode = .tailCall →
      (i.b = 0 → i.a < m.frame.top) → m.CallsWith (m.frame.withArgs i.a i.b) i.a callee args →
      (∀ (call : Call) id c, callee = .closure id → m.closures[id]? = some c →
        ∃ F cells, (dispatch call lc i).run m = .ok none { m with frame := F, cells } ∧
          F.Entered callee c.proto args) ∧
      (∀ b id m', callee = .builtin b id →
        (dispatch (callValue (fuel + 1)) lc i).run m = .ok none m' →
        ∃ g results m₁, (do popN (← b.run (callValue fuel))).run
            { m with frame := native callee args, callers := m.callers.push g } =
            .ok results m₁ ∧
          m'.frame.Receives i.a (-1) results)) := by
  refine ⟨fun id c m' hreg hc h => callValue_closure_receives hreg hc htop hf h,
    fun b id m' hreg h => callValue_builtin_receives hreg htop hf h, fun hnf hmm => ?_,
    fun id hreg hfirst hk hd => callValue_select_count hreg hfirst htop hk hf hd,
    fun call lc i ho hb => ?_, fun lc i callee args ho ha h => ?_⟩
  · -- the metamethod takes the called value's slot, the value goes in front of the arguments
    refine ⟨_, valuesFrom_prepend hf (by omega) _ _, reg_metacall hf (by omega) _ _,
      by rw [top_insertAt, top_setReg, htop]; omega, sized_insertAt (sized_setReg hf _ _) _,
      callValue_metacall htop hf hnf hmm⟩
  · obtain ⟨f', hrun, hrec, -⟩ := dispatch_vararg_all (m := m) call lc ho hb
    exact ⟨f', hrun, hrec⟩
  · -- with `B ≠ 0` the arguments end at `A + B`, above `A`
    have ha' : i.a < (m.frame.withArgs i.a i.b).top := by
      unfold Frame.withArgs
      split
      · exact ha ‹_›
      · rw [top_setTop]
        omega
    refine ⟨fun call id c hid hc => (dispatch_tailCall call lc ho ha' hf h).1 id c hid hc,
      fun b id m' hid hrun => ?_⟩
    -- a library function is called on the frame it is resolved to, all its results wanted
    obtain ⟨f, hreg, hargs, htopf, hfs, heq⟩ :=
      (dispatch_tailCall (callValue (fuel + 1)) lc ho ha' hf h).2 b id hid
    rw [heq, EStateM.run_bind] at hrun
    cases hc : (callValue (fuel + 1) args.size (-1)).run { m with frame := f } with
    | error e m₂ =>
      rw [hc] at hrun
      cases hrun
    | ok u m₂ =>
      rw [hc] at hrun
      cases hrun
      obtain ⟨results, m₁, hr, hrec⟩ :=
        callValue_builtin_receives (m := { m with frame := f }) (hreg.trans hid) htopf hfs hc
      refine ⟨f.setTop i.a, results, m₁, ?_, hrec⟩
      rw [hid, ← hargs]
      exact hr

/-- The convention on small frames: a vararg function of one parameter called with `7, 8` gets
`7` as its parameter and `8` aside; a table whose `__call` is `type` is called as `type` with the
table first; `select('#', 5)` gives `1`; `tailcall` of such a table whose `__call` is that vararg
function, with `B = 2`, enters it with the table and `5`; and `tailcall` of `type` with its
arguments up to the top keeps its one result in place of it. -/
theorem calls_on_sample_frames :
    (∃ m', (callValue 2 2 1).run
        { frame := { slots := #[.closure 0, .int 7, .int 8], top := 3 }
          closures := #[{ proto := { code := #[Instruction.abc .ret 0 1 0]
                                     numParams := 1
                                     isVararg := true }
                          cells := #[] }] } = .ok () m' ∧ m'.frame.top = 1 ∧
      ∃ F : Frame, F.reg 0 = .int 7 ∧ F.reg 1 = .nil ∧ F.varargs = #[.int 8] ∧
        F.top = 2) ∧
    (∃ f : Frame, f.valuesFrom 1 = #[.table 0, .int 5] ∧ f.reg 0 = .builtin .type 0 ∧
      (callValue 1 1 1).run
        { frame := { slots := #[.table 0, .int 5], top := 2 }
          tables := #[{ metatable := some 1 }, { hash := #[(.str "__call", .builtin .type 0)] }] } =
      (callValue 1 2 1).run
        { frame := f
          tables := #[{ metatable := some 1 },
                      { hash := #[(.str "__call", .builtin .type 0)] }] }) ∧
    (∃ m', (callValue 1 2 1).run
        { frame := { slots := #[.builtin .select 0, .str "#", .int 5], top := 3 } } = .ok () m' ∧
      m'.frame.Receives 0 1 #[.int (Int64.ofInt 1)]) ∧
    (∃ (F : Frame) (cells : Array Cell),
      (dispatch (callValue 1) ⟨{}, #[]⟩ (Instruction.abc .tailCall 0 2 0)).run
        { frame := { slots := #[.table 0, .int 5, .int 6], top := 3 }
          tables := #[{ metatable := some 1 }, { hash := #[(.str "__call", .closure 0)] }]
          closures := #[{ proto := { code := #[Instruction.abc .ret 0 1 0]
                                     numParams := 1
                                     isVararg := true }
                          cells := #[] }] } =
        .ok none
          { frame := F
            tables := #[{ metatable := some 1 }, { hash := #[(.str "__call", .closure 0)] }]
            closures := #[{ proto := { code := #[Instruction.abc .ret 0 1 0]
                                       numParams := 1
                                       isVararg := true }
                            cells := #[] }]
            cells } ∧
      F.reg 0 = .table 0 ∧ F.varargs = #[.int 5]) ∧
    (∃ m', (dispatch (callValue 1) ⟨{}, #[]⟩ (Instruction.abc .tailCall 0 0 0)).run
        { frame := { slots := #[.builtin .type 0, .int 5], top := 2 } } = .ok none m' ∧
      ∃ g results m₁, (do popN (← Builtin.run (callValue 0) .type)).run
          { frame := native (.builtin .type 0) #[.int 5], callers := #[g] } = .ok results m₁ ∧
        m'.frame.Receives 0 (-1) results) := by
  refine ⟨?_, ?_, ?_, ?_, ?_⟩
  · obtain ⟨m', hm'⟩ : ∃ m', (callValue 2 2 1).run
        { frame := { slots := #[.closure 0, .int 7, .int 8], top := 3 }
          closures := #[{ proto := { code := #[Instruction.abc .ret 0 1 0]
                                     numParams := 1
                                     isVararg := true }
                          cells := #[] }] } = .ok () m' := ⟨_, rfl⟩
    obtain ⟨F, results, m₁, hE, -, hrec⟩ :=
      (@calling_convention _ 1 0 2 1 (by rfl) (by exact Nat.le_refl 3)).1 0 _ m' (by rfl) (by rfl)
        hm'
    refine ⟨m', hm', ?_, F, ?_, ?_, ?_, hE.top⟩
    · rw [hrec.top]
      rfl
    · rw [hE.params 0 (by decide)]
      rfl
    · exact hE.rest 1 (Nat.le_refl 1)
    · rw [hE.varargs_of_lt rfl (by decide)]
      rfl
  · -- `type` takes the table's slot, the table goes in front of `5`
    obtain ⟨f, hv, hreg, -, -, heq⟩ := (@calling_convention
      { frame := { slots := #[.table 0, .int 5], top := 2 }
        tables := #[{ metatable := some 1 }, { hash := #[(.str "__call", .builtin .type 0)] }] }
      0 0 1 1 rfl (Nat.le_refl 2)).2.2.1 rfl
      (by simp [Machine.metamethod, Machine.table, Table.getStr, Table.hashGet, Table.hashSlot?,
        Frame.reg, isFunction])
    refine ⟨f, by rw [hv]; rfl, ?_, heq⟩
    rw [hreg]
    simp [Machine.metamethod, Machine.table, Table.getStr, Table.hashGet, Table.hashSlot?,
      Frame.reg]
  · exact (@calling_convention
      { frame := { slots := #[.builtin .select 0, .str "#", .int 5], top := 3 } } 0 0 2 1 rfl
      (Nat.le_refl 3)).2.2.2.1 0 rfl rfl (by decide) (by decide)
  · -- the table is called through `__call`, two arguments marked by `B = 2`
    have ha : (Instruction.abc .tailCall 0 2 0).a = 0 := by decide
    have hb : (Instruction.abc .tailCall 0 2 0).b = 2 := by decide
    obtain ⟨hcl, -⟩ := (@calling_convention
      { frame := { slots := #[.table 0, .int 5, .int 6], top := 3 }
        tables := #[{ metatable := some 1 }, { hash := #[(.str "__call", .closure 0)] }]
        closures := #[{ proto := { code := #[Instruction.abc .ret 0 1 0]
                                   numParams := 1
                                   isVararg := true }
                        cells := #[] }] }
      0 0 2 1 rfl (Nat.le_refl 3)).2.2.2.2.2 ⟨{}, #[]⟩ (Instruction.abc .tailCall 0 2 0)
      (.closure 0) #[.table 0, .int 5] (by decide) (fun h => absurd h (by decide))
      (Or.inr ⟨rfl,
        by simp [Machine.metamethod, Machine.table, Table.getStr, Table.hashGet, Table.hashSlot?,
          Frame.withArgs, Frame.reg, Frame.setTop, Frame.slotsUpTo, ha, hb, isFunction],
        by simp [Machine.metamethod, Machine.table, Table.getStr, Table.hashGet, Table.hashSlot?,
          Frame.withArgs, Frame.reg, Frame.setTop, Frame.slotsUpTo, ha, hb], rfl⟩)
    obtain ⟨F, cells, hrun, hE⟩ := hcl (callValue 1) 0 _ rfl rfl
    refine ⟨F, cells, hrun, ?_, ?_⟩
    · rw [hE.params 0 (by decide)]
      rfl
    · rw [hE.varargs_of_lt rfl (by decide)]
      rfl
  · -- `type` with its arguments up to the top
    obtain ⟨m', hm'⟩ : ∃ m',
        (dispatch (callValue 1) ⟨{}, #[]⟩ (Instruction.abc .tailCall 0 0 0)).run
          { frame := { slots := #[.builtin .type 0, .int 5], top := 2 } } = .ok none m' :=
      ⟨_, rfl⟩
    obtain ⟨-, hbt⟩ := (@calling_convention
      { frame := { slots := #[.builtin .type 0, .int 5], top := 2 } } 0 0 1 1 rfl
      (Nat.le_refl 2)).2.2.2.2.2 ⟨{}, #[]⟩ (Instruction.abc .tailCall 0 0 0)
      (.builtin .type 0) #[.int 5] (by decide) (fun _ => by decide) (Or.inl ⟨rfl, rfl, rfl⟩)
    exact ⟨m', hm', hbt .type 0 m' rfl hm'⟩

end VM

end LuaBytecode
