import LuaBytecode.Proofs.Machine.FrameInvariant
/-!
# Calls from the host's frame

What `execute` and a protected call leave, seen from the frame they start on.

* `execute_restores`: a chunk executed from a frame whose top lies within its slots returns, with
  its results or a failure, to the frames in use and the top there were;
* `callValue_from_host`: a call of the function in slot `s`, made on a frame that runs no Lua
  function, keeps the registers below `s`: on success the frames in use are those there were and
  the results lie from `s` up (`Returns`); on failure the frame is still in use at its depth
  (`Stays`);
* `protectedCall_from_host`: hence a protected call made on such a frame does what `Protected`
  says: the frames in use and the registers below the function's slot as they were, and above
  it the results of the call, or the error object of its failure.
-/

namespace LuaBytecode

namespace Frame

variable {f : Frame} {s : Nat}

theorem reg_setTop_below (hs : s ≤ f.top) {r : Nat} (hr : r < s) :
    (f.setTop s).reg r = f.reg r := by
  rw [reg_setTop, if_neg (by omega)]

/-- The frame a call returns to: the top moved down to the called function's slot `s`, and the
results pushed from there. -/
theorem returned (hs : s ≤ f.top) (results : Array Value) (n : Int) :
    ((f.setTop s).pushN results n).Receives s n results ∧
      ∀ r < s, ((f.setTop s).pushN results n).reg r = f.reg r := by
  obtain ⟨-, htop, hreg⟩ := pushN_spec (sized_setTop f s) results n
  refine ⟨⟨by rw [htop, top_setTop], fun j hj => ?_⟩, fun r hr => ?_⟩
  · rw [hreg, top_setTop, if_pos (by omega), Nat.add_sub_cancel_left]
  · rw [hreg, top_setTop, if_neg (by omega), reg_setTop_below hs hr]

end Frame

namespace Machine

/-- `m'` has returned to the running frame of `m` after a call of the function in slot `s`: the
frames in use are those of `m`, the registers below `s` are kept, and the results lie from `s`
up, adjusted to `n` of them. -/
def Returns (m : Machine) (s : Nat) (n : Int) (m' : Machine) : Prop :=
  m'.callers.size = m.callers.size ∧ (∀ r < s, m'.frame.reg r = m.frame.reg r) ∧
    ∃ results, m'.frame.Receives s n results

/-- After a failed call of the function in slot `s`, the running frame of `m` is still in use in
`m'` at its depth, with the registers below `s` as they were. -/
def Stays (m : Machine) (s : Nat) (m' : Machine) : Prop :=
  m.callers.size ≤ m'.callers.size ∧ ∃ f, m'.frameAt? m.callers.size = some f ∧
    s ≤ f.top ∧ ∀ r < s, f.reg r = m.frame.reg r

theorem Stays.refl (m : Machine) {s : Nat} (h : s ≤ m.frame.top) : Stays m s m :=
  ⟨Nat.le_refl _, m.frame, by simp [frameAt?], h, fun _ _ => rfl⟩

variable {m m' : Machine} {s : Nat} {n : Int} {f : Frame}

/-- A call from a frame with the registers below `s` of `m` returns as from `m`. -/
theorem Returns.below (h : Returns { m with frame := f } s n m')
    (hf : ∀ r < s, f.reg r = m.frame.reg r) : Returns m s n m' :=
  ⟨h.1, fun r hr => (h.2.1 r hr).trans (hf r hr), h.2.2⟩

theorem Stays.below (h : Stays { m with frame := f } s m')
    (hf : ∀ r < s, f.reg r = m.frame.reg r) : Stays m s m' := by
  obtain ⟨hle, g, hg, hs, hreg⟩ := h
  exact ⟨hle, g, hg, hs, fun r hr => (hreg r hr).trans (hf r hr)⟩

end Machine

namespace VM

open Machine LuaBytecode.Frame

variable {d : Nat} {m : Machine}

/-- A host request has at least one step of budget. -/
theorem budget_succ : budget = (budget - 1) + 1 := rfl

/-! ## Executing a chunk -/

/-- A loop whose every step only adds cells and goes on ends, having only added cells. -/
theorem forIn_cells {β γ : Type} {f : γ → β → VM (ForInStep β)}
    (hf : ∀ a b m, ∃ b' cells, (f a b).run m = .ok (.yield b') { m with cells }) :
    ∀ (l : List γ) (b : β) (m : Machine) r, (ForIn.forIn l b f).run m = r →
      ∃ b' cells, r = .ok b' { m with cells }
  | [], b, m, _, h => ⟨b, m.cells, h.symm⟩
  | a :: l, b, m, r, h => by
    obtain ⟨b₁, cells₁, h₁⟩ := hf a b m
    rw [List.forIn_cons, EStateM.run_bind, h₁] at h
    obtain ⟨b₂, cells₂, h₂⟩ := forIn_cells hf l b₁ { m with cells := cells₁ } r h
    exact ⟨b₂, cells₂, h₂⟩

/-- Loading a chunk pushes a new closure of it on the running frame and changes no frame below. -/
theorem load_run (m : Machine) (p : Proto) :
    ∃ id c m₁, (load p).run m = .ok () m₁ ∧ m₁.callers = m.callers ∧
      m₁.frame = m.frame.push (.closure id) ∧ m₁.closures[id]? = some c := by
  simp only [load, EStateM.run_bind, EStateM.run_get]
  -- the loop only adds the closure's cells
  split
  · rename_i cs s heq
    obtain ⟨b', cells, h⟩ := forIn_cells (by exact fun _ _ _ => ⟨_, _, rfl⟩) _ _ _ _ heq
    cases h
    exact ⟨_, { proto := p, cells := cs }, _, rfl, rfl, rfl, by simp⟩
  · rename_i e s heq
    obtain ⟨b', cells, h⟩ := forIn_cells (by exact fun _ _ _ => ⟨_, _, rfl⟩) _ _ _ _ heq
    cases h

/-- A chunk executed from a frame whose top lies within its slots returns, with its results or a
failure, to the frames in use and the top there were. -/
theorem execute_restores (hf : m.frame.Sized) (p : Proto) :
    (final ((execute p).run m)).depth = m.depth ∧
      (final ((execute p).run m)).frame.top = m.frame.top := by
  obtain ⟨id, c, m₁, hload, hcallers, hframe, hc⟩ := load_run m p
  have hs₁ : m₁.frame.Sized := hframe ▸ sized_push hf
  have htop₁ : m₁.frame.top = m.frame.top + 1 + 0 := by rw [hframe, top_push]
  have hreg : m₁.frame.reg m.frame.top = .closure id := by rw [hframe, reg_push hf, if_pos rfl]
  have hb := (call_balanced budget).1 0 (-1) m₁
  simp only [execute, top, frame, EStateM.run_bind, EStateM.run_get, EStateM.run_pure, hload]
  rw [tryCatch_run]
  simp only [EStateM.run_bind]
  cases hr : (callValue budget 0 (-1)).run m₁ with
  | ok u m₂ =>
    rw [hr] at hb
    have hr' := hr
    rw [budget_succ] at hr'
    -- the chunk's results lie from its slot up, and are taken off again
    obtain ⟨-, results, -, -, -, hrec⟩ := callValue_closure_receives hreg hc htop₁ hs₁ hr'
    have hlen : m₂.callers.size = m.callers.size := by
      simpa [hcallers] using hb.length_eq.symm
    simp only [EStateM.run_get, EStateM.run_pure, popN, EStateM.run_modifyGet]
    refine ⟨by simp only [final_ok, Machine.depth, hlen], ?_⟩
    simp only [final_ok, Frame.popN, hrec.top]
    omega
  | error e m₂ =>
    rw [hr] at hb
    -- the frames the call entered are left, and the top is put back
    obtain ⟨L₀, hk₀, hp⟩ := hb
    have hd : m.callers.size ≤ m₂.callers.size := by
      have := hp.length_le
      rw [← hk₀.length_eq] at this
      simpa [hcallers] using this
    obtain ⟨m₃, hu, ht⟩ := unwindTo_run hd
    simp only [hu, modifyFrame, EStateM.run_modify, run_throw, final_error]
    refine ⟨?_, top_setTop _ _⟩
    have := congrArg List.length ht
    simp only [Array.length_toList, List.length_take] at this
    simp only [Machine.depth]
    omega

/-! ## Calls from a frame that runs no Lua function -/


/-- A frame entered and left above a frame that runs no Lua function: the frame returned to is
that frame with the body's results pushed, and a failure leaves that frame in use at its
depth. -/
theorem framed_from_host {F : Frame} {body : VM (Array Value)} {n : Int} (hg : Guards body)
    (hb : Balanced body) (hF : F.Sized) (hs : m.Sound d) (hl : m.frame.runsLua = false) :
    (∀ m', (framed F body n).run m = .ok () m' →
      m'.callers.size = m.callers.size ∧ ∃ results, m'.frame = m.frame.pushN results n) ∧
    (∀ e m', (framed F body n).run m = .error e m' →
      m.callers.size ≤ m'.callers.size ∧ m'.frameAt? m.callers.size = some m.frame) := by
  by_cases hd : m.depth ≥ m.maxDepth
  · -- no frame is entered: the call fails with the machine as it was
    have hr : (framed F body n).run m = .error .stackOverflow m := by
      simp only [framed, VM.pushFrame, EStateM.run_bind, EStateM.run_get, hd, if_true, run_throw]
    refine ⟨fun m' h => (by rw [hr] at h; cases h), fun e m' h => ?_⟩
    rw [hr] at h
    cases h
    exact ⟨Nat.le_refl _, by simp [frameAt?]⟩
  · have hgb := hg d _ (hs.push hd hF) trivial
    have hbb := hb { m with frame := F, callers := m.callers.push m.frame }
    -- the frame below the one entered runs no Lua function: it is found again as it was
    have hkeep : ∀ m₂ : Machine, Frozen (m.callers.push m.frame).toList m₂ →
        m₂.callers[m.callers.size]? = some m.frame :=
      fun m₂ hz => hz _ _ (by simp) hl
    simp only [framed, VM.pushFrame, EStateM.run_bind, EStateM.run_get, EStateM.run_set, hd,
      if_false]
    cases hr : body.run { m with frame := F, callers := m.callers.push m.frame } with
    | ok results m₂ =>
      rw [hr] at hgb hbb
      have hsize : m₂.callers.size = m.callers.size + 1 := by simpa using hbb.length_eq.symm
      have hback : m₂.callers.back? = some m.frame := by
        rw [Array.back?_eq_getElem?, hsize, Nat.add_sub_cancel]
        exact hkeep m₂ hgb.2
      obtain ⟨cells, hpop⟩ := popFrame_run hback
      simp only [hpop, modifyFrame, EStateM.run_modify]
      refine ⟨fun m' h => ?_, fun e m' h => by cases h⟩
      cases h
      exact ⟨by simp [hsize], results, rfl⟩
    | error e m₂ =>
      rw [hr] at hgb
      refine ⟨fun m' h => (by cases h), fun e' m' h => ?_⟩
      cases h
      have h₂ := hkeep m₂ hgb.2
      have hlt := (Array.getElem?_eq_some_iff.mp h₂).1
      refine ⟨by omega, ?_⟩
      unfold frameAt?
      rw [if_neg (by simp only [beq_iff_eq]; omega)]
      exact h₂

/-- A call of a closure whose function object is gone fails at once, with the machine as it
was. -/
theorem callValue_dangling (fuel : Nat) {s k id : Nat} {n : Int}
    (hreg : m.frame.reg s = .closure id) (hc : m.closures[id]? = none)
    (htop : m.frame.top = s + 1 + k) :
    (callValue (fuel + 1) k n).run m = .error (.internal "dangling closure") m := by
  have hres := resolveCallee_function (m := m) s k (by simp [hreg, isFunction])
  rw [callValue]
  simp only [top, frame, EStateM.run_bind, EStateM.run_get, EStateM.run_pure, htop,
    show ¬ s + 1 + k < k + 1 by omega, show s + 1 + k - (k + 1) = s by omega, if_false, hres]
  simp only [hreg, enterLua, closureOf, EStateM.run_bind, EStateM.run_get, hc, run_throw]

/-- A value that is no function and has no `__call` function is not called: the call fails at
once, with the machine as it was. -/
theorem resolveCallee_notCallable {slot nArgs : Nat} (h : isFunction (m.frame.reg slot) = false)
    (hmm : isFunction (m.metamethod (m.frame.reg slot) "__call") = false) :
    (resolveCallee slot nArgs).run m = .error (.notCallable (m.frame.reg slot).typeName) m := by
  unfold resolveCallee
  simp only [EStateM.run_bind, EStateM.run_get]
  cases hv : m.frame.reg slot <;> simp only [hv, isFunction] at h hmm ⊢ <;> try contradiction
  all_goals
    cases hmv : m.metamethod _ "__call" <;> simp only [hmv] at hmm ⊢ <;> try contradiction
    all_goals rfl

theorem callValue_notCallable {fuel s k : Nat} {n : Int} (htop : m.frame.top = s + 1 + k)
    (h : isFunction (m.frame.reg s) = false)
    (hmm : isFunction (m.metamethod (m.frame.reg s) "__call") = false) :
    (callValue (fuel + 1) k n).run m = .error (.notCallable (m.frame.reg s).typeName) m := by
  rw [callValue]
  simp only [top, frame, EStateM.run_bind, EStateM.run_get, EStateM.run_pure, htop,
    show ¬ s + 1 + k < k + 1 by omega, show s + 1 + k - (k + 1) = s by omega, if_false,
    resolveCallee_notCallable h hmm]

/-- A call of the function in slot `s`, made on a frame that runs no Lua function, returns to
that frame, or fails leaving it in use; either way the registers below `s` are kept. -/
theorem callFunction_from_host (fuel : Nat) {s k : Nat} {n : Int} (hs : m.Sound d)
    (hl : m.frame.runsLua = false) (htop : m.frame.top = s + 1 + k)
    (hfun : isFunction (m.frame.reg s)) :
    (∀ m', (callValue (fuel + 1) k n).run m = .ok () m' → m.Returns s n m') ∧
    (∀ e m', (callValue (fuel + 1) k n).run m = .error e m' → m.Stays s m') := by
  -- the frame returned to is the running one with the function and its arguments taken off
  have hret : ∀ (F : Frame) (body : VM (Array Value)), Guards body → Balanced body →
      F.Sized →
      (callValue (fuel + 1) k n).run m =
        (framed F body n).run { m with frame := m.frame.setTop s } →
      (∀ m', (callValue (fuel + 1) k n).run m = .ok () m' → m.Returns s n m') ∧
      (∀ e m', (callValue (fuel + 1) k n).run m = .error e m' → m.Stays s m') := by
    intro F body hg hb hF heq
    obtain ⟨hok, herr⟩ := framed_from_host hg hb hF (hs.withFrame (Frame.Steady.setTop s)) hl
    refine ⟨fun m' h => ?_, fun e m' h => ?_⟩
    · obtain ⟨hsize, results, hframe⟩ := hok m' (heq ▸ h)
      obtain ⟨hrec, hbelow⟩ := Frame.returned (f := m.frame) (s := s) (by omega) results n
      exact ⟨hsize, fun r hr => hframe ▸ hbelow r hr, results, hframe ▸ hrec⟩
    · obtain ⟨hle, hf⟩ := herr e m' (heq ▸ h)
      exact ⟨hle, _, hf, Nat.le_of_eq (top_setTop _ _).symm,
        fun r hr => Frame.reg_setTop_below (f := m.frame) (s := s) (by omega) hr⟩
  cases hv : m.frame.reg s with
  | closure id =>
    cases hc : m.closures[id]? with
    | none =>
      have hr := callValue_dangling fuel (n := n) hv hc htop
      refine ⟨fun m' h => (by rw [hr] at h; cases h), fun e m' h => ?_⟩
      rw [hr] at h
      cases h
      exact Stays.refl m (by omega)
    | some c =>
      obtain ⟨F, hE, heq⟩ := callValue_closure fuel (n := n) hv hc htop hs.running
      exact hret F _ (call_guards fuel).2 (call_balanced fuel).2 hE.sized heq
  | builtin b id =>
    exact hret _ _ ((run_guards (call_guards fuel).1 (call_balanced fuel).1 b).bind fun r =>
        popN_guards r) ((run_balanced (call_balanced fuel).1 b).bind fun r => popN_balanced r)
      (Nat.le_refl _) (callValue_builtin hv htop hs.running)
  | _ => simp [hv, isFunction] at hfun

/-- A call of the value in slot `s`, made on a frame that runs no Lua function, returns to that
frame, or fails leaving it in use; either way the registers below `s` are kept. -/
theorem callValue_from_host (fuel : Nat) {s k : Nat} {n : Int} (hs : m.Sound d)
    (hl : m.frame.runsLua = false) (htop : m.frame.top = s + 1 + k) :
    (∀ m', (callValue (fuel + 1) k n).run m = .ok () m' → m.Returns s n m') ∧
    (∀ e m', (callValue (fuel + 1) k n).run m = .error e m' → m.Stays s m') := by
  by_cases hfun : isFunction (m.frame.reg s)
  · exact callFunction_from_host fuel hs hl htop hfun
  by_cases hmm : isFunction (m.metamethod (m.frame.reg s) "__call")
  · -- the `__call` metamethod is called, with the value before the arguments
    rw [callValue_metacall htop hs.running (by simpa using hfun) hmm]
    generalize m.metamethod (m.frame.reg s) "__call" = mm at hmm ⊢
    have hsized := sized_setReg hs.running s mm
    have hkeep : ∀ r < s, ((m.frame.setReg s mm).insertAt (s + 1) (m.frame.reg s)).reg r =
        m.frame.reg r := by
      intro r hr
      rw [reg_insertAt hsized (by rw [top_setReg]; omega), if_neg (by omega), if_neg (by omega),
        reg_setReg, if_neg (by omega)]
    have hreg : ((m.frame.setReg s mm).insertAt (s + 1) (m.frame.reg s)).reg s = mm := by
      rw [reg_insertAt hsized (by rw [top_setReg]; omega), if_neg (by omega), if_neg (by omega),
        reg_setReg, if_pos rfl]
    generalize hf : (m.frame.setReg s mm).insertAt (s + 1) (m.frame.reg s) = f at hkeep hreg
    have hs₁ : ({ m with frame := f } : Machine).Sound d :=
      hf ▸ hs.withFrame (Frame.Steady.metacall s mm (m.frame.reg s))
    have hl₁ : f.runsLua = false :=
      hf ▸ (Frame.runsLua_congr ((Frame.Steady.metacall s mm (m.frame.reg s)) m.frame).1).trans hl
    have htop₁ : f.top = s + 1 + (k + 1) := by
      rw [← hf, top_insertAt, top_setReg, htop]
      omega
    obtain ⟨hok, herr⟩ := callFunction_from_host fuel (m := { m with frame := f }) (n := n)
      hs₁ hl₁ htop₁
      (by rw [show ({ m with frame := f } : Machine).frame = f from rfl, hreg]; exact hmm)
    exact ⟨fun m' h => (hok m' h).below hkeep, fun e m' h => (herr e m' h).below hkeep⟩
  · -- anything else is not callable
    rw [callValue_notCallable htop (by simpa using hfun) (by simpa using hmm)]
    exact ⟨fun m' h => (by cases h), fun e m' h => (by cases h; exact Stays.refl m (by omega))⟩

/-! ## Protected calls -/

/-- What a protected call of the function below `nArgs` arguments on the running frame of `m`
ends in, calls made by `call`: the frames in use and the registers below the function's slot `s`
as they were, and above them the results of the call, with `true`; or, after the call fails with
`err`, the error object of `err` alone, with `false` (`msgh = 0`), or nothing, the object raised
(`msgh < 0`). -/
def Protected (call : Call) (m : Machine) (nArgs : Nat) (nResults msgh : Int)
    (r : EStateM.Result Fault Machine Bool) : Prop :=
  let s := m.frame.top - (nArgs + 1)
  match r with
  | .ok true m' =>
    m'.depth = m.depth ∧ (∀ r < s, m'.frame.reg r = m.frame.reg r) ∧
      (call nArgs nResults).run m = .ok () m' ∧ ∃ results, m'.frame.Receives s nResults results
  | .ok false m' =>
    msgh = 0 ∧ m'.depth = m.depth ∧ (∀ r < s, m'.frame.reg r = m.frame.reg r) ∧
      m'.frame.top = s + 1 ∧ ∃ err m₁, (call nArgs nResults).run m = .error err m₁ ∧
        (errorObject err).run m' = .ok (m'.frame.reg s) m'
  | .error e m' =>
    msgh < 0 ∧ m'.depth = m.depth ∧ (∀ r < s, m'.frame.reg r = m.frame.reg r) ∧
      m'.frame.top = s ∧ ∃ err m₁ obj, (call nArgs nResults).run m = .error err m₁ ∧
        e = .raised obj ∧ (errorObject err).run m' = .ok obj m'

/-- The error object reads only the tables: it is the same whatever the running frame. -/
theorem errorObject_run (err : Fault) (m : Machine) :
    ∃ v, (errorObject err).run m = .ok v m ∧
      ∀ f : Frame, (errorObject err).run { m with frame := f } = .ok v { m with frame := f } := by
  unfold errorObject
  split <;> exact ⟨_, rfl, fun _ => rfl⟩

/-- A protected call made on a frame that runs no Lua function does what `Protected` says. -/
theorem protectedCall_from_host (fuel : Nat) {nArgs : Nat} {nResults msgh : Int} (hs : m.Sound d)
    (hl : m.frame.runsLua = false) (hk : nArgs < m.frame.top) (hmsgh : msgh ≤ 0) :
    Protected (callValue (fuel + 1)) m nArgs nResults msgh
      ((protectedCall (callValue (fuel + 1)) nArgs nResults msgh).run m) := by
  obtain ⟨s, htop⟩ : ∃ s, m.frame.top = s + 1 + nArgs :=
    ⟨m.frame.top - (nArgs + 1), by omega⟩
  have hslot : m.frame.top - (nArgs + 1) = s := by omega
  obtain ⟨hok, herr⟩ := callValue_from_host fuel (n := nResults) hs hl htop
  have hg := (call_guards (fuel + 1)).1 nArgs nResults d m hs trivial
  unfold protectedCall
  simp only [show ¬ msgh > 0 by omega, if_false, EStateM.run_bind, EStateM.run_get, top, frame,
    EStateM.run_pure, hslot]
  rw [tryCatch_run]
  simp only [EStateM.run_bind]
  cases hr : (callValue (fuel + 1) nArgs nResults).run m with
  | ok u m' =>
    obtain ⟨hsize, hbelow, results, hrec⟩ := hok m' hr
    simp only [EStateM.run_pure, Protected, hslot]
    exact ⟨by simp only [Machine.depth, hsize], hbelow, hr, results, hrec⟩
  | error err m₁ =>
    have hs₁ : m₁.Sound d := by
      rw [hr] at hg
      exact hg.1
    obtain ⟨hle, f, hf, hft, hbelow⟩ := herr err m₁ hr
    -- the frame left running is the one the call was made on
    obtain ⟨m₂, hu, hsize, hframe⟩ := unwindTo_lands hs₁ hle hf
    have hkeep : ∀ r < s, (f.setTop s).reg r = m.frame.reg r :=
      fun r hr => (Frame.reg_setTop_below hft hr).trans (hbelow r hr)
    obtain ⟨obj, hobj, hobj'⟩ := errorObject_run err { m₂ with frame := m₂.frame.setTop s }
    simp only [hu, modifyFrame, EStateM.run_modify, hobj]
    split
    · -- a negative handler: the error object is raised, and nothing is left above the slot
      rename_i hneg
      simp only [Protected, hslot]
      refine ⟨hneg, by simp only [Machine.depth, hsize], fun r hr => ?_, by rw [hframe]; rfl,
        err, m₁, obj, hr, rfl, hobj⟩
      rw [hframe]
      exact hkeep r hr
    · -- a zero handler: the error object alone is left above the slot
      rename_i hneg
      have hsz : (f.setTop s).Sized := sized_setTop f s
      simp only [push, modifyFrame, Protected, hslot, hframe]
      refine ⟨by omega, by simp only [Machine.depth, hsize], fun r hr => ?_,
        by rw [top_push]; rfl, err, m₁, hr, ?_⟩
      · rw [reg_push hsz, if_neg (by rw [top_setTop]; omega)]
        exact hkeep r hr
      · rw [reg_push hsz, if_pos (top_setTop f s).symm]
        exact hobj' _

end VM

end LuaBytecode
