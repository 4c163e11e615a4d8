import LuaBytecode.Proofs.Compiler.Functions
/-!
# Specifications of compiler steps

`Triple P act Q` says that every successful run of the compiler step `act` from a state that
satisfies `P` ends in a state that satisfies `Q` of the value returned. A failed run has no final
state, since the compiler stops there, so a triple says nothing about failures.

The rules follow the monad: `pure`, `bind`, the reads and writes of the whole state, and the
steps on the current function's state, together with consequence. The specification of a
composite step is then assembled from those of its parts, in the order the step runs them.

`Stable I act` is the special case of an invariant: `I` before, `I` after. Its rules are those
of triples, restated so that a chain of stable steps reads as one.
-/

namespace LuaBytecode

namespace Compiler

variable {α β : Type}

/-- Every successful run of `act` from a state satisfying `P` ends in a state satisfying `Q` of
its result. -/
def Triple (P : Compiler → Prop) (act : CompileM α) (Q : α → Compiler → Prop) : Prop :=
  ∀ c c' x, P c → act.run c = .ok (x, c') → Q x c'

namespace Triple

variable {P P' : Compiler → Prop} {Q Q' : α → Compiler → Prop} {act : CompileM α}

theorem conseq (h : Triple P act Q) (hp : ∀ c, P' c → P c) (hq : ∀ x c, Q x c → Q' x c) :
    Triple P' act Q' :=
  fun c c' x hc hr => hq x c' (h c c' x (hp c hc) hr)

theorem pure (x : α) : Triple (Q x) (Pure.pure x : CompileM α) Q := by
  intro c c' y hc hr
  obtain ⟨rfl, rfl⟩ := run_pure_ok hr
  exact hc

theorem bind {f : α → CompileM β} {S : β → Compiler → Prop} (h : Triple P act Q)
    (hf : ∀ x, Triple (Q x) (f x) S) : Triple P (act >>= f) S := by
  intro c c' y hc hr
  obtain ⟨x, c₁, h₁, h₂⟩ := run_bind_ok hr
  exact hf x c₁ c' y (h c c₁ x hc h₁) h₂

theorem throw (e : Fault) : Triple P (MonadExcept.throw e : CompileM α) Q :=
  fun _ _ _ _ hr => absurd hr run_throw_ne

theorem get {Q : Compiler → Compiler → Prop} : Triple (fun c => Q c c) (get : CompileM Compiler) Q := by
  intro c c' x hc hr
  obtain ⟨rfl, rfl⟩ := run_get_ok hr
  exact hc

theorem set {Q : PUnit → Compiler → Prop} (s : Compiler) :
    Triple (fun _ => Q ⟨⟩ s) (set s : CompileM PUnit) Q := by
  intro c c' x hc hr
  cases run_set_ok hr
  exact hc

theorem lift {x : Except Fault α} :
    Triple (fun c => ∀ a, x = .ok a → Q a c) (liftM (m := Except Fault) x : CompileM α) Q := by
  intro c c' a hc hr
  obtain ⟨hx, rfl⟩ := run_lift_ok hr
  exact hc a hx

theorem onFs {f : FuncState → Except Fault (FuncState × α)} :
    Triple (fun c => ∀ fs' x, f c.fs = .ok (fs', x) → Q x { c with fs := fs' }) (onFs f) Q := by
  intro c c' x hc hr
  obtain ⟨fs', hf, rfl⟩ := run_onFs hr
  exact hc fs' x hf

theorem updateFs {Q : Unit → Compiler → Prop} {f : FuncState → Except Fault FuncState} :
    Triple (fun c => ∀ fs', f c.fs = .ok fs' → Q () { c with fs := fs' }) (updateFs f) Q := by
  intro c c' x hc hr
  obtain ⟨fs', hf, rfl⟩ := run_updateFs hr
  exact hc fs' hf

theorem modifyFs {Q : Unit → Compiler → Prop} {f : FuncState → FuncState} :
    Triple (fun c => Q () { c with fs := f c.fs }) (modifyFs f) Q := by
  intro c c' x hc hr
  rw [run_modifyFs hr]
  exact hc

theorem readFs {f : FuncState → α} : Triple (fun c => Q (f c.fs) c) (readFs f) Q := by
  intro c c' x hc hr
  obtain ⟨rfl, rfl⟩ := run_readFs hr
  exact hc

theorem map {f : α → β} {Q : β → Compiler → Prop} (h : Triple P act fun x => Q (f x)) :
    Triple P (f <$> act) Q := by
  intro c c' y hc hr
  obtain ⟨x, hx, rfl⟩ := run_map_ok hr
  exact h c c' x hc hx

end Triple

/-- `act` keeps the invariant `I`. -/
def Stable (I : Compiler → Prop) (act : CompileM α) : Prop := Triple I act fun _ => I

namespace Stable

variable {I : Compiler → Prop} {act : CompileM α}

theorem pure (x : α) : Stable I (Pure.pure x : CompileM α) := Triple.pure (Q := fun _ => I) x

theorem bind {f : α → CompileM β} (h : Stable I act) (hf : ∀ x, Stable I (f x)) :
    Stable I (act >>= f) :=
  Triple.bind h hf

theorem throw (e : Fault) : Stable I (MonadExcept.throw e : CompileM α) := Triple.throw e

theorem readFs (f : FuncState → α) : Stable I (readFs f) := Triple.readFs (Q := fun _ => I)

theorem pc : Stable I pc := readFs _

theorem map {f : α → β} (h : Stable I act) : Stable I (f <$> act) := Triple.map h

/-- A step on the current function's state keeps `I` when every change it can make does. -/
theorem onFs {f : FuncState → Except Fault (FuncState × α)}
    (h : ∀ c fs' x, I c → f c.fs = .ok (fs', x) → I { c with fs := fs' }) : Stable I (onFs f) :=
  Triple.conseq Triple.onFs (fun c hc fs' x hf => h c fs' x hc hf) fun _ _ h => h

theorem updateFs {f : FuncState → Except Fault FuncState}
    (h : ∀ c fs', I c → f c.fs = .ok fs' → I { c with fs := fs' }) : Stable I (updateFs f) :=
  Triple.conseq Triple.updateFs (fun c hc fs' hf => h c fs' hc hf) fun _ _ h => h

theorem modifyFs {f : FuncState → FuncState} (h : ∀ c, I c → I { c with fs := f c.fs }) :
    Stable I (modifyFs f) :=
  Triple.conseq Triple.modifyFs h fun _ _ h => h

/-- A guard that throws on failure keeps `I` when what follows it does. In a `do` block, what
follows the guard is a join point `k`. -/
theorem guard {b : Bool} {e : Fault} {k : Unit → CompileM α} (hk : Stable I (k ())) :
    Stable I (if b = true then k () else MonadExcept.throw e >>= k) := by
  split
  · exact hk
  · exact (Stable.throw e).bind fun _ => hk

end Stable

end Compiler

end LuaBytecode
