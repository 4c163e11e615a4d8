import LuaBytecode.Proofs.Compiler.Scopes
/-!
# Nested functions

A nested function is compiled on a state of its own: `openFunction` pushes the current function
onto the enclosing ones and starts a fresh one with its parameters as locals, and
`leaveFunction` pops it back, adds the new prototype and emits `closure` into the target.

* `openFunction_spec`: the new function starts aligned, with `self` (for a method) and the
  parameters as its locals, in order, and with no upvalues;
* `leaveFunction_exprOk`: whatever the body did, as long as it kept its frame, the enclosing
  function is as it was, up to capture marks and upvalues, plus one prototype and one
  `closure` into `a`. That `closure` reads only locals: the body's frame lets the new function's
  upvalues take registers only from the locals of the function around it.
-/

namespace LuaBytecode

namespace FuncState

variable (fs : FuncState) (p : Proto)

@[simp] theorem addProto_fst_code : (fs.addProto p).1.code = fs.code := rfl

@[simp] theorem addProto_fst_protos : (fs.addProto p).1.protos = fs.protos.push p := rfl

@[simp] theorem addProto_fst_actives : (fs.addProto p).1.actives = fs.actives := rfl

@[simp] theorem addProto_fst_slots : (fs.addProto p).1.slots = fs.slots := rfl

@[simp] theorem addProto_fst_usedRegs : (fs.addProto p).1.usedRegs = fs.usedRegs := rfl

@[simp] theorem addProto_fst_upvalues : (fs.addProto p).1.upvalues = fs.upvalues := rfl

@[simp] theorem addProto_snd : (fs.addProto p).2 = fs.protos.size := rfl

end FuncState

namespace Compiler

open Instruction

variable {c c' : Compiler} {line : Nat}

/-- Below the pushed function, the parents' locals are those of the stack before. -/
theorem outerSlots_push {c₁ : Compiler} {fs : FuncState} (he : c₁.enclosing = c.enclosing.push fs)
    {k : Nat} (hk : k ≤ c.enclosing.size) : c₁.outerSlots k = c.outerSlots k := by
  cases k with
  | zero => rfl
  | succ k =>
    simp only [Compiler.outerSlots, he, Array.getElem?_push, if_neg (Nat.ne_of_lt hk)]

/-- The parent of the pushed function has the locals of the function that was current. -/
theorem outerSlots_push_top {c₁ : Compiler} {fs : FuncState}
    (he : c₁.enclosing = c.enclosing.push fs) :
    c₁.outerSlots (c.enclosing.size + 1) = fs.slots := by
  simp [Compiler.outerSlots, he]

/-- A nested function starts with `self` and its parameters as locals, aligned, and no
upvalues; the function that was current waits on top of the enclosing ones. -/
theorem openFunction_spec {params : List String} {isVararg isMethod : Bool}
    (h : (openFunction params isVararg isMethod line).run c = .ok ((), c')) :
    c'.enclosing = c.enclosing.push c.fs ∧ c'.fs.upvalues = #[] ∧ c'.fs.Aligned ∧
      c'.fs.localNames = (if isMethod then "self" :: params else params) := by
  obtain ⟨u, c₁, h₁, h₂⟩ := run_bind_ok h
  have hc₁ : c₁ = { c with
      fs := FuncState.new c.source line isVararg
      enclosing := c.enclosing.push c.fs } := by
    cases h₁
    rfl
  subst hc₁
  obtain ⟨u, c₂, h₃, h₄⟩ := run_bind_ok h₂
  obtain ⟨fs₂, rfl, hn, -, hv, hal⟩ := addLocals_spec h₃
  rw [run_modifyFs h₄]
  -- a fresh function has no locals and takes no register
  have hal₀ : (FuncState.new c.source line isVararg).Aligned := ⟨rfl, fun i hi => absurd hi (by simp [FuncState.new])⟩
  exact ⟨rfl, hv, (hal hal₀).of_slots rfl rfl, by simpa [FuncState.localNames, FuncState.new] using hn⟩

theorem finish_upvalues {fs : FuncState} {lastLine : Nat} {p : Proto}
    (h : fs.finish lastLine = .ok p) : p.upvalues = fs.upvalues.map (·.2) := by
  unfold FuncState.finish at h
  split at h
  · cases h
  · cases h
    rfl

/-- Leaving a nested function whose compilation kept its frame: the function around it is the
one that was current, marked and with upvalues from its own parent at most, and gains the new
prototype and a `closure` into `a`, which reads only the locals the new function captured. -/
theorem leaveFunction_exprOk {c₁ c₂ : Compiler} {lastLine a : Nat}
    (he : c₁.enclosing = c.enclosing.push c.fs) (hu : c₁.fs.upvalues = #[]) (hf : Nesting c₁ c₂)
    (h : (leaveFunction lastLine a line).run c₂ = .ok ((), c')) : ExprOk a c c' := by
  have hsize : c₂.enclosing.size = c.enclosing.size + 1 := by rw [hf.size, he, Array.size_push]
  have h₂ := run_get_bind h
  split at h₂
  · exact absurd h₂ run_throw_ne
  rename_i parent hback
  -- the parent is the function that was current, marked since
  have hlt : c.enclosing.size < c₂.enclosing.size := by omega
  have hpar : c₂.enclosing[c.enclosing.size] = parent := by
    rw [Array.back?_eq_getElem?, hsize, Nat.add_sub_cancel,
      Array.getElem?_eq_getElem (by omega)] at hback
    exact Option.some.inj hback
  have hm : Marked (c.outerSlots c.enclosing.size) c.fs parent := by
    have hk := hf.enclosing c.enclosing.size (by rw [he]; simp) (by omega)
    simp only [he, Array.getElem_push_eq, outerSlots_push he (Nat.le_refl _), hpar] at hk
    exact hk
  -- every register the new function captures is a local of the parent
  have hcap : ∀ q ∈ c₂.fs.upvalues.toList, ∀ r, q.2 = .register r → r ∈ c.fs.slots := by
    have hadd := hf.upvalues
    rw [hu, he, Array.size_push, outerSlots_push_top he] at hadd
    exact AddsUpvalues.of_empty hadd
  have h₃ := run_set_bind h₂
  obtain ⟨p, c₄, h₄, h₅⟩ := run_bind_ok h₃
  obtain ⟨hfin, rfl⟩ := run_lift_ok h₄
  obtain ⟨idx, c₅, h₆, h₇⟩ := run_bind_ok h₅
  obtain ⟨fs₅, h₈, rfl⟩ := run_onFs h₆
  cases h₈
  obtain ⟨fs₆, h₉, rfl⟩ := run_updateFs h₇
  obtain ⟨hfit, rfl⟩ := FuncState.emitABx_ok h₉
  have hslots : parent.slots = c.fs.slots := hm.slots
  -- the `closure` is within `a`: its prototype is the new one, whose upvalues are captures
  have hclo : (abx .closure a parent.protos.size).Within (parent.protos.push p) c.fs.slots a :=
    abx_elim hfit fun i ho hia hib => .closure ho (Nat.le_of_eq hia.symm)
      (by rw [hib, Array.getElem?_push_size]) fun r hr => by
        rw [finish_upvalues hfin, Array.contains_iff_mem, Array.mem_map] at hr
        obtain ⟨q, hq, hqr⟩ := hr
        exact .of_mem (hcap q (Array.mem_toList_iff.mpr hq) r hqr)
  have hemit : Emits a c { c with
      fs := (parent.addProto p).1.emit' (abx .closure a parent.protos.size) line } :=
    (Emits.of_code_eq hm.code : Emits a c { c with fs := (parent.addProto p).1 }).trans
      (.push (by simpa [hm.protos, hslots] using hclo)) (by simpa using hm.slots) (by simp)
  refine ⟨⟨⟨⟨by simp [hsize], fun k hk hk' => ?_, ?_, ?_⟩, ?_⟩, ⟨hemit.old, hemit.new⟩⟩, ?_⟩
  · -- the functions further out are only marked by the nested function
    have hk₁ : k < c₁.enclosing.size := by rw [he]; simp; omega
    have hmk := hf.enclosing k hk₁ (by omega)
    simp only [he, Array.getElem_push_lt hk, outerSlots_push he (Nat.le_of_lt hk)] at hmk
    simpa [Array.getElem_pop] using hmk
  · simp [hm.protos]
  · simpa using hm.upvalues
  · simpa using hm.actives
  · simpa using hm.usedRegs

end Compiler

end LuaBytecode
