import LuaBytecode.Proofs.Compiler.Frame
/-!
# Resolving names

Looking a name up never emits code and never takes a register, but it may change state: an
upvalue is registered in every function between the one being written and the one that
declares the local (`Compiler.capture`), the local is marked captured, and a global's name or a
literal is interned in the constant pool. The statements here say that all this is `Quiet`
(`resolveUpvalue_quiet`, `classify_classifies`), and that what a lookup yields can be read
without evaluating anything: a constant operand reads no register, and a local's operand is the
register of an active local.

The key fact is `capture_spec`: a function at nesting level `level` reaches a name through its
parent, and when that is a register, it is the register of one of the parent's locals.
-/

namespace LuaBytecode

namespace FuncState

variable {fs fs' : FuncState}

theorem slotOf_mem {name : String} {slot : Nat} (h : fs.slotOf name = some slot) :
    slot ∈ fs.slots := by
  simp only [slotOf, Option.map_eq_some_iff] at h
  obtain ⟨l, hl, rfl⟩ := h
  have hmem : l ∈ fs.actives.toList := List.mem_reverse.mp (List.mem_of_find?_eq_some hl)
  exact slot_mem_slots (Array.mem_toList_iff.mp hmem)

/-- The innermost local of a name does not depend on capture marks. -/
theorem slotOf_of_unmark {fs fs' : FuncState}
    (h : fs'.actives.map ActiveLocal.unmark = fs.actives.map ActiveLocal.unmark) :
    fs'.slotOf = fs.slotOf := by
  have key : ∀ g : FuncState, g.slotOf = fun name =>
      ((g.actives.map ActiveLocal.unmark).toList.reverse.find? (·.name == name)).map (·.slot) := by
    intro g
    funext name
    simp only [FuncState.slotOf, Array.toList_map, ← List.map_reverse, List.find?_map,
      Option.map_map]
    rfl
  rw [key fs', key fs, h]

/-- Marking a local captured is a `Marked` change, and the local's register is one of the
function's locals'. -/
theorem captureLocal_spec (ps : List Nat) {name : String} {slot : Nat}
    (h : fs.captureLocal name = some (fs', slot)) : Marked ps fs fs' ∧ slot ∈ fs.slots := by
  unfold captureLocal at h
  split at h
  · cases h
  · rename_i j hj
    cases h
    have hjlt := (List.findIdx?_eq_some_iff_findIdx_eq.mp hj).1
    simp only [List.length_reverse, Array.length_toList] at hjlt
    have hi : fs.actives.size - 1 - j < fs.actives.size := by omega
    have hget : fs.actives.getD (fs.actives.size - 1 - j) default = fs.actives[fs.actives.size - 1 - j] := by
      simp [Array.getD_eq_getD_getElem?, Array.getElem?_eq_getElem hi]
    refine ⟨⟨rfl, rfl, rfl, rfl, ?_, .refl _ _⟩, ?_⟩
    · apply Array.ext
      · simp
      · intro k hk₁ hk₂
        simp only [Array.getElem_map, Array.set!_eq_setIfInBounds]
        rw [Array.getElem_setIfInBounds (by simpa using hk₂)]
        by_cases hkj : fs.actives.size - 1 - j = k
        · subst hkj
          rw [if_pos rfl, ActiveLocal.unmark_capture, hget]
        · rw [if_neg hkj]
    · rw [hget]
      exact slot_mem_slots (Array.getElem_mem hi)

theorem addUpvalue_ok {name : String} {src : UpvalSource} {line idx : Nat}
    (h : fs.addUpvalue name src line = .ok (fs', idx)) :
    fs' = { fs with upvalues := fs.upvalues.push (name, src) } ∧ idx = fs.upvalues.size := by
  unfold addUpvalue at h
  split at h
  · cases h
  · cases h
    exact ⟨rfl, rfl⟩

end FuncState

namespace Compiler

variable {α β : Type} {c c' : Compiler}

theorem run_get_ok {x : Compiler} (h : (get : CompileM Compiler).run c = .ok (x, c')) :
    x = c ∧ c = c' := by
  cases h
  exact ⟨rfl, rfl⟩

theorem run_set_ok {s : Compiler} {u : PUnit} (h : (set s : CompileM PUnit).run c = .ok (u, c')) :
    c' = s := by
  cases h
  rfl

theorem run_get_bind {f : Compiler → CompileM α} {a : α}
    (h : (get >>= f).run c = .ok (a, c')) : (f c).run c = .ok (a, c') := by
  obtain ⟨x, c₁, hget, h'⟩ := run_bind_ok h
  obtain ⟨rfl, rfl⟩ := run_get_ok hget
  exact h'

theorem run_set_bind {s : Compiler} {f : PUnit → CompileM α} {a : α}
    (h : (set s >>= f).run c = .ok (a, c')) : (f ⟨⟩).run s = .ok (a, c') := by
  obtain ⟨u, c₁, hset, h'⟩ := run_bind_ok h
  cases run_set_ok hset
  exact h'

theorem run_lift_ok {x : Except Fault α} {a : α}
    (h : (liftM (m := Except Fault) x : CompileM α).run c = .ok (a, c')) : x = .ok a ∧ c = c' := by
  cases hx : x with
  | error e => rw [hx] at h; cases h
  | ok b => rw [hx] at h; cases h; exact ⟨rfl, rfl⟩

theorem run_map_ok {f : α → β} {x : CompileM α} {b : β} (h : (f <$> x).run c = .ok (b, c')) :
    ∃ a, x.run c = .ok (a, c') ∧ b = f a := by
  simp only [StateT.run_map] at h
  cases hx : x.run c with
  | error e => rw [hx] at h; cases h
  | ok p => rw [hx] at h; cases h; exact ⟨p.1, rfl, rfl⟩

/-! ## Upvalues -/

/-- Capturing `name` for the function at nesting level `level` marks and extends only
enclosing functions, and a register it yields is a register of a local of the parent at
`level - 1`. -/
theorem capture_spec {name : String} {line : Nat} :
    ∀ {level : Nat} {c c' : Compiler} {src : Option UpvalSource}, level ≤ c.enclosing.size →
      (capture name line level).run c = .ok (src, c') →
      Nesting c c' ∧ c'.fs = c.fs ∧ ∀ r, src = some (.register r) → r ∈ c.outerSlots level
  | 0, c, c', src, _, h => by
    obtain ⟨rfl, rfl⟩ := run_pure_ok h
    exact ⟨.refl _, rfl, by simp⟩
  | level + 1, c, c', src, hl, h => by
    have hlt : level < c.enclosing.size := hl
    have hparent : c.enclosing.getD level default = c.enclosing[level] := by
      simp [Array.getD_eq_getD_getElem?, Array.getElem?_eq_getElem hlt]
    have hout : c.outerSlots (level + 1) = c.enclosing[level].slots := by
      simp [Compiler.outerSlots, Array.getElem?_eq_getElem hlt]
    simp only [capture] at h
    have h₁ := run_get_bind h
    rw [hparent] at h₁
    split at h₁
    · -- the parent declares the local: it is marked captured
      rename_i parent slot hcap
      have h₂ := run_set_bind h₁
      obtain ⟨rfl, rfl⟩ := run_pure_ok h₂
      obtain ⟨hm, hslot⟩ := FuncState.captureLocal_spec (c.outerSlots level) hcap
      refine ⟨.setEnclosing hlt hm, rfl, ?_⟩
      intro r hr
      cases hr
      rw [hout]
      exact hslot
    · split at h₁
      · -- the parent already has the upvalue
        obtain ⟨rfl, rfl⟩ := run_pure_ok h₁
        exact ⟨.refl _, rfl, by simp⟩
      · -- the parent gets the upvalue from further out
        obtain ⟨src', c₂, hrec, h₂⟩ := run_bind_ok h₁
        obtain ⟨hf₁, hfs₁, hsrc⟩ := capture_spec (Nat.le_of_lt hlt) hrec
        split at h₂
        · rename_i s
          have h₃ := run_get_bind h₂
          obtain ⟨p, c₅, hlift, h₄⟩ := run_bind_ok h₃
          obtain ⟨hadd, rfl⟩ := run_lift_ok hlift
          have h₅ := run_set_bind h₄
          obtain ⟨rfl, rfl⟩ := run_pure_ok h₅
          have hlt₂ : level < c₂.enclosing.size := hf₁.size ▸ hlt
          have hparent₂ : c₂.enclosing.getD level default = c₂.enclosing[level] := by
            simp [Array.getD_eq_getD_getElem?, Array.getElem?_eq_getElem hlt₂]
          rw [hparent₂] at hadd
          obtain ⟨hp, -⟩ := FuncState.addUpvalue_ok hadd
          have hm : Marked (c₂.outerSlots level) c₂.enclosing[level] p.1 := by
            rw [hp]
            exact ⟨rfl, rfl, rfl, rfl, rfl, .push fun r hr => by
              rw [hf₁.outerSlots_eq (Nat.le_of_lt hlt)]
              exact hsrc r (by rw [hr])⟩
          refine ⟨hf₁.trans (.setEnclosing hlt₂ hm), hfs₁, ?_⟩
          intro r hr
          cases hr
        · obtain ⟨rfl, rfl⟩ := run_pure_ok h₂
          exact ⟨hf₁, hfs₁, by simp⟩

/-- Resolving an upvalue is quiet: at most the current function gains an upvalue, from a local
of its parent. -/
theorem resolveUpvalue_quiet {name : String} {line : Nat} {x : Option Nat}
    (h : (resolveUpvalue name line).run c = .ok (x, c')) : Quiet c c' := by
  simp only [resolveUpvalue] at h
  have h₁ := run_get_bind h
  split at h₁
  · obtain ⟨rfl, rfl⟩ := run_pure_ok h₁
    exact .refl _
  · have h₂ := run_get_bind h₁
    obtain ⟨src, c₄, hcap, h₃⟩ := run_bind_ok h₂
    obtain ⟨hf, hfs, hsrc⟩ := capture_spec (Nat.le_refl _) hcap
    have hk : Keeps c c₄ := ⟨hf, by rw [hfs]⟩
    split at h₃
    · rename_i s
      obtain ⟨idx, h₄, rfl⟩ := run_map_ok h₃
      obtain ⟨fs', hadd, rfl⟩ := run_onFs h₄
      obtain ⟨rfl, -⟩ := FuncState.addUpvalue_ok hadd
      have hstep : Keeps c₄ { c₄ with fs := { c₄.fs with upvalues := c₄.fs.upvalues.push (name, s) } } :=
        ⟨.of_fs (List.prefix_refl _) (.push fun r hr => by
          rw [hf.size, hf.outerSlots_eq (Nat.le_refl _)]
          exact hsrc r (by rw [hr])), rfl⟩
      exact ⟨hk.trans hstep, by simp [hfs], by simp [hfs]⟩
    · obtain ⟨rfl, rfl⟩ := run_pure_ok h₃
      exact ⟨hk, by rw [hfs], by rw [hfs]⟩

/-! ## Operands -/

theorem addConstant_quiet {k : Constant} {idx : Nat} (h : (addConstant k).run c = .ok (idx, c')) :
    Quiet c c' := by
  obtain ⟨fs', hk, rfl⟩ := run_onFs h
  have hfs : fs' = (c.fs.addConstant k).1 := by rw [Except.ok.inj hk]
  subst hfs
  exact ⟨.of_fs (by simp) (by simp) (by simp), by simp, by simp⟩

theorem constOperand_classifies (k : Constant) : Classifies (constOperand k) := by
  intro c c' o h
  obtain ⟨idx, c₁, hk, h₁⟩ := run_bind_ok h
  obtain ⟨rfl, rfl⟩ := run_pure_ok h₁
  refine ⟨addConstant_quiet hk, ?_⟩
  split
  · show Instruction.isConst (Instruction.constOperand idx) = true
    rw [Instruction.isConst, Instruction.constOperand, show (idx + 256) / 256 = 1 by omega]
    rfl
  · trivial

theorem classifyName_classifies (name : String) (line : Nat) :
    Classifies (classifyName name line) := by
  intro c c' o h
  simp only [classifyName] at h
  have h₁ := run_get_bind h
  split at h₁
  · rename_i slot hslot
    obtain ⟨rfl, rfl⟩ := run_pure_ok h₁
    exact ⟨.refl _, FuncState.slotOf_mem hslot⟩
  · obtain ⟨x, c₂, hres, h₂⟩ := run_bind_ok h₁
    have hq := resolveUpvalue_quiet hres
    split at h₂
    · obtain ⟨rfl, rfl⟩ := run_pure_ok h₂
      exact ⟨hq, trivial⟩
    · obtain ⟨idx, c₃, hk, h₃⟩ := run_bind_ok h₂
      obtain ⟨rfl, rfl⟩ := run_pure_ok h₃
      exact ⟨hq.trans (addConstant_quiet hk), trivial⟩

theorem classify_classifies (e : Expr) : Classifies (classify e) := by
  unfold classify
  split
  · exact constOperand_classifies _
  · exact classifyName_classifies _ _
  · intro c c' o h
    obtain ⟨rfl, rfl⟩ := run_pure_ok h
    exact ⟨.refl _, trivial⟩

end Compiler

end LuaBytecode
