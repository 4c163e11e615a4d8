import LuaBytecode.Proofs.Compiler.Jumps
/-!
# The function between statements

Between two statements of a structured block the function being compiled is in a state that
the statements' code relies on (`FuncState.Tracks names`): the locals in scope are `names`,
innermost first, each in the register of its position and none captured by a closure; the
innermost loop, if any, is no deeper than the current scope, and its breaks are jumps still
pending. A statement moves the function from one such state to the next
(`FuncState.Advances`): the code written stays apart from its own jumps, which it patches
itself, every jump pending before it still is, the scopes around it are as they were, the
innermost loop may have new breaks, and the locals it declares come after the others.

* `FuncState.Patched js t`: the jumps at `js` were pointed at `t`, and nothing else changed;
  patching a loop's breaks (`patchBreaks`) and the jumps to the end of an `if` (`patchAll`) are
  such steps;
* `Tracks.exitScope`: closing a scope retires the locals declared in it and, for a loop, points
  its breaks at the end.
-/

namespace LuaBytecode

namespace FuncState

variable {fs fs' fs₀ fs₁ fs₂ fs₃ : FuncState} {names names' : List String}

/-- The breaks recorded so far in the innermost loop, none outside every loop. -/
def breaks (fs : FuncState) : List Nat := (fs.loops.back?.map (·.breaks)).getD []

/-- The function at a boundary between statements, with the locals `names` in scope, innermost
first: each local is in the register of its position, none is captured or deeper than the
current scope; the innermost loop is no deeper than the current scope and its breaks are jumps
still pending; nothing is pending past the end of the code, and the registers fit. -/
structure Tracks (names : List String) (fs : FuncState) : Prop where
  aligned : fs.Aligned
  names : fs.actives.toList.reverse.map (·.name) = names
  uncaptured : ∀ l ∈ fs.actives.toList, l.captured = false
  depth : ∀ l ∈ fs.actives.toList, l.depth ≤ fs.depth
  loop : ∀ lp ∈ fs.loops.back?, lp.depth ≤ fs.depth
  breaks : ∀ q ∈ fs.breaks, q ∈ fs.pending ∧ (fs.code[q]?).map Instruction.opcode = some .jmp
  settled : ∀ q ∈ fs.pending, q < fs.code.size
  room : fs.usedRegs ≤ 255

/-- A statement's step from `fs` to `fs'`: the settled code stays and every pending jump still
is; the scope depth and every loop but the innermost stay, and the innermost one gets breaks
written since `fs`; the locals of `fs` stay, and those added belong to the current scope. -/
structure Advances (fs fs' : FuncState) : Prop where
  settles : fs.Settles fs'
  kept : ∀ q ∈ fs.pending, q ∈ fs'.pending
  depth : fs'.depth = fs.depth
  outer : fs'.loops.pop = fs.loops.pop
  size : fs'.loops.size = fs.loops.size
  loop : fs'.loops.back?.map (·.depth) = fs.loops.back?.map (·.depth)
  breaks : ∃ bs, fs'.breaks = bs ++ fs.breaks ∧ ∀ q ∈ bs, fs.code.size ≤ q
  actives : ∃ news, fs'.actives.toList = fs.actives.toList ++ news ∧
    ∀ l ∈ news, l.depth = fs.depth

namespace Advances

@[refl] theorem refl (fs : FuncState) : Advances fs fs :=
  ⟨.refl _, fun _ => id, rfl, rfl, rfl, rfl, ⟨[], rfl, by simp⟩, ⟨[], by simp, by simp⟩⟩

theorem trans (h₁ : Advances fs₁ fs₂) (h₂ : Advances fs₂ fs₃) : Advances fs₁ fs₃ where
  settles := h₁.settles.trans h₂.settles
  kept q hq := h₂.kept q (h₁.kept q hq)
  depth := h₂.depth.trans h₁.depth
  outer := h₂.outer.trans h₁.outer
  size := h₂.size.trans h₁.size
  loop := h₂.loop.trans h₁.loop
  breaks := by
    obtain ⟨bs₁, e₁, hb₁⟩ := h₁.breaks
    obtain ⟨bs₂, e₂, hb₂⟩ := h₂.breaks
    refine ⟨bs₂ ++ bs₁, by rw [e₂, e₁, List.append_assoc], fun q hq => ?_⟩
    rcases List.mem_append.mp hq with hq | hq
    · exact Nat.le_trans h₁.settles.size (hb₂ q hq)
    · exact hb₁ q hq
  actives := by
    obtain ⟨n₁, e₁, hn₁⟩ := h₁.actives
    obtain ⟨n₂, e₂, hn₂⟩ := h₂.actives
    refine ⟨n₁ ++ n₂, by rw [e₂, e₁, List.append_assoc], fun l hl => ?_⟩
    rcases List.mem_append.mp hl with hl | hl
    · exact hn₁ l hl
    · rw [hn₂ l hl, h₁.depth]

/-- A break recorded before a step still is after it. -/
theorem mem_breaks {q : Nat} (h : Advances fs fs') (hq : q ∈ fs.breaks) : q ∈ fs'.breaks := by
  obtain ⟨bs, e, -⟩ := h.breaks
  rw [e]
  exact List.mem_append_right _ hq

/-- A step that keeps the scopes, such as the code of an expression or of a condition. -/
theorem of_scopes (hs : fs.Settles fs') (hk : ∀ q ∈ fs.pending, q ∈ fs'.pending)
    (hsc : fs'.scopes = fs.scopes) : Advances fs fs' := by
  have ha : fs'.actives = fs.actives := congrArg (·.1) hsc
  have hl : fs'.loops = fs.loops := congrArg (·.2.1) hsc
  refine ⟨hs, hk, congrArg (·.2.2) hsc, by rw [hl], by rw [hl], by rw [hl],
    ⟨[], by simp [FuncState.breaks, hl], by simp⟩, ⟨[], by simp [ha], by simp⟩⟩

end Advances

namespace Tracks

/-- A step that keeps the scopes and the registers in use, such as the code of an expression or
of a condition, keeps the state tracked. -/
theorem of_scopes (h : Tracks names fs) (hs : fs.Settles fs') (hk : ∀ q ∈ fs.pending, q ∈ fs'.pending)
    (hsc : fs'.scopes = fs.scopes) (hu : fs'.usedRegs = fs.usedRegs)
    (ht : ∀ q ∈ fs'.pending, q < fs'.code.size) : Tracks names fs' := by
  have ha : fs'.actives = fs.actives := congrArg (·.1) hsc
  have hl : fs'.loops = fs.loops := congrArg (·.2.1) hsc
  have hd : fs'.depth = fs.depth := congrArg (·.2.2) hsc
  have hb : fs'.breaks = fs.breaks := by simp [FuncState.breaks, hl]
  refine ⟨h.aligned.of_slots (by simp [slots, ha]) hu, by rw [ha]; exact h.names,
    by rw [ha]; exact h.uncaptured, by rw [ha, hd]; exact h.depth, by rw [hl, hd]; exact h.loop,
    fun q hq => ?_, ht, by rw [hu]; exact h.room⟩
  rw [hb] at hq
  obtain ⟨hp, hj⟩ := h.breaks q hq
  exact ⟨hk q hp, by rw [hs.opcode q (h.settled q hp)]; exact hj⟩

/-- A name in scope has a register. -/
theorem slotOf_isSome (h : Tracks names fs) {s : String} (hs : s ∈ names) :
    (fs.slotOf s).isSome := by
  rw [← h.names, List.mem_map] at hs
  obtain ⟨l, hl, rfl⟩ := hs
  simp only [slotOf, Option.isSome_map]
  exact List.find?_isSome.mpr ⟨l, hl, by simp⟩

end Tracks

/-! ## Patching jumps -/

/-- From `fs` to `fs'` the jumps at `js` were pointed at `t`, each keeping its opcode, and
nothing else changed but the pending jumps, from which they are gone. -/
structure Patched (js : List Nat) (t : Nat) (fs fs' : FuncState) : Prop where
  eq : ∃ code pending, fs' = { fs with code, pending }
  size : fs'.code.size = fs.code.size
  other : ∀ q : Nat, q ∉ js → fs'.code[q]? = fs.code[q]?
  opcode : ∀ q : Nat, (fs'.code[q]?).map Instruction.opcode = (fs.code[q]?).map Instruction.opcode
  pending : ∀ q : Nat, q ∈ fs'.pending ↔ q ∈ fs.pending ∧ q ∉ js
  lands : ∀ q ∈ js, (fs.code[q]?).map Instruction.opcode = some .jmp →
    ∃ i, fs'.code[q]? = some i ∧ i.opcode = .jmp ∧ (q : Int) + 1 + i.sbx = t

namespace Patched

variable {js js' : List Nat} {t : Nat}

theorem nil (t : Nat) (fs : FuncState) : Patched [] t fs fs :=
  ⟨⟨fs.code, fs.pending, rfl⟩, rfl, fun _ _ => rfl, fun _ => rfl, by simp, by simp⟩

theorem trans (h₁ : Patched js t fs₁ fs₂) (h₂ : Patched js' t fs₂ fs₃) :
    Patched (js ++ js') t fs₁ fs₃ where
  eq := by
    obtain ⟨code₁, pending₁, rfl⟩ := h₁.eq
    obtain ⟨code₂, pending₂, rfl⟩ := h₂.eq
    exact ⟨code₂, pending₂, rfl⟩
  size := h₂.size.trans h₁.size
  other q hq := by
    rw [List.mem_append, not_or] at hq
    rw [h₂.other q hq.2, h₁.other q hq.1]
  opcode q := (h₂.opcode q).trans (h₁.opcode q)
  pending q := by rw [h₂.pending, h₁.pending, List.mem_append, not_or, and_assoc]
  lands q hq hj := by
    by_cases hq' : q ∈ js'
    · exact h₂.lands q hq' (by rw [h₁.opcode q]; exact hj)
    · have hq₁ : q ∈ js := by simpa [hq'] using hq
      obtain ⟨i, hi, hio, hit⟩ := h₁.lands q hq₁ hj
      exact ⟨i, by rw [h₂.other q hq', hi], hio, hit⟩

/-- Patched code settles from any earlier state at which each patched jump was pending or not
yet written. -/
theorem settles (h₀ : fs₀.Settles fs) (h : Patched js t fs fs')
    (hj : ∀ q ∈ js, fs₀.code.size ≤ q ∨ q ∈ fs₀.pending) : fs₀.Settles fs' where
  size := h.size ▸ h₀.size
  code q hq hp := by
    have hq' : q ∉ js := fun hm => (hj q hm).elim (fun hle => by omega) hp
    rw [h.other q hq', h₀.code q hq hp]
  opcode q hq := (h.opcode q).trans (h₀.opcode q hq)
  pending q hq hp := h₀.pending q hq ((h.pending q).mp hp).1
  constants := by
    obtain ⟨code, pending, rfl⟩ := h.eq
    exact h₀.constants

/-- The scopes and the registers stay. -/
theorem scopes (h : Patched js t fs fs') : fs'.scopes = fs.scopes ∧ fs'.usedRegs = fs.usedRegs := by
  obtain ⟨code, pending, rfl⟩ := h.eq
  exact ⟨rfl, rfl⟩

end Patched

/-- One jump pointed at `t`. -/
theorem patched_patchJump {j t : Nat} (h : fs.patchJump j t = .ok fs') : Patched [j] t fs fs' := by
  obtain ⟨hfit, rfl⟩ := patchJump_eq h
  refine ⟨⟨_, _, rfl⟩, by simp, fun q hq => ?_, fun q => ?_, fun q => ?_, fun q hq hj => ?_⟩
  · have hne : j ≠ q := fun e => hq (by simp [e])
    rw [Array.getElem?_modify, if_neg hne]
  · rw [Array.getElem?_modify]
    split <;> cases fs.code[q]? <;> simp
  · simp [List.mem_filter]
  · obtain rfl : q = j := by simpa using hq
    obtain ⟨i, hi, hio⟩ := Option.map_eq_some_iff.mp hj
    refine ⟨i.setSbx ((t : Int) - q - 1), by rw [Array.getElem?_modify, if_pos rfl, hi]; rfl,
      by rw [Instruction.opcode_setSbx, hio], ?_⟩
    rw [Instruction.sbx_setSbx _ (by simp only [Instruction.sbxBias]; omega)
      (by simp only [Instruction.sbxBias]; omega)]
    omega

/-- A jump given its operand A and then pointed at `t`. -/
theorem patched_setJumpA {j a t : Nat} (h₁ : fs.setJumpA j a = .ok fs₁)
    (h₂ : fs₁.patchJump j t = .ok fs₂) : Patched [j] t fs fs₂ := by
  obtain ⟨-, rfl⟩ := setJumpA_ok h₁
  have hp := patched_patchJump h₂
  have hop : ∀ q : Nat, ((fs.code.modify j (·.setA a))[q]?).map Instruction.opcode =
      (fs.code[q]?).map Instruction.opcode := by
    intro q
    rw [Array.getElem?_modify]
    split <;> cases fs.code[q]? <;> simp
  refine ⟨?_, by rw [hp.size]; simp, fun q hq => ?_, fun q => (hp.opcode q).trans (hop q),
    hp.pending, fun q hq hj => hp.lands q hq (by rw [hop q]; exact hj)⟩
  · obtain ⟨code, pending, rfl⟩ := hp.eq
    exact ⟨code, pending, rfl⟩
  · have hne : j ≠ q := fun e => hq (by simp [e])
    rw [hp.other q hq]
    exact (Array.getElem?_modify ..).trans (if_neg hne)

/-- A loop's breaks, each given operand A and pointed at `t`. -/
theorem patchBreaks_patched {a t : Nat} :
    ∀ {js : List Nat} {fs fs' : FuncState}, fs.patchBreaks a t js = .ok fs' → Patched js t fs fs'
  | [], fs, fs', h => by
    cases h
    exact .nil t fs
  | j :: rest, fs, fs', h => by
    simp only [patchBreaks] at h
    obtain ⟨fs₁, h₁, h⟩ := except_bind_ok h
    obtain ⟨fs₂, h₂, h₃⟩ := except_bind_ok h
    exact (patched_setJumpA h₁ h₂).trans (patchBreaks_patched h₃)

/-! ## Scopes -/

@[simp] theorem enterScope_code (fs : FuncState) (b : Bool) : (fs.enterScope b).code = fs.code := rfl
@[simp] theorem enterScope_pending (fs : FuncState) (b : Bool) :
    (fs.enterScope b).pending = fs.pending := rfl
@[simp] theorem enterScope_actives (fs : FuncState) (b : Bool) :
    (fs.enterScope b).actives = fs.actives := rfl
@[simp] theorem enterScope_usedRegs (fs : FuncState) (b : Bool) :
    (fs.enterScope b).usedRegs = fs.usedRegs := rfl
@[simp] theorem enterScope_depth (fs : FuncState) (b : Bool) :
    (fs.enterScope b).depth = fs.depth + 1 := rfl

theorem enterScope_settles (fs : FuncState) (b : Bool) : fs.Settles (fs.enterScope b) :=
  .of_eq rfl rfl rfl

/-- A loop starts with no breaks. -/
@[simp] theorem enterScope_true_breaks (fs : FuncState) : (fs.enterScope true).breaks = [] := by
  simp [enterScope, FuncState.breaks]

/-- A scope that is no loop breaks out of the loop around it. -/
@[simp] theorem enterScope_false_breaks (fs : FuncState) :
    (fs.enterScope false).breaks = fs.breaks := by
  simp [enterScope, FuncState.breaks]

/-- The breaks recorded inside a loop all come after its start. -/
theorem Advances.breaks_of_loop {q : Nat} (h : Advances (fs.enterScope true) fs')
    (hq : q ∈ fs'.breaks) : fs.code.size ≤ q := by
  obtain ⟨bs, e, hbs⟩ := h.breaks
  rw [e, enterScope_true_breaks, List.append_nil] at hq
  exact hbs q hq

/-- A new scope is tracked with the same locals. -/
theorem Tracks.enterScope (h : Tracks names fs) (b : Bool) : Tracks names (fs.enterScope b) := by
  refine ⟨h.aligned.of_slots rfl rfl, h.names, h.uncaptured,
    fun l hl => Nat.le_succ_of_le (h.depth l hl), fun lp hlp => ?_, ?_, h.settled, h.room⟩
  · cases b
    · exact Nat.le_succ_of_le (h.loop lp hlp)
    · simp only [FuncState.enterScope, if_true, Array.back?_push, Option.mem_def,
        Option.some.injEq] at hlp
      rw [← hlp]
      exact Nat.le_refl _
  · cases b
    · simpa using h.breaks
    · simp

/-- Nothing is closed at the end of a scope with no captured local. -/
theorem Tracks.closeOpenUpvals (h : Tracks names fs) {line : Nat}
    (hc : fs.closeOpenUpvals line = .ok fs') : fs' = fs := by
  have ha : fs.jmpArgA = 0 := by
    simp only [jmpArgA]
    rw [if_neg]
    simp only [List.any_eq_true, not_exists, not_and, Bool.not_eq_true]
    intro l hl
    exact h.uncaptured l (List.mem_reverse.mp ((List.takeWhile_sublist _).subset hl))
  simp only [FuncState.closeOpenUpvals, ha] at hc
  cases hc
  rfl

/-- Replacing the innermost loop keeps the others. -/
theorem set_back {a : Array LoopInfo} {lp x : LoopInfo} (h : a.back? = some lp) :
    (a.set! (a.size - 1) x).pop = a.pop ∧ (a.set! (a.size - 1) x).back? = some x ∧
      (a.set! (a.size - 1) x).size = a.size := by
  have hpos : 0 < a.size := by
    rcases Nat.eq_zero_or_pos a.size with h0 | h0
    · simp [Array.back?, h0] at h
    · exact h0
  simp only [Array.set!_eq_setIfInBounds]
  refine ⟨?_, ?_, by simp⟩
  · apply Array.ext
    · simp
    · intro i h₁ _
      simp only [Array.size_pop, Array.size_setIfInBounds] at h₁
      rw [Array.getElem_pop, Array.getElem_pop, Array.getElem_setIfInBounds_ne]
      omega
  · rw [Array.back?_eq_getElem?, Array.size_setIfInBounds,
      Array.getElem?_setIfInBounds_self_of_lt (by omega)]

/-- What a `break` writes: a jump at the end of the code, pending, recorded in the innermost
loop. -/
theorem addBreak_eq {line : Nat} (hb : fs.addBreak line = .ok fs') :
    ∃ lp bx, fs.loops.back? = some lp ∧ fs' = { fs.emit' (Instruction.abx .jmp 0 bx) line with
      pending := fs.code.size :: fs.pending,
      loops := fs.loops.set! (fs.loops.size - 1) { lp with breaks := fs.code.size :: lp.breaks } } := by
  unfold FuncState.addBreak at hb
  split at hb
  · cases hb
  rename_i lp hlp
  obtain ⟨⟨fs₁, pc⟩, h₁, hb⟩ := except_bind_ok hb
  cases hb
  obtain ⟨rfl, -, bx, rfl⟩ := emitJump_ok h₁
  exact ⟨lp, bx, hlp, rfl⟩

/-- A `break` at a boundary: the jump is the newest break of the innermost loop. -/
theorem Tracks.addBreak (h : Tracks names fs) {line : Nat} (hb : fs.addBreak line = .ok fs') :
    Tracks names fs' ∧ Advances fs fs' ∧ fs'.breaks = fs.code.size :: fs.breaks ∧
      fs'.code.size = fs.code.size + 1 := by
  obtain ⟨lp, bx, hlp, rfl⟩ := addBreak_eq hb
  obtain ⟨hpop, hback, hsize⟩ := set_back (x := { lp with breaks := fs.code.size :: lp.breaks }) hlp
  have hbr : fs.breaks = lp.breaks := by simp [FuncState.breaks, hlp]
  have hjmp : (((fs.code.push (Instruction.abx .jmp 0 bx))[fs.code.size]?).map
      Instruction.opcode) = some .jmp := by simp [Instruction.opcode_abx]
  have hs : fs.Settles { fs.emit' (Instruction.abx .jmp 0 bx) line with
      pending := fs.code.size :: fs.pending,
      loops := fs.loops.set! (fs.loops.size - 1) { lp with breaks := fs.code.size :: lp.breaks } } :=
    (Settles.pending_push _ _ _).trans (.of_eq rfl rfl rfl)
  refine ⟨⟨h.aligned.of_slots rfl rfl, h.names, h.uncaptured, h.depth, fun lp' hlp' => ?_, fun q hq => ?_,
    fun q hq => ?_, h.room⟩, ⟨hs, fun q hq => List.mem_cons_of_mem _ hq, rfl, hpop, hsize, ?_,
    ⟨[fs.code.size], ?_, by simp⟩, ⟨[], by simp, by simp⟩⟩, ?_, by simp⟩
  · simp only [hback, Option.mem_def, Option.some.injEq] at hlp'
    subst hlp'
    exact h.loop lp hlp
  · simp only [FuncState.breaks, hback, Option.map_some, Option.getD_some, List.mem_cons] at hq
    rcases hq with rfl | hq
    · exact ⟨.head _, hjmp⟩
    · obtain ⟨hp, hj⟩ := h.breaks q (hbr ▸ hq)
      exact ⟨.tail _ hp, by rw [hs.opcode q (h.settled q hp)]; exact hj⟩
  · simp only [FuncState.emit'_code, Array.size_push, List.mem_cons] at hq ⊢
    rcases hq with rfl | hq
    · omega
    · have := h.settled q hq; omega
  · rw [hback, hlp]
    rfl
  · simp only [FuncState.breaks, hback, hlp, Option.map_some, Option.getD_some]
    rfl
  · simp only [FuncState.breaks, hback, hlp, Option.map_some, Option.getD_some]

/-! ## Locals -/

/-- A local declared at the top of aligned registers takes the next register. -/
theorem addLocal_eq {name : String} {line slot : Nat} (h : fs.addLocal name line = .ok (fs', slot)) :
    fs.usedRegs < 255 ∧ slot = fs.usedRegs ∧ ∃ locals maxRegs, fs' = { fs with
      usedRegs := fs.usedRegs + 1, maxRegs := maxRegs, locals := locals,
      actives := fs.actives.push
        { name := name, slot := fs.usedRegs, depth := fs.depth, captured := false,
          record := fs.locals.size } } := by
  simp only [addLocal] at h
  obtain ⟨⟨fs₁, r⟩, h₁, h₂⟩ := except_bind_ok h
  cases h₂
  obtain ⟨hlt, rfl, rfl⟩ := allocReg_ok h₁
  exact ⟨hlt, rfl, _, _, rfl⟩

/-- A local declared at a boundary is the innermost name in scope. -/
theorem Tracks.addLocal (h : Tracks names fs) {name : String} {line slot : Nat}
    (ha : fs.addLocal name line = .ok (fs', slot)) :
    Tracks (name :: names) fs' ∧ Advances fs fs' ∧ fs'.code = fs.code ∧ fs'.pending = fs.pending ∧
      fs'.constants = fs.constants ∧ slot = names.length := by
  have hal := h.aligned.addLocal ha
  obtain ⟨hlt, rfl, locals, maxRegs, rfl⟩ := addLocal_eq ha
  have hlen : fs.usedRegs = names.length := by
    rw [h.aligned.usedRegs, ← h.names]; simp
  refine ⟨⟨hal, by simp [h.names], fun l hl => ?_, fun l hl => ?_, h.loop, h.breaks, h.settled,
    by simp only; change fs.usedRegs < 255 at hlt; omega⟩,
    ⟨.of_eq rfl rfl rfl, fun _ => id, rfl, rfl, rfl, rfl, ⟨[], by simp [FuncState.breaks], by simp⟩,
      ⟨[{ name := name, slot := fs.usedRegs, depth := fs.depth, captured := false,
          record := fs.locals.size }], by simp, by simp⟩⟩, rfl, rfl, rfl, hlen⟩
  · simp only [Array.toList_push, List.mem_append, List.mem_singleton] at hl
    rcases hl with hl | rfl
    · exact h.uncaptured l hl
    · rfl
  · simp only [Array.toList_push, List.mem_append, List.mem_singleton] at hl
    rcases hl with hl | rfl
    · exact h.depth l hl
    · exact Nat.le_refl _

/-! ## Leaving a scope -/

/-- Retiring the locals of the innermost scope, all declared after the others: the others stay,
with the registers up to theirs. -/
theorem retireLocals_append {olds : List ActiveLocal} {endPc : Nat} :
    ∀ (fuel : Nat) (fs : FuncState) (news : List ActiveLocal), fs.Aligned →
      fs.actives.toList = olds ++ news → news.length ≤ fuel →
      (∀ l ∈ news, l.depth = fs.depth) → (∀ l ∈ olds, l.depth ≠ fs.depth) →
      ∃ locals, fs.retireLocals endPc fuel =
        { fs with actives := ⟨olds⟩, locals, usedRegs := olds.length } := by
  -- with nothing left to retire the state is already the one claimed
  have done : ∀ fs : FuncState, fs.Aligned → fs.actives.toList = olds →
      fs = { fs with actives := ⟨olds⟩, locals := fs.locals, usedRegs := olds.length } := by
    intro fs hal hact
    have ha : fs.actives = ⟨olds⟩ := by rw [← hact]
    have hu : fs.usedRegs = olds.length := by rw [hal.usedRegs, ← Array.length_toList, hact]
    rw [← ha, ← hu]
  intro fuel
  induction fuel with
  | zero =>
    intro fs news hal hact hlen _ _
    obtain rfl : news = [] := List.eq_nil_of_length_eq_zero (by omega)
    exact ⟨fs.locals, done fs hal (by simpa using hact)⟩
  | succ fuel ih =>
    intro fs news hal hact hlen hnew hold
    unfold retireLocals
    rcases List.eq_nil_or_concat news with rfl | ⟨news', l, rfl⟩
    · rw [List.append_nil] at hact
      refine ⟨fs.locals, ?_⟩
      split
      · rename_i l hl
        have hlo : l ∈ olds := by
          rw [← hact]
          exact Array.mem_toList_iff.mpr (Array.mem_of_getElem? (by
            rw [← Array.back?_eq_getElem?]; exact hl))
        rw [if_neg (by simpa using hold l hlo)]
        exact done fs hal hact
      · exact done fs hal hact
    · have hsz : fs.actives.size = olds.length + news'.length + 1 := by
        rw [← Array.length_toList, hact]
        simp [Nat.add_assoc]
      have hl : fs.actives.back? = some l := by
        rw [Array.back?_eq_getElem?, ← Array.getElem?_toList, hact, hsz]
        simp [Nat.add_assoc]
      rw [hl]
      dsimp only
      rw [if_pos (by simpa using hnew l (by simp))]
      obtain ⟨locals, e⟩ := ih { fs with
        actives := fs.actives.pop
        locals := fs.locals.modify l.record fun r => { r with endPc := endPc }
        usedRegs := l.slot } news' (hal.pop hl) (by simp [Array.toList_pop, hact])
        (by simp at hlen; omega) (fun l' hl' => hnew l' (by simp [hl'])) hold
      exact ⟨locals, e⟩

/-- Closing the loop of a scope that is no loop does nothing. -/
theorem closeLoop_of_lt {endPc : Nat} (hl : ∀ lp ∈ fs.loops.back?, lp.depth < fs.depth)
    (hc : fs.closeLoop endPc = .ok fs') : fs' = fs := by
  unfold closeLoop at hc
  split at hc
  · rename_i lp hlp
    have hlt := hl lp hlp
    rw [if_neg (by simp only [beq_iff_eq]; omega)] at hc
    cases hc
    rfl
  · cases hc
    rfl

/-- Closing the loop that is the innermost scope points its breaks at `endPc`. -/
theorem closeLoop_of_eq {endPc : Nat} {lp : LoopInfo} (hlp : fs.loops.back? = some lp)
    (hd : lp.depth = fs.depth) (hc : fs.closeLoop endPc = .ok fs') :
    Patched lp.breaks.reverse endPc { fs with loops := fs.loops.pop } fs' := by
  unfold closeLoop at hc
  rw [hlp] at hc
  simp only [hd, BEq.rfl, if_true] at hc
  exact patchBreaks_patched hc

/-- Closing a loop changes only the code, the pending jumps and the loops. -/
theorem closeLoop_frame {endPc : Nat} (hc : fs.closeLoop endPc = .ok fs') :
    fs'.actives = fs.actives ∧ fs'.usedRegs = fs.usedRegs ∧ fs'.depth = fs.depth := by
  unfold closeLoop at hc
  split at hc
  · split at hc
    · obtain ⟨code, pending, rfl⟩ := (patchBreaks_patched hc).eq
      exact ⟨rfl, rfl, rfl⟩
    · cases hc
      exact ⟨rfl, rfl, rfl⟩
  · cases hc
    exact ⟨rfl, rfl, rfl⟩

/-- Leaving a scope opened at `fs₀` and tracked at its end: once its loop, if any, is closed
(`fs₄`), the locals declared in it are retired, and the registers and the depth go back to
those of `fs₀`. -/
theorem exitScope_eq {b : Bool} (h₀ : Tracks names fs₀) (ha : Advances (fs₀.enterScope b) fs₂)
    (h₂ : Tracks names₂ fs₂) (he : fs₂.exitScope = .ok fs₃) :
    ∃ fs₄ locals, fs₂.closeLoop fs₂.code.size = .ok fs₄ ∧ fs₃ = { fs₄ with
      actives := fs₀.actives, locals := locals, usedRegs := fs₀.usedRegs, depth := fs₀.depth } := by
  simp only [exitScope] at he
  obtain ⟨fs₄, h₄, he⟩ := except_bind_ok he
  cases he
  obtain ⟨ha₄, hu₄, hd₄⟩ := closeLoop_frame h₄
  obtain ⟨news, hnews, hdn⟩ := ha.actives
  have hd₂ : fs₂.depth = fs₀.depth + 1 := ha.depth
  obtain ⟨locals, e⟩ := @retireLocals_append fs₀.actives.toList fs₂.pc
    fs₄.actives.size fs₄ news (h₂.aligned.of_slots (by simp [slots, ha₄]) hu₄)
    (by rw [ha₄, hnews]; rfl) (by rw [ha₄, ← Array.length_toList, hnews]; simp)
    (fun l hl => by rw [hdn l hl, hd₄, hd₂]; rfl)
    (fun l hl => by have := h₀.depth l hl; omega)
  refine ⟨fs₄, locals, h₄, ?_⟩
  rw [e]
  have hu₀ : fs₀.actives.toList.length = fs₀.usedRegs := by
    rw [h₀.aligned.usedRegs, Array.length_toList]
  simp only [hu₀, hd₄, hd₂, Nat.add_sub_cancel]

/-- Leaving a scope that is no loop, opened at `fs₀`: the locals are those of `fs₀` again, and
the code and the breaks are those at the scope's end. -/
theorem Tracks.exitScope_block (h₀ : Tracks names fs₀) (ha : Advances (fs₀.enterScope false) fs₂)
    (h₂ : Tracks names₂ fs₂) (he : fs₂.exitScope = .ok fs₃) :
    Tracks names fs₃ ∧ Advances fs₀ fs₃ ∧ fs₃.code = fs₂.code ∧ fs₃.pending = fs₂.pending ∧
      fs₃.constants = fs₂.constants ∧ fs₃.breaks = fs₂.breaks := by
  obtain ⟨fs₄, locals, h₄, rfl⟩ := exitScope_eq h₀ ha h₂ he
  -- the innermost loop is the one around the scope, less deep than the scope
  have hlt : ∀ lp ∈ fs₂.loops.back?, lp.depth < fs₂.depth := by
    intro lp hlp
    have hmap := ha.loop
    rw [Option.mem_def.mp hlp, Option.map_some] at hmap
    obtain ⟨lp₀, hlp₀, e⟩ := Option.map_eq_some_iff.mp hmap.symm
    have := h₀.loop lp₀ hlp₀
    rw [ha.depth, enterScope_depth, ← e]
    omega
  obtain rfl := closeLoop_of_lt hlt h₄
  obtain ⟨bs, e, hbs⟩ := ha.breaks
  refine ⟨⟨h₀.aligned.of_slots rfl rfl, h₀.names, h₀.uncaptured, h₀.depth,
    fun lp hlp => ?_, h₂.breaks, h₂.settled, h₀.room⟩,
    ⟨(enterScope_settles fs₀ false).trans (ha.settles.trans (.of_eq rfl rfl rfl)),
      fun q hq => ha.kept q hq, rfl, ha.outer, ha.size, ha.loop, ⟨bs, ?_, hbs⟩,
      ⟨[], by simp, by simp⟩⟩, rfl, rfl, rfl, rfl⟩
  · have := hlt lp hlp
    rw [ha.depth, enterScope_depth] at this
    exact Nat.le_of_lt_succ this
  · rw [← enterScope_false_breaks fs₀, ← e]
    rfl

/-- Leaving a loop opened at `fs₀`: the locals and loops are those of `fs₀` again, so are the
breaks, the jumps pending that are no breaks of the loop still are, and each break of the loop,
no longer pending, jumps to the loop's end. -/
theorem Tracks.exitScope_loop (h₀ : Tracks names fs₀) (ha : Advances (fs₀.enterScope true) fs₂)
    (h₂ : Tracks names₂ fs₂) (he : fs₂.exitScope = .ok fs₃) :
    Tracks names fs₃ ∧ Advances fs₀ fs₃ ∧ fs₂.Settles fs₃ ∧ fs₃.code.size = fs₂.code.size ∧
      fs₃.breaks = fs₀.breaks ∧ (∀ q ∈ fs₂.pending, q ∉ fs₂.breaks → q ∈ fs₃.pending) ∧
      ∀ q ∈ fs₂.breaks, q ∉ fs₃.pending ∧ ∃ i, fs₃.code[q]? = some i ∧ i.opcode = .jmp ∧
        (q : Int) + 1 + i.sbx = fs₂.code.size := by
  obtain ⟨fs₄, locals, h₄, rfl⟩ := exitScope_eq h₀ ha h₂ he
  -- the innermost loop is the one this scope opened
  have hmap := ha.loop
  simp only [FuncState.enterScope, if_true, Array.back?_push, Option.map_some] at hmap
  obtain ⟨lp₂, hlp₂, hd₂⟩ := Option.map_eq_some_iff.mp hmap
  have hp := closeLoop_of_eq hlp₂ (by rw [hd₂, ha.depth]; rfl) h₄
  have hbr : fs₂.breaks = lp₂.breaks := by simp [FuncState.breaks, hlp₂]
  have hloops : fs₄.loops = fs₀.loops := by
    obtain ⟨code, pending, rfl⟩ := hp.eq
    change fs₂.loops.pop = fs₀.loops
    rw [ha.outer]
    simp [FuncState.enterScope]
  have hs₂₄ : fs₂.Settles fs₄ := hp.settles (by exact .of_eq rfl rfl rfl) fun q hq =>
    .inr (h₂.breaks q (by rw [hbr]; exact List.mem_reverse.mp hq)).1
  have hs₀₄ := (enterScope_settles fs₀ true).trans (ha.settles.trans hs₂₄)
  -- what was pending before the loop was so when it ended, and is no break of it
  have hkept : ∀ q ∈ fs₀.pending, q ∈ fs₄.pending := by
    intro q hq
    refine (hp.pending q).mpr ⟨ha.kept q hq, fun hq' => ?_⟩
    have h₁ := ha.breaks_of_loop (by rw [hbr]; exact List.mem_reverse.mp hq')
    have h₂ := h₀.settled q hq
    omega
  have hbr₀ : (fs₄.breaks) = fs₀.breaks := by simp [FuncState.breaks, hloops]
  refine ⟨⟨h₀.aligned.of_slots rfl rfl, h₀.names, h₀.uncaptured, h₀.depth,
    fun lp hlp => h₀.loop lp (hloops ▸ hlp), fun q hq => ?_, fun q hq => ?_, h₀.room⟩,
    ⟨hs₀₄.trans (.of_eq rfl rfl rfl), hkept, rfl, by rw [← hloops], by rw [← hloops],
      by rw [← hloops], ⟨[], by rw [← hbr₀]; rfl, by simp⟩, ⟨[], by simp, by simp⟩⟩,
    hs₂₄.trans (.of_eq rfl rfl rfl), hp.size, hbr₀, fun q hq hnb => ?_, fun q hq => ?_⟩
  · change q ∈ fs₄.breaks at hq
    rw [hbr₀] at hq
    obtain ⟨hpq, hj⟩ := h₀.breaks q hq
    exact ⟨hkept q hpq, by rw [hs₀₄.opcode q (h₀.settled q hpq)]; exact hj⟩
  · have := h₂.settled q ((hp.pending q).mp hq).1
    change q < fs₄.code.size
    rw [hp.size]
    exact this
  · refine (hp.pending q).mpr ⟨hq, fun hq' => hnb ?_⟩
    rw [hbr]
    exact List.mem_reverse.mp hq'
  · have hq' : q ∈ lp₂.breaks.reverse := List.mem_reverse.mpr (hbr ▸ hq)
    exact ⟨fun hpq => ((hp.pending q).mp hpq).2 hq', hp.lands q hq' (h₂.breaks q hq).2⟩

end FuncState

namespace Compiler

/-- The jumps to the end of an `if`, each pointed at `t`. -/
theorem patchAll_patched {t : Nat} :
    ∀ {js : List Nat} {c c' : Compiler}, (patchAll js t).run c = .ok ((), c') →
      FuncState.Patched js t c.fs c'.fs ∧ c' = { c with fs := c'.fs }
  | [], c, c', h => by
    obtain ⟨-, rfl⟩ := run_pure_ok h
    exact ⟨.nil t c.fs, rfl⟩
  | j :: rest, c, c', h => by
    obtain ⟨u, c₁, h₁, h₂⟩ := run_bind_ok h
    obtain ⟨fs₁, hj, rfl⟩ := run_updateFs h₁
    obtain ⟨hp, hc⟩ := patchAll_patched h₂
    exact ⟨(FuncState.patched_patchJump hj).trans hp, hc⟩

end Compiler

end LuaBytecode
