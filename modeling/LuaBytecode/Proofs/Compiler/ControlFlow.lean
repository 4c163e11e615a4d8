import LuaBytecode.Proofs.Compiler.SimpleStatements
/-!
# Blocks, loops and `if`

The statements of a structured block whose code jumps. Each is shown to implement its meaning
(`Implements`), from what its parts implement:

* `scopedWith_implements`: a block in a scope of its own, as `do` and the blocks of an `if`;
* `whileLoop_follows`, `repeatLoop_follows`: what a loop does round after round, by induction on
  the rounds its clock leaves, from what its test and its body do;
* `whileWith_implements`, `repeatWith_implements`: the code of `while` and `repeat`, whose test
  jumps to the end of the loop or back to the body, whose `break`s jump to the end, and whose
  jump back goes to the test; a condition that is always true is not tested, and a nil `repeat`
  condition is compiled as `false`;
* `Chooses`, `clauseWith_chooses`, `Chooses.append`, `Chooses.finish`: the clauses of an `if`,
  each jumping past its block when its condition is false, and to the end of the `if` after
  its block when more follows; once every clause is written these jumps are pointed at the end.
-/

namespace LuaBytecode

namespace FuncState

variable {fs fs' fs₀ : FuncState} {names : List String} {js : List Nat} {t q : Nat}

/-- The breaks are read from the scopes. -/
theorem breaks_of_scopes (h : fs'.scopes = fs.scopes) : fs'.breaks = fs.breaks := by
  have hl : fs'.loops = fs.loops := congrArg (·.2.1) h
  simp [FuncState.breaks, hl]

/-- A position past the end of the code is no break. -/
theorem Tracks.not_mem_breaks (h : Tracks names fs) (hq : fs.code.size ≤ q) : q ∉ fs.breaks :=
  fun hm => by
    have := h.settled q (h.breaks q hm).1
    omega

/-- A position before a step that was no break is none after it either: the step records only
breaks it writes. -/
theorem Advances.not_mem_breaks (ha : Advances fs fs') (hq : q < fs.code.size) (hb : q ∉ fs.breaks) :
    q ∉ fs'.breaks := by
  obtain ⟨bs, e, hbs⟩ := ha.breaks
  rw [e, List.mem_append, not_or]
  exact ⟨fun hm => by have := hbs q hm; omega, hb⟩

/-- Patching jumps that are no breaks keeps the state tracked. -/
theorem Tracks.patched (h : Tracks names fs) (hp : Patched js t fs fs') (hb : ∀ q ∈ js, q ∉ fs.breaks) :
    Tracks names fs' := by
  obtain ⟨code, pending, rfl⟩ := hp.eq
  refine ⟨h.aligned.of_slots rfl rfl, h.names, h.uncaptured, h.depth, h.loop, fun q hq => ?_,
    fun q hq => ?_, h.room⟩
  · obtain ⟨hpq, hj⟩ := h.breaks q hq
    exact ⟨(hp.pending q).mpr ⟨hpq, fun hm => hb q hm hq⟩, by rw [hp.opcode q]; exact hj⟩
  · rw [hp.size]
    exact h.settled q ((hp.pending q).mp hq).1

/-- Patching jumps written since `fs₀` keeps the step from `fs₀`. -/
theorem Advances.patched (ha : Advances fs₀ fs) (hp : Patched js t fs fs')
    (h₀ : ∀ q ∈ fs₀.pending, q < fs₀.code.size) (hj : ∀ q ∈ js, fs₀.code.size ≤ q) :
    Advances fs₀ fs' := by
  have hs := hp.settles ha.settles fun q hq => .inl (hj q hq)
  have hk : ∀ q ∈ fs₀.pending, q ∈ fs'.pending := fun q hq =>
    (hp.pending q).mpr ⟨ha.kept q hq, fun hm => by have := hj q hm; have := h₀ q hq; omega⟩
  obtain ⟨code, pending, rfl⟩ := hp.eq
  exact ⟨hs, hk, ha.depth, ha.outer, ha.size, ha.loop, ha.breaks, ha.actives⟩

end FuncState

/-- A loop's condition that is not always true is an operator term. -/
theorem Expr.isOperatorTerm_of_isLoopTest {e : Expr} {isLocal : String → Bool}
    (hc : e.isLoopTest isLocal = true) (hat : ¬e.isAlwaysTrue = true) :
    e.isOperatorTerm isLocal = true := by
  simpa [Expr.isLoopTest, hat] using hc

namespace Compiler

open LuaBytecode.FuncState (Tracks Advances)

variable {names names' : List String} {c c' : Compiler}

/-- A block in a scope of its own: the locals it declares are gone where it ends. -/
theorem scopedWith_implements {body : CompileM Unit} {run : Nat → Scope → Flow} {line : Nat}
    (hb : Implements names names' body run) :
    Implements names names (scopedWith body line) fun k ρ => (run k ρ).close ρ.length := by
  intro c c' h hc
  obtain ⟨u, c₁, h₁, hc⟩ := run_bind_ok hc
  obtain rfl := run_modifyFs h₁
  obtain ⟨u, c₂, h₂, hc⟩ := run_bind_ok hc
  obtain ⟨ht₂, ha₂, he₂⟩ := hb _ _ (h.enterScope false) h₂
  obtain ⟨u, c₃, h₃, h₄⟩ := run_bind_ok hc
  obtain ⟨fs₃, hc₃, rfl⟩ := run_updateFs h₃
  obtain rfl := ht₂.closeOpenUpvals hc₃
  obtain ⟨fs₄, he, rfl⟩ := run_updateFs h₄
  obtain ⟨ht₄, ha₄, hcode, hpend, hconst, hbr⟩ := h.exitScope_block ha₂ ht₂ he
  refine ⟨ht₄, ha₄, fun k ρ lc m hn hpl hp hrun hpc hoc hh => ?_⟩
  subst hn
  have hf := he₂ k ρ lc m rfl hpl (hp.earlier (.of_eq hcode hpend hconst) (Nat.le_refl _)) hrun hpc
    hoc hh
  -- the flow of the block, less the locals it declared
  have hc := hf.close (ha₂.suffix (h.enterScope false) ht₂)
  rw [Scope.length_names] at hc
  show Follows _ _ fs₄.code.size fs₄.breaks k m _
  rw [hcode, hbr]
  exact hc

/-! ## Jumps -/

/-- The instruction at `q` of `p` is a jump to `t`. -/
def JumpsTo (p : Proto) (q t : Nat) : Prop :=
  ∃ i, p.code[q]? = some i ∧ i.opcode = .jmp ∧ (q : Int) + 1 + i.sbx = t

section Jumping

variable {lc : Closure} {m : Machine} {stop t t' : Nat} {bs : List Nat} {r : Flow} {ρ : Scope}

/-- A jump taken before, one step more. -/
theorem Follows.jump {q : Nat} (hj : JumpsTo lc.proto m.frame.pc q) (hr : m.Runs lc)
    (hoc : m.frame.openCells = #[])
    (h : Follows names names' stop bs t { m with frame := { m.frame with pc := q } } r)
    (ht : t' ≤ t + 1) : Follows names names' stop bs t' m r := by
  obtain ⟨i, hi, ho, hq⟩ := hj
  exact h.weaken (.single (VM.moves_jmp_closed hr hi ho hoc hq)) ((Machine.Rest.refl m).setPc _)
    (List.suffix_refl _) (fun _ => id) (by omega)

/-- A jump to the end of a statement that ends normally. -/
theorem Follows.normal_jump (hj : JumpsTo lc.proto m.frame.pc stop) (hr : m.Runs lc)
    (hoc : m.frame.openCells = #[]) (hpl : ρ.Plain) (hh : ρ.Held m.frame) (hn : ρ.names = names') :
    Follows names names' stop bs t m (.normal ρ) :=
  Follows.jump hj hr hoc ⟨0, _, .refl _, ⟨.refl _, hpl, hh.keep fun _ _ => rfl⟩, rfl, hn⟩
    (Nat.le_succ t)

/-- A `break` out of a loop's body, whose breaks all jump to the end `e` of the loop: the loop
ends there normally, the body's locals gone. -/
theorem Follows.break_exit {names₁ : List String} {e : Nat} {breaks₁ : List Nat}
    (h : Follows names names₁ stop breaks₁ t m (.brk ρ))
    (hbrk : ∀ q ∈ breaks₁, JumpsTo lc.proto q e) (hr : m.Runs lc) (hoc : m.frame.openCells = #[]) :
    Follows names names e bs t' m (.normal (ρ.close names.length)) := by
  obtain ⟨n, m₂, hs, hh₂, hpc₂, hn₂⟩ := h
  exact (Follows.normal_jump (t := t') (hbrk _ hpc₂) (hh₂.rest.runs hr)
    (hh₂.rest.openCells.trans hoc) (hh₂.plain.close _) (hh₂.held.close _)
    (Scope.names_close hn₂)).weaken hs hh₂.rest (List.suffix_refl _) (fun _ => id) (by omega)

/-- A run that takes at least `t` steps takes at least any fewer. -/
theorem Follows.timeout_of_le {names₁ names₂ : List String} {stop₁ : Nat} {bs₁ : List Nat}
    (h : Follows names₁ names₂ stop₁ bs₁ t m .timeout) (ht : t' ≤ t) :
    Follows names names' stop bs t' m .timeout := by
  obtain ⟨n, m', hs, hle⟩ := h
  exact ⟨n, m', hs, by omega⟩

end Jumping

/-! ## `while` -/

/-- What a `while` loop does from its test, by induction on the rounds left: the test, and while
it holds the body in its own scope, a jump back to the test; a false test and a `break` jump to
the end of the loop. A round takes at least one step, the jump back, so a loop that goes round
`j` times takes at least `j` steps. -/
theorem whileLoop_follows {test : Scope → Except Fault Bool} {run : Scope → Flow}
    {names₁ : List String} {lc : Closure} {s e start₁ end₁ k : Nat} {breaks₁ bs : List Nat}
    (hsuf : names <:+ names₁)
    (htest : ∀ ρ m, ρ.names = names → ρ.Plain → m.Runs lc → m.frame.pc = s →
      m.frame.openCells = #[] → ρ.Held m.frame →
      VM.Does m (test ρ) fun b m₁ => m.Rest m₁ ∧ ρ.Held m₁.frame ∧
        (b = true → m₁.frame.pc = start₁) ∧ (b = false → JumpsTo lc.proto m₁.frame.pc e))
    (hbody : ∀ ρ m, ρ.names = names → ρ.Plain → m.Runs lc → m.frame.pc = start₁ →
      m.frame.openCells = #[] → ρ.Held m.frame → Follows names names₁ end₁ breaks₁ k m (run ρ))
    (hback : JumpsTo lc.proto end₁ s) (hbrk : ∀ q ∈ breaks₁, JumpsTo lc.proto q e) :
    ∀ j ≤ k, ∀ ρ m, ρ.names = names → ρ.Plain → m.Runs lc → m.frame.pc = s →
      m.frame.openCells = #[] → ρ.Held m.frame →
      Follows names names e bs j m (whileLoop test (fun ρ => (run ρ).close ρ.length) j ρ) := by
  intro j
  induction j with
  | zero => exact fun _ _ m _ _ _ _ _ _ => ⟨0, m, .refl m, Nat.le_refl 0⟩
  | succ j ih =>
    intro hj ρ m hn hpl hrun hpc hoc hh
    refine Follows.of_does ((htest ρ m hn hpl hrun hpc hoc hh).mono fun b m₁ hb => ⟨hb.1, ?_⟩)
    obtain ⟨hr₁, hh₁, ht₁, hf₁⟩ := hb
    have hrun₁ := hr₁.runs hrun
    have hoc₁ := hr₁.openCells.trans hoc
    cases b with
    | false => exact Follows.normal_jump (hf₁ rfl) hrun₁ hoc₁ hpl hh₁ hn
    | true =>
      -- the body runs in its own scope, which ends with it
      have hbf := hbody ρ m₁ hn hpl hrun₁ (ht₁ rfl) hoc₁ hh₁
      beta_reduce
      rw [if_pos rfl]
      have hl : ρ.length = names.length := by rw [← hn, Scope.length_names]
      rw [hl]
      generalize run ρ = r at hbf
      cases r <;> dsimp only [Flow.close]
      case normal ρ' =>
        -- a normal end jumps back to the test, for the rounds left, the body's locals gone
        obtain ⟨n, m₂, hs, hh₂, hpc₂, hn₂⟩ := hbf
        have hrun₂ := hh₂.rest.runs hrun₁
        have hoc₂ := hh₂.rest.openCells.trans hoc₁
        have hnext := ih (by omega) _ { m₂ with frame := { m₂.frame with pc := s } }
          (Scope.names_close (hn₂ ▸ hsuf)) (hh₂.plain.close _) hrun₂ rfl hoc₂
          ((hh₂.held.close _).keep fun _ _ => rfl)
        exact (Follows.jump (by rw [hpc₂]; exact hback) hrun₂ hoc₂ hnext (Nat.le_refl _)).weaken
          hs hh₂.rest (List.suffix_refl _) (fun _ => id) (by omega)
      case brk ρ' => exact hbf.break_exit hbrk hrun₁ hoc₁
      case ret vs => exact hbf
      case error e => exact hbf
      case timeout => exact hbf.timeout_of_le (by omega)

/-- A jump pointed at `t` and no longer pending is in place wherever the code is. -/
theorem Placed.jumpsTo {p : Proto} {fs : FuncState} {start q t : Nat} (h : Placed p fs start)
    (hq : start ≤ q) (hp : q ∉ fs.pending)
    (hi : ∃ i, fs.code[q]? = some i ∧ i.opcode = .jmp ∧ (q : Int) + 1 + i.sbx = t) :
    JumpsTo p q t := by
  obtain ⟨i, hi, ho, ht⟩ := hi
  exact ⟨i, h.instr hq hp hi, ho, ht⟩

/-- A jump written to be patched later: the state stays tracked, with the jump pending at the
end of the code. -/
theorem emitJump_tracks {q line : Nat} (h : Tracks names c.fs)
    (he : (emitJump .jmp 0 line).run c = .ok (q, c')) :
    q = c.fs.code.size ∧ Tracks names c'.fs ∧ Advances c.fs c'.fs ∧ c'.fs.code.size = q + 1 ∧
      q ∈ c'.fs.pending ∧ (c'.fs.code[q]?).map Instruction.opcode = some .jmp ∧
      c'.fs.breaks = c.fs.breaks := by
  obtain ⟨rfl, -, bx, rfl⟩ := emitJump_spec he
  dsimp only
  have hs := FuncState.Settles.pending_push c.fs (.abx .jmp 0 bx) line
  have hsc := FuncState.emit'_scopes c.fs (.abx .jmp 0 bx) line
  have hk : ∀ q ∈ c.fs.pending, q ∈ c.fs.code.size :: c.fs.pending := fun q hq =>
    List.mem_cons_of_mem _ hq
  refine ⟨rfl, h.of_scopes hs hk hsc (by simp) fun q hq => ?_, .of_scopes hs hk hsc, by simp,
    List.mem_cons_self .., by simp [Instruction.opcode_abx], FuncState.breaks_of_scopes hsc⟩
  -- the new jump stands at the end, what was pending before it
  rcases List.mem_cons.mp hq with rfl | hq
  · simp
  · have := h.settled q hq
    simp only [FuncState.emit'_code, Array.size_push]
    omega

/-- A jump written and pointed at `t` at once, as a loop's jump back: the state stays tracked,
the code grows by the jump, and wherever the code is placed the jump goes to `t`. -/
theorem jumpBack_spec {q t line : Nat} {c₁ : Compiler} (h : Tracks names c.fs)
    (h₁ : (emitJump .jmp 0 line).run c = .ok (q, c₁)) (h₂ : (patchJump q t).run c₁ = .ok ((), c')) :
    q = c.fs.code.size ∧ Tracks names c'.fs ∧ Advances c.fs c'.fs ∧ c'.fs.code.size = q + 1 ∧
      c'.fs.breaks = c.fs.breaks ∧ ∀ p start, Placed p c'.fs start → start ≤ q → JumpsTo p q t := by
  obtain ⟨rfl, ht₁, ha₁, hsize₁, -, hop₁, hbr₁⟩ := emitJump_tracks h h₁
  obtain ⟨fs', hp, rfl⟩ := run_updateFs h₂
  have hpt := FuncState.patched_patchJump hp
  refine ⟨rfl, ht₁.patched hpt fun q hq => ?_, ha₁.patched hpt h.settled fun q hq => ?_,
    by rw [hpt.size, hsize₁], (FuncState.breaks_of_scopes hpt.scopes.1).trans hbr₁,
    fun p start hpl hq => hpl.jumpsTo hq
      (fun hm => ((hpt.pending _).mp hm).2 (List.mem_singleton_self _))
      (hpt.lands _ (List.mem_singleton_self _) hop₁)⟩
  · rw [List.mem_singleton.mp hq, hbr₁]
    exact h.not_mem_breaks (Nat.le_refl _)
  · rw [List.mem_singleton.mp hq]

section Conditions

variable {cond : Expr} {j : Nat}

/-- The code of a condition over the locals in scope: it keeps the state tracked, and from its
first instruction it tests the condition, keeping the locals, and stops at its jump when the
condition is false, or just past it when it holds. -/
theorem branchWith_tests (call : VM.Call) (hc : cond.isOperatorTerm names.contains = true)
    (h : Tracks names c.fs)
    (hb : (branchWith cond fun a n => compileExpr cond a n).run c = .ok (j, c')) :
    Branch c c' j ∧ Tracks names c'.fs ∧ Advances c.fs c'.fs ∧
      ∀ (ρ : Scope) lc m, ρ.names = names → ρ.Plain → Placed lc.proto c'.fs c.fs.code.size →
        m.Runs lc → m.frame.pc = c.fs.code.size → ρ.Held m.frame →
        VM.Does m (cond.test call ρ.value) fun b m' =>
          m.Rest m' ∧ ρ.Held m'.frame ∧ m'.frame.pc = if b then j + 1 else j := by
  obtain ⟨hbr, hu, -⟩ := @branchWith_does (Scope.value []) names.contains call c c' j
    (value_nil_plain _) cond hc h.opens hb
  refine ⟨hbr, h.of_scopes hbr.settles hbr.kept hbr.scopes hu hbr.settled,
    .of_scopes hbr.settles hbr.kept hbr.scopes, fun ρ lc m hn hpl hp hrun hpc hh => ?_⟩
  subst hn
  obtain ⟨-, -, hrun'⟩ := branchWith_does (fun s _ => hpl.value s) hc h.opens hb
  refine (hrun' lc m hp hrun hpc (h.env hh)).map fun v m' _ hv => .here ⟨hv.1.2, ?_, hv.2⟩
  -- the test keeps the registers below its temporaries, which hold the locals
  refine hh.keep fun r hr => hv.1.1 r ?_
  rw [h.usedRegs_eq, Scope.length_names]
  exact hr

/-- The test of a loop's condition: no code for a condition that is always true, which holds at
once; for any other, the code of the condition, whose jump, still pending, is taken when it is
false. -/
theorem exitTest_tests (call : VM.Call) {exit : Option Nat}
    (hc : cond.isLoopTest names.contains = true) (h : Tracks names c.fs)
    (he : (exitTest cond fun a n => compileExpr cond a n).run c = .ok (exit, c')) :
    Tracks names c'.fs ∧ Advances c.fs c'.fs ∧ c'.fs.breaks = c.fs.breaks ∧
      (∀ j ∈ exit, j ∈ c'.fs.pending ∧ c.fs.code.size ≤ j ∧
        (c'.fs.code[j]?).map Instruction.opcode = some .jmp) ∧
      ∀ (ρ : Scope) lc m, ρ.names = names → ρ.Plain → Placed lc.proto c'.fs c.fs.code.size →
        m.Runs lc → m.frame.pc = c.fs.code.size → ρ.Held m.frame →
        VM.Does m (cond.truth call ρ.value) fun b m' => m.Rest m' ∧ ρ.Held m'.frame ∧
          (b = true → m'.frame.pc = c'.fs.code.size) ∧ (b = false → ∃ j ∈ exit, m'.frame.pc = j) := by
  unfold exitTest at he
  by_cases hat : cond.isAlwaysTrue = true
  · -- no code: the condition holds at once
    rw [if_pos hat] at he
    obtain ⟨rfl, rfl⟩ := run_pure_ok he
    refine ⟨h, .refl _, rfl, fun j hj => by simp at hj, fun ρ lc m _ _ _ _ hpc hh => ?_⟩
    rw [Expr.truth, if_pos hat]
    exact .here ⟨.refl m, hh, fun _ => hpc, fun hf => absurd hf (by decide)⟩
  · rw [if_neg hat] at he
    obtain ⟨j, hb, rfl⟩ := run_map_ok he
    have hop := Expr.isOperatorTerm_of_isLoopTest hc hat
    obtain ⟨hbr, ht', ha', hrun⟩ := branchWith_tests call hop h hb
    refine ⟨ht', ha', FuncState.breaks_of_scopes hbr.scopes, fun j' hj' => ?_,
      fun ρ lc m hn hpl hp hrun' hpc hh => ?_⟩
    · obtain rfl := Option.some.inj (Option.mem_def.mp hj')
      exact ⟨hbr.mem, hbr.start, hbr.jump⟩
    · rw [Expr.truth, if_neg hat]
      refine (hrun ρ lc m hn hpl hp hrun' hpc hh).mono fun b m' hb =>
        ⟨hb.1, hb.2.1, fun ht => ?_, fun hf => ⟨j, rfl, ?_⟩⟩
      · rw [hb.2.2, if_pos ht, hbr.last]
      · simp [hb.2.2, hf]

end Conditions

/-- A `while` loop: its test, the body in a scope of its own, which is a loop for `break`, and a
jump back to the test. The test's jump and the breaks go to the end of the loop. -/
theorem whileWith_implements (call : VM.Call) {cond : Expr} {body : CompileM Unit}
    {run : Nat → Scope → Flow} {names₁ : List String} {line : Nat}
    (hc : cond.isLoopTest names.contains = true) (hb : Implements names names₁ body run) :
    Implements names names (whileWith cond (fun a n => compileExpr cond a n) body line)
      fun k ρ => whileLoop (fun ρ' => cond.truth call ρ'.value) (fun ρ' => (run k ρ').close ρ'.length)
        k ρ := by
  intro c c' h hr
  obtain ⟨start, c₀, h₀, hr₁⟩ := run_bind_ok hr
  obtain ⟨rfl, hc₀⟩ := pc_spec h₀
  subst c₀
  obtain ⟨exit, c₁, h₁, hr₂⟩ := run_bind_ok hr₁
  obtain ⟨ht₁, ha₁, hbr₁, hex, htest⟩ := exitTest_tests call hc h h₁
  obtain ⟨u, c₁', h₂, hr₃⟩ := run_bind_ok hr₂
  obtain rfl := run_modifyFs h₂
  obtain ⟨u, c₂, h₃, hr₄⟩ := run_bind_ok hr₃
  obtain ⟨ht₂, ha₂, he₂⟩ := hb _ _ (ht₁.enterScope true) h₃
  obtain ⟨u, c₂', h₄, hr₅⟩ := run_bind_ok hr₄
  obtain ⟨fs, hcl, rfl⟩ := run_updateFs h₄
  obtain rfl := ht₂.closeOpenUpvals hcl
  obtain ⟨back, c₃, h₅, hr₆⟩ := run_bind_ok hr₅
  obtain ⟨u, c₄, h₆, hr₇⟩ := run_bind_ok hr₆
  obtain ⟨u, c₅, h₇, hr₈⟩ := run_bind_ok hr₇
  obtain ⟨hback, ht₄, ha₄, hsize₄, hbr₄, hland⟩ := jumpBack_spec ht₂ h₅ h₆
  subst hback
  obtain ⟨fs₅, he₅, rfl⟩ := run_updateFs h₇
  obtain ⟨ht₅, ha₅, hs₅, hsize₅, hbr₅, hkeep₅, hbrk⟩ :=
    ht₁.exitScope_loop (ha₂.trans ha₄) ht₄ he₅
  -- the exit jump, if any, is pointed at the end of the loop
  have hfin : FuncState.Patched exit.toList fs₅.code.size fs₅ c'.fs := by
    cases exit with
    | none =>
      obtain ⟨-, rfl⟩ := run_pure_ok hr₈
      exact .nil _ _
    | some j =>
      obtain ⟨e, c₆, h₈, h₉⟩ := run_bind_ok hr₈
      obtain ⟨rfl, hc₆⟩ := pc_spec h₈
      subst c₆
      obtain ⟨fs₆, hp₆, rfl⟩ := run_updateFs h₉
      exact FuncState.patched_patchJump hp₆
  have hex' : ∀ j ∈ exit.toList, c.fs.code.size ≤ j ∧ j < c₁.fs.code.size ∧ j ∈ fs₅.pending := by
    intro j hj
    obtain ⟨hp₁, hle, -⟩ := hex j (Option.mem_toList.mp hj)
    have hlt := ht₁.settled j hp₁
    refine ⟨hle, hlt, hkeep₅ j ((ha₂.trans ha₄).kept j hp₁) fun hm => ?_⟩
    rw [hbr₄] at hm
    -- the body's breaks all come after the test
    have := ha₂.breaks_of_loop hm
    omega
  have hs₅' : fs₅.Settles c'.fs := hfin.settles (.refl _) fun j hj => .inr (hex' j hj).2.2
  refine ⟨ht₅.patched hfin fun j hj => ?_,
    (ha₁.trans ha₅).patched hfin h.settled fun j hj => (hex' j hj).1,
    fun k ρ lc m hn hpl hp hrun hpc hoc hh => ?_⟩
  · rw [hbr₅, hbr₁]
    exact h.not_mem_breaks (hex' j hj).1
  -- where the code of each part is placed
  have hp₅ : Placed lc.proto fs₅ c.fs.code.size := hp.earlier hs₅' (Nat.le_refl _)
  have hs₂₅ : c₂.fs.Settles fs₅ := ha₄.settles.trans hs₅
  have hs₁₅ : c₁.fs.Settles fs₅ :=
    (FuncState.enterScope_settles _ true).trans (ha₂.settles.trans hs₂₅)
  have hle₁ : c.fs.code.size ≤ c₁.fs.code.size := ha₁.settles.size
  have hle₂ : c₁.fs.code.size ≤ c₂.fs.code.size := ha₂.settles.size
  rw [hfin.size]
  refine whileLoop_follows (ha₂.suffix (ht₁.enterScope true) ht₂)
    (fun ρ m hn hpl hrun hpc _ hh => ?_)
    (fun ρ m hn hpl hrun hpc hoc hh => he₂ k ρ lc m hn hpl (hp₅.earlier hs₂₅ hle₁) hrun hpc hoc hh)
    (hland lc.proto c.fs.code.size (hp₅.earlier hs₅ (Nat.le_refl _)) (by omega))
    (fun q hq => ?_) k (Nat.le_refl k) ρ m hn hpl hrun hpc hoc hh
  · -- a false test jumps to the end
    refine (htest ρ lc m hn hpl (hp₅.earlier hs₁₅ (Nat.le_refl _)) hrun hpc hh).mono
      fun b m₁ hb => ⟨hb.1, hb.2.1, hb.2.2.1, fun hf => ?_⟩
    obtain ⟨j, hj, hpcj⟩ := hb.2.2.2 hf
    have hj' : j ∈ exit.toList := Option.mem_toList.mpr hj
    rw [hpcj]
    refine hp.jumpsTo (hex' j hj').1 (fun hm => ((hfin.pending j).mp hm).2 hj')
      (hfin.lands j hj' ?_)
    rw [hs₁₅.opcode j (hex' j hj').2.1]
    exact (hex j hj).2.2
  · -- a `break` jumps to the end
    rw [← hbr₄] at hq
    obtain ⟨hnp, hi⟩ := hbrk q hq
    rw [hbr₄] at hq
    refine hp₅.jumpsTo (by have := ha₂.breaks_of_loop hq; omega) hnp ?_
    rw [hsize₅]
    exact hi

/-! ## `repeat` -/

/-- What a `repeat` loop does from the start of its body, by induction on the rounds left: the
body, then the test, which sees the body's locals; a false test jumps back to the body, a true
one and a `break` leave the loop, its locals gone. -/
theorem repeatLoop_follows {body : Scope → Flow} {test : Scope → Except Fault Bool}
    {names₁ : List String} {lc : Closure} {s e end₁ k : Nat} {breaks₁ bs : List Nat}
    (hsuf : names <:+ names₁)
    (hbody : ∀ ρ m, ρ.names = names → ρ.Plain → m.Runs lc → m.frame.pc = s →
      m.frame.openCells = #[] → ρ.Held m.frame → Follows names names₁ end₁ breaks₁ k m (body ρ))
    (htest : ∀ ρ m, ρ.names = names₁ → ρ.Plain → m.Runs lc → m.frame.pc = end₁ →
      m.frame.openCells = #[] → ρ.Held m.frame →
      VM.Does m (test ρ) fun b m₁ => m.Rest m₁ ∧ ρ.Held m₁.frame ∧
        (b = true → m₁.frame.pc = e) ∧ (b = false → JumpsTo lc.proto m₁.frame.pc s))
    (hbrk : ∀ q ∈ breaks₁, JumpsTo lc.proto q e) :
    ∀ j ≤ k, ∀ ρ m, ρ.names = names → ρ.Plain → m.Runs lc → m.frame.pc = s →
      m.frame.openCells = #[] → ρ.Held m.frame →
      Follows names names e bs j m (repeatLoop body test j ρ) := by
  intro j
  induction j with
  | zero => exact fun _ _ m _ _ _ _ _ _ => ⟨0, m, .refl m, Nat.le_refl 0⟩
  | succ j ih =>
    intro hj ρ m hn hpl hrun hpc hoc hh
    have hbf := hbody ρ m hn hpl hrun hpc hoc hh
    rw [repeatLoop]
    have hl : ρ.length = names.length := by rw [← hn, Scope.length_names]
    rw [hl]
    generalize body ρ = r at hbf
    cases r
    case normal ρ' =>
      -- the test, with the body's locals still in scope
      obtain ⟨n, m₂, hs, hh₂, hpc₂, hn₂⟩ := hbf
      have hrun₂ := hh₂.rest.runs hrun
      have hoc₂ := hh₂.rest.openCells.trans hoc
      have hnames : (ρ'.close names.length).names = names := Scope.names_close (hn₂ ▸ hsuf)
      refine (Follows.of_does (t := j + 1) ((htest ρ' m₂ hn₂ hh₂.plain hrun₂ hpc₂ hoc₂ hh₂.held).mono
        fun b m₃ hb => ⟨hb.1, ?_⟩)).weaken hs hh₂.rest (List.suffix_refl _) (fun _ => id) (by omega)
      have hrun₃ := hb.1.runs hrun₂
      have hoc₃ := hb.1.openCells.trans hoc₂
      cases b with
      | true =>
        exact ⟨0, m₃, .refl _, ⟨.refl _, hh₂.plain.close _, hb.2.1.close _⟩, hb.2.2.1 rfl, hnames⟩
      | false =>
        -- a false test jumps back to the body, for the rounds left
        exact Follows.jump (hb.2.2.2 rfl) hrun₃ hoc₃
          (ih (by omega) _ _ hnames (hh₂.plain.close _) hrun₃ rfl hoc₃
            ((hb.2.1.close _).keep fun _ _ => rfl)) (Nat.le_refl _)
    case brk ρ' => exact hbf.break_exit hbrk hrun hoc
    case ret vs => exact hbf
    case error e => exact hbf
    case timeout => exact hbf.timeout_of_le (by omega)

section Conditions

variable {cond : Expr}

/-- The test that ends a `repeat` loop: no code for a condition that is always true, which holds
at once; for any other, the code of the condition, whose jump goes back to `start` when it is
false. -/
theorem untilTest_tests (call : VM.Call) {start : Nat} (hc : cond.isLoopTest names.contains = true)
    (h : Tracks names c.fs)
    (hu : (untilTest cond (fun a n => compileExpr cond a n) start).run c = .ok ((), c')) :
    Tracks names c'.fs ∧ Advances c.fs c'.fs ∧ c'.fs.breaks = c.fs.breaks ∧
      ∀ (ρ : Scope) lc m, ρ.names = names → ρ.Plain → Placed lc.proto c'.fs c.fs.code.size →
        m.Runs lc → m.frame.pc = c.fs.code.size → ρ.Held m.frame →
        VM.Does m (cond.truth call ρ.value) fun b m' => m.Rest m' ∧ ρ.Held m'.frame ∧
          (b = true → m'.frame.pc = c'.fs.code.size) ∧
          (b = false → JumpsTo lc.proto m'.frame.pc start) := by
  unfold untilTest at hu
  by_cases hat : cond.isAlwaysTrue = true
  · -- no code: the condition holds at once
    rw [if_pos hat] at hu
    obtain ⟨-, rfl⟩ := run_pure_ok hu
    refine ⟨h, .refl _, rfl, fun ρ lc m _ _ _ _ hpc hh => ?_⟩
    rw [Expr.truth, if_pos hat]
    exact .here ⟨.refl m, hh, fun _ => hpc, fun hf => absurd hf (by decide)⟩
  · rw [if_neg hat] at hu
    have hop := Expr.isOperatorTerm_of_isLoopTest hc hat
    obtain ⟨j, c₁, h₁, hu₁⟩ := run_bind_ok hu
    obtain ⟨hbr, ht₁, ha₁, hrun⟩ := branchWith_tests call hop h h₁
    obtain ⟨a, c₂, h₂, hu₂⟩ := run_bind_ok hu₁
    obtain ⟨-, hc₂⟩ := run_readFs h₂
    subst c₂
    obtain ⟨u, c₃, h₃, h₄⟩ := run_bind_ok hu₂
    obtain ⟨fs₃, hsa, rfl⟩ := run_updateFs h₃
    obtain ⟨fs₄, hpj, rfl⟩ := run_updateFs h₄
    have hp := FuncState.patched_setJumpA hsa hpj
    have hbr₁ : c₁.fs.breaks = c.fs.breaks := FuncState.breaks_of_scopes hbr.scopes
    have hj : j ∉ fs₄.pending := fun hm => ((hp.pending j).mp hm).2 (List.mem_singleton_self j)
    refine ⟨ht₁.patched hp fun q hq => ?_, ha₁.patched hp h.settled fun q hq => ?_,
      (FuncState.breaks_of_scopes hp.scopes.1).trans hbr₁, fun ρ lc m hn hpl hpl' hrun' hpc hh => ?_⟩
    · rw [List.mem_singleton.mp hq, hbr₁]
      exact h.not_mem_breaks hbr.start
    · rw [List.mem_singleton.mp hq]
      exact hbr.start
    · rw [Expr.truth, if_neg hat]
      have hs₁ : c₁.fs.Settles fs₄ := hp.settles (.refl _) fun q hq => .inr (List.mem_singleton.mp hq ▸ hbr.mem)
      refine (hrun ρ lc m hn hpl (hpl'.earlier hs₁ (Nat.le_refl _)) hrun' hpc hh).mono
        fun b m' hb => ⟨hb.1, hb.2.1, fun ht => ?_, fun hf => ?_⟩
      · rw [hb.2.2, if_pos ht, hp.size, hbr.last]
      · rw [hb.2.2, hf]
        exact hpl'.jumpsTo hbr.start hj (hp.lands j (List.mem_singleton_self j) hbr.jump)

end Conditions

/-- A `repeat` loop whose condition is compiled as an expression: the body in a scope of its own,
which is a loop for `break`, then the test, in the body's scope, jumping back to the body while
the condition is false. -/
theorem repeatBody_implements (call : VM.Call) {cond : Expr} {body : CompileM Unit}
    {run : Nat → Scope → Flow} {names₁ : List String} {line : Nat}
    (hc : cond.isLoopTest names₁.contains = true) (hb : Implements names names₁ body run) :
    Implements names names (do
        modifyFs (·.enterScope true)
        let start ← pc
        body
        untilTest cond (fun a n => compileExpr cond a n) start
        updateFs (·.closeOpenUpvals line)
        updateFs FuncState.exitScope)
      fun k ρ => repeatLoop (run k) (fun ρ' => cond.truth call ρ'.value) k ρ := by
  intro c c' h hr
  obtain ⟨u, c₁, h₁, hr₁⟩ := run_bind_ok hr
  obtain rfl := run_modifyFs h₁
  obtain ⟨start, c₂, h₂, hr₂⟩ := run_bind_ok hr₁
  obtain ⟨rfl, hc₂⟩ := pc_spec h₂
  subst c₂
  obtain ⟨u, c₃, h₃, hr₃⟩ := run_bind_ok hr₂
  obtain ⟨ht₃, ha₃, he₃⟩ := hb _ _ (h.enterScope true) h₃
  obtain ⟨u, c₄, h₄, hr₄⟩ := run_bind_ok hr₃
  obtain ⟨ht₄, ha₄, hbr₄, htest⟩ := untilTest_tests call hc ht₃ h₄
  obtain ⟨u, c₅, h₅, hr₅⟩ := run_bind_ok hr₄
  obtain ⟨fs, hcl, rfl⟩ := run_updateFs h₅
  obtain rfl := ht₄.closeOpenUpvals hcl
  obtain ⟨fs₆, he₆, rfl⟩ := run_updateFs hr₅
  obtain ⟨ht₆, ha₆, hs₆, hsize₆, -, -, hbrk⟩ := h.exitScope_loop (ha₃.trans ha₄) ht₄ he₆
  refine ⟨ht₆, ha₆, fun k ρ lc m hn hpl hp hrun hpc hoc hh => ?_⟩
  -- where the code of each part is placed
  have hp₄ : Placed lc.proto c₄.fs c.fs.code.size := hp.earlier hs₆ (Nat.le_refl _)
  have hle₃ : c.fs.code.size ≤ c₃.fs.code.size := ha₃.settles.size
  show Follows names names fs₆.code.size fs₆.breaks k m _
  rw [hsize₆]
  refine repeatLoop_follows (ha₃.suffix (h.enterScope true) ht₃)
    (fun ρ m hn hpl hrun hpc hoc hh =>
      he₃ k ρ lc m hn hpl (hp₄.earlier ha₄.settles (Nat.le_refl _)) hrun hpc hoc hh)
    (fun ρ m hn hpl hrun hpc _ hh =>
      htest ρ lc m hn hpl (hp₄.earlier (.refl _) hle₃) hrun hpc hh)
    (fun q hq => ?_) k (Nat.le_refl k) ρ m hn hpl hrun hpc hoc hh
  -- a `break` jumps to the end
  have hq₃ : c.fs.code.size ≤ q := ha₃.breaks_of_loop hq
  rw [← hbr₄] at hq
  obtain ⟨hnp, hi⟩ := hbrk q hq
  exact hp.jumpsTo hq₃ hnp hi

/-- A `repeat` loop: its nil condition is compiled as `false`, which it means. -/
theorem repeatWith_implements (call : VM.Call) {cond : Expr} {body : CompileM Unit}
    {run : Nat → Scope → Flow} {names₁ : List String} {line : Nat}
    (hc : cond.isLoopTest names₁.contains = true) (hb : Implements names names₁ body run) :
    Implements names names (repeatWith body cond (fun a n => compileExpr cond a n) line)
      fun k ρ => repeatLoop (run k) (fun ρ' => cond.truth call ρ'.value) k ρ := by
  unfold repeatWith
  split
  rename_i cond' compile' heq
  split at heq
  · -- a nil condition is compiled as `false`, and is as false
    rename_i l
    obtain ⟨rfl, rfl⟩ := Prod.mk.inj heq
    have ht : ∀ σ, (Expr.nil l).truth call σ = (Expr.bool false l).truth call σ := fun _ => rfl
    simp only [ht]
    exact repeatBody_implements call rfl hb
  · obtain ⟨rfl, rfl⟩ := Prod.mk.inj heq
    exact repeatBody_implements call hc hb

/-! ## `if` -/

/-- A flow that goes on to nothing more is itself. -/
@[simp] theorem Flow.andThen_normal (r : Flow) : r.andThen .normal = r := by
  cases r <;> rfl

/-- The jump that ends a clause of an `if` when another clause or an `else` block follows. -/
theorem exitJump_spec {needed : Bool} {line : Nat} {exit : Option Nat} (h : Tracks names c.fs)
    (he : (exitJump needed line).run c = .ok (exit, c')) :
    Tracks names c'.fs ∧ Advances c.fs c'.fs ∧ c'.fs.breaks = c.fs.breaks ∧
      (∀ x ∈ exit, x = c.fs.code.size ∧ c'.fs.code.size = x + 1 ∧ x ∈ c'.fs.pending ∧
        (c'.fs.code[x]?).map Instruction.opcode = some .jmp) ∧
      (exit = none → needed = false ∧ c' = c) := by
  unfold exitJump at he
  split at he
  · obtain ⟨x, hx, rfl⟩ := run_map_ok he
    obtain ⟨rfl, ht, ha, hsize, hp, hop, hbr⟩ := emitJump_tracks h hx
    refine ⟨ht, ha, hbr, fun y hy => ?_, fun hn => by simp at hn⟩
    obtain rfl := Option.some.inj (Option.mem_def.mp hy)
    exact ⟨rfl, hsize, hp, hop⟩
  · obtain ⟨rfl, rfl⟩ := run_pure_ok he
    rename_i hn
    exact ⟨h, .refl _, rfl, fun x hx => by simp at hx, fun _ => ⟨by simpa using hn, rfl⟩⟩

/-- The code compiled from `c` to `c'` for clauses of an `if` chooses among them as `sem` says:
the state stays tracked; the jumps `js` to the end of the `if`, written by the clauses that need
one, are still pending and are no breaks; and from its first instruction, once the jumps go to the
end `E` of the `if`, the code does what `sem k ρ next` says, where `next` is what the code after
the clauses does from their end. When nothing follows the clauses (`more` is false), their end is
the end of the `if`. -/
structure Chooses (names : List String) (more : Bool) (c c' : Compiler) (js : List Nat)
    (sem : Nat → Scope → Flow → Flow) : Prop where
  tracks : Tracks names c'.fs
  advances : Advances c.fs c'.fs
  exits : ∀ x ∈ js, c.fs.code.size ≤ x ∧ x ∈ c'.fs.pending ∧ x ∉ c'.fs.breaks ∧
    (c'.fs.code[x]?).map Instruction.opcode = some .jmp
  runs : ∀ (k : Nat) (ρ : Scope) (lc : Closure) (m : Machine) (E : Nat) (next : Flow)
    (bs : List Nat), ρ.names = names → ρ.Plain → Placed lc.proto c'.fs c.fs.code.size →
    m.Runs lc → m.frame.pc = c.fs.code.size → m.frame.openCells = #[] → ρ.Held m.frame →
    (∀ x ∈ js, JumpsTo lc.proto x E) → (more = false → c'.fs.code.size = E) →
    (∀ q ∈ c'.fs.breaks, q ∈ bs) →
    (∀ m', m.Rest m' → ρ.Held m'.frame → m'.frame.pc = c'.fs.code.size →
      Follows names names E bs k m' next) →
    Follows names names E bs k m (sem k ρ next)

/-- Compiled from any tracked state, `act` chooses among clauses as `sem` says. -/
def ImplementsChoice (names : List String) (more : Bool) (act : CompileM (List Nat))
    (sem : Nat → Scope → Flow → Flow) : Prop :=
  ∀ c c' js, Tracks names c.fs → act.run c = .ok (js, c') → Chooses names more c c' js sem

namespace Chooses

variable {more more₁ more₂ : Bool} {c₁ c₂ : Compiler} {js js₁ js₂ : List Nat}
  {sem sem₁ sem₂ : Nat → Scope → Flow → Flow}

/-- No clause: what follows runs at once. -/
theorem nil (h : Tracks names c.fs) : Chooses names more c c [] fun _ _ next => next :=
  ⟨h, .refl _, by simp, fun _ _ _ m _ _ _ _ _ _ _ hpc _ hh _ _ _ hnext => hnext m (.refl m) hh hpc⟩

/-- The jumps to the end stay pending, and no breaks, past a step after the clauses. -/
theorem exits_after (h : Chooses names more c c₁ js sem) (ha : Advances c₁.fs c₂.fs) :
    ∀ x ∈ js, c.fs.code.size ≤ x ∧ x ∈ c₂.fs.pending ∧ x ∉ c₂.fs.breaks ∧
      (c₂.fs.code[x]?).map Instruction.opcode = some .jmp := by
  intro x hx
  obtain ⟨hle, hp, hnb, hop⟩ := h.exits x hx
  have hlt := h.tracks.settled x hp
  exact ⟨hle, ha.kept x hp, ha.not_mem_breaks hlt hnb, by rw [ha.settles.opcode x hlt]; exact hop⟩

/-- Clauses, then more clauses, which run when none of the first ones is chosen. -/
theorem append (h₁ : Chooses names more₁ c c₁ js₁ sem₁) (h₂ : Chooses names more₂ c₁ c₂ js₂ sem₂)
    (hmore : more₁ = false → more₂ = false ∧ c₂.fs.code.size = c₁.fs.code.size) :
    Chooses names more₂ c c₂ (js₁ ++ js₂) fun k ρ next => sem₁ k ρ (sem₂ k ρ next) where
  tracks := h₂.tracks
  advances := h₁.advances.trans h₂.advances
  exits x hx := by
    rcases List.mem_append.mp hx with hx | hx
    · -- a jump of the first clauses stays pending past the others
      exact h₁.exits_after h₂.advances x hx
    · obtain ⟨hle, hrest⟩ := h₂.exits x hx
      exact ⟨Nat.le_trans h₁.advances.settles.size hle, hrest⟩
  runs k ρ lc m E next bs hn hpl hp hrun hpc hoc hh hjs hend hbs hnext := by
    have hle : c.fs.code.size ≤ c₁.fs.code.size := h₁.advances.settles.size
    refine h₁.runs k ρ lc m E (sem₂ k ρ next) bs hn hpl (hp.earlier h₂.advances.settles (Nat.le_refl _))
      hrun hpc hoc hh (fun x hx => hjs x (List.mem_append_left _ hx))
      (fun hm => (hmore hm).2.symm.trans (hend (hmore hm).1))
      (fun _ hq => hbs _ (h₂.advances.mem_breaks hq))
      fun m' hr' hh' hpc' => h₂.runs k ρ lc m' E next bs hn hpl (hp.earlier (.refl _) hle)
        (hr'.runs hrun) hpc' (hr'.openCells.trans hoc) hh'
        (fun x hx => hjs x (List.mem_append_right _ hx)) hend hbs
        fun m'' hr'' hh'' hpc'' => hnext m'' (hr'.trans hr'') hh'' hpc''

/-- The clauses, then the code of the `else` block compiled from `c₁` to `c₂`, then their jumps
pointed at its end: the whole `if`. -/
theorem finish {elseRun : Nat → Scope → Flow} (h : Tracks names c.fs)
    (hch : Chooses names more c c₁ js sem) (ht : Tracks names c₂.fs) (ha : Advances c₁.fs c₂.fs)
    (he : Executes names names c₁ c₂ elseRun)
    (hend : more = false → c₂.fs.code.size = c₁.fs.code.size)
    (hp : (patchAll js c₂.fs.code.size).run c₂ = .ok ((), c')) :
    Tracks names c'.fs ∧ Advances c.fs c'.fs ∧
      Executes names names c c' fun k ρ => sem k ρ (elseRun k ρ) := by
  obtain ⟨hpt, -⟩ := patchAll_patched hp
  -- the jumps to the end are still pending past the `else` block, and are no breaks
  have hjs := hch.exits_after ha
  have hs₂ : c₂.fs.Settles c'.fs := hpt.settles (.refl _) fun x hx => .inr (hjs x hx).2.1
  have hbr : c'.fs.breaks = c₂.fs.breaks := FuncState.breaks_of_scopes hpt.scopes.1
  refine ⟨ht.patched hpt fun x hx => (hjs x hx).2.2.1,
    (hch.advances.trans ha).patched hpt h.settled fun x hx => (hjs x hx).1,
    fun k ρ lc m hn hpl hp hrun hpc hoc hh => ?_⟩
  have hle : c.fs.code.size ≤ c₁.fs.code.size := hch.advances.settles.size
  show Follows names names c'.fs.code.size c'.fs.breaks k m (sem k ρ (elseRun k ρ))
  rw [hpt.size, hbr]
  refine hch.runs k ρ lc m c₂.fs.code.size (elseRun k ρ) c₂.fs.breaks hn hpl
    (hp.earlier (ha.settles.trans hs₂) (Nat.le_refl _)) hrun hpc hoc hh
    (fun x hx => hp.jumpsTo (hjs x hx).1 (fun hm => ((hpt.pending x).mp hm).2 hx)
      (hpt.lands x hx (hjs x hx).2.2.2))
    (fun hm => (hend hm).symm) (fun _ hq => ha.mem_breaks hq)
    fun m' hr' hh' hpc' => he k ρ lc m' hn hpl (hp.earlier hs₂ hle) (hr'.runs hrun) hpc'
      (hr'.openCells.trans hoc) hh'

end Chooses

/-- One clause of an `if`: its test, whose jump, pointed past the clause, is taken when the
condition is false; then its block in a scope of its own, which ends with a jump to the end of the
`if` when more follows. -/
theorem clauseWith_chooses (call : VM.Call) {cond : Expr} {body : CompileM Unit}
    {run : Nat → Scope → Flow} {names₁ : List String} {bodyLine : Nat} {needed : Bool}
    {exit : Option Nat} (hc : cond.isOperatorTerm names.contains = true)
    (hb : Implements names names₁ body run) (h : Tracks names c.fs)
    (hr : (clauseWith cond (fun a n => compileExpr cond a n) body bodyLine needed).run c =
      .ok (exit, c')) :
    Chooses names needed c c' exit.toList fun k ρ next =>
      Flow.ofOutcome (cond.test call ρ.value) fun b => if b then (run k ρ).close ρ.length else next := by
  obtain ⟨skip, c₁, h₁, hr₁⟩ := run_bind_ok hr
  obtain ⟨hbr, ht₁, ha₁, htest⟩ := branchWith_tests call hc h h₁
  obtain ⟨u, c₂, h₂, hr₂⟩ := run_bind_ok hr₁
  obtain ⟨ht₂, ha₂, he₂⟩ := scopedWith_implements hb c₁ c₂ ht₁ h₂
  obtain ⟨exit', c₃, h₃, hr₃⟩ := run_bind_ok hr₂
  obtain ⟨ht₃, ha₃, hbr₃, hex₃, hnone₃⟩ := exitJump_spec ht₂ h₃
  obtain ⟨t, c₃', h₄, hr₄⟩ := run_bind_ok hr₃
  obtain ⟨rfl, hc₃⟩ := pc_spec h₄
  subst c₃'
  obtain ⟨u, c₄, h₅, hr₅⟩ := run_bind_ok hr₄
  obtain ⟨fs₄, hp₄, rfl⟩ := run_updateFs h₅
  obtain ⟨rfl, rfl⟩ := run_pure_ok hr₅
  have hp := FuncState.patched_patchJump hp₄
  have hle₁ : c₁.fs.code.size ≤ c₂.fs.code.size := ha₂.settles.size
  have hlast := hbr.last
  -- the test's jump lies before the block, whose breaks come after it
  have hskip : skip ∉ c₃.fs.breaks := by
    rw [hbr₃]
    refine ha₂.not_mem_breaks (by omega) ?_
    rw [FuncState.breaks_of_scopes hbr.scopes]
    exact h.not_mem_breaks hbr.start
  have hbr₄ : fs₄.breaks = c₂.fs.breaks := (FuncState.breaks_of_scopes hp.scopes.1).trans hbr₃
  refine ⟨ht₃.patched hp fun q hq => by rw [List.mem_singleton.mp hq]; exact hskip,
    (ha₁.trans (ha₂.trans ha₃)).patched hp h.settled fun q hq => ?_, fun x hx => ?_,
    fun k ρ lc m E next bs hn hpl hpl' hrun hpc hoc hh hjs hend hbs hnext => ?_⟩
  · rw [List.mem_singleton.mp hq]
    exact hbr.start
  · -- the jump to the end stands right after the block
    obtain ⟨hx₂, -, hp₃, hop₃⟩ := hex₃ x (Option.mem_toList.mp hx)
    have hne : x ≠ skip := by omega
    refine ⟨by have := ha₁.settles.size; omega, (hp.pending x).mpr ⟨hp₃, by simpa using hne⟩,
      by rw [hbr₄]; exact ht₂.not_mem_breaks (Nat.le_of_eq hx₂.symm),
      by rw [hp.opcode x]; exact hop₃⟩
  · have hs₁ : c₁.fs.Settles fs₄ :=
      hp.settles (ha₂.settles.trans ha₃.settles) fun q hq => .inr (List.mem_singleton.mp hq ▸ hbr.mem)
    refine Follows.of_does ((htest ρ lc m hn hpl (hpl'.earlier hs₁ (Nat.le_refl _)) hrun hpc
      hh).mono fun b m₁ hb => ⟨hb.1, ?_⟩)
    have hrun₁ := hb.1.runs hrun
    have hoc₁ := hb.1.openCells.trans hoc
    cases b with
    | true =>
      -- the block, then the jump to the end, if any
      rw [if_pos rfl]
      have hf := he₂ k ρ lc m₁ hn hpl (hpl'.earlier (hp.settles ha₃.settles fun q hq => .inr
        (List.mem_singleton.mp hq ▸ ha₂.kept _ hbr.mem)) (by have := hbr.start; omega)) hrun₁
        (by rw [hb.2.2, if_pos rfl, hlast]) hoc₁ hb.2.1
      rw [← Flow.andThen_normal ((run k ρ).close ρ.length)]
      refine hf.andThen (List.suffix_refl _) (fun q hq => hbs q (hbr₄ ▸ hq))
        fun ρ' m₂ hh₂ hpc₂ hn₂ => ?_
      cases exit with
      | some x =>
        obtain ⟨rfl, -⟩ := hex₃ x rfl
        exact Follows.normal_jump (by rw [hpc₂]; exact hjs _ (List.mem_singleton_self _))
          (hh₂.rest.runs hrun₁) (hh₂.rest.openCells.trans hoc₁) hh₂.plain hh₂.held hn₂
      | none =>
        -- the last clause, with nothing after it: its block ends the `if`
        obtain ⟨hneed, rfl⟩ := hnone₃ rfl
        refine ⟨0, m₂, .refl _, ⟨.refl _, hh₂.plain, hh₂.held⟩, ?_, hn₂⟩
        rw [hpc₂, ← hend hneed, hp.size]
    | false =>
      -- the test's jump goes past the clause, where what follows runs
      rw [if_neg Bool.false_ne_true]
      have hj : JumpsTo lc.proto m₁.frame.pc c₃.fs.code.size := by
        rw [hb.2.2, if_neg Bool.false_ne_true]
        exact hpl'.jumpsTo hbr.start (fun hm => ((hp.pending skip).mp hm).2
          (List.mem_singleton_self _)) (hp.lands skip (List.mem_singleton_self _)
            (by rw [(ha₂.settles.trans ha₃.settles).opcode skip (by omega)]; exact hbr.jump))
      exact Follows.jump hj hrun₁ hoc₁ (hnext _ (hb.1.trans ((Machine.Rest.refl m₁).setPc _))
        (hb.2.1.keep fun _ _ => rfl) hp.size.symm) (Nat.le_succ k)

end Compiler

end LuaBytecode
