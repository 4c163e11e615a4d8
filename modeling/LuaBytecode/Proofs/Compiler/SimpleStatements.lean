import LuaBytecode.Proofs.Compiler.Flows
/-!
# Declarations, assignments, `return` and `break`

The statements of a structured block that do not branch, each shown to implement its meaning
(`Compiler.Implements`, over `Stmt.exec`):

* `localDecl_implements`: the values go to the registers above the locals, one operator term
  each, with `nil` for the missing ones; trailing `nil` literals past the names are dropped
  unevaluated (`keptValues`), which their meaning allows since `nil` cannot fail
  (`evalAll_keptValues`); the new names then take those registers;
* `assign_implements`: the same values, then one `move` per name, in order, so that a name
  assigned twice keeps its last value;
* `return_implements`: no value, a name's own register, or the values in fresh registers;
* `break_implements`: a jump recorded as a break of the innermost loop.
-/

namespace LuaBytecode

/-! ## Values given to names -/

/-- Past at least the length of a list less its longest suffix whose elements satisfy `p`,
every element satisfies `p`. -/
theorem List.of_mem_drop_trailing {α : Type} {p : α → Bool} {l : List α} {n : Nat} {v : α}
    (hv : v ∈ l.drop (max (l.length - (l.reverse.takeWhile p).length) n)) : p v = true := by
  have e : l = (l.reverse.dropWhile p).reverse ++ (l.reverse.takeWhile p).reverse := by
    rw [← List.reverse_append, List.takeWhile_append_dropWhile, List.reverse_reverse]
  have hlen : (l.reverse.dropWhile p).reverse.length = l.length - (l.reverse.takeWhile p).length := by
    have hl : (l.reverse.takeWhile p).length + (l.reverse.dropWhile p).length = l.length := by
      rw [← List.length_append, List.takeWhile_append_dropWhile, List.length_reverse]
    rw [List.length_reverse]
    omega
  have hd : ((l.reverse.dropWhile p).reverse ++ (l.reverse.takeWhile p).reverse).drop
      (l.length - (l.reverse.takeWhile p).length) = (l.reverse.takeWhile p).reverse :=
    List.drop_left' hlen
  rw [← e] at hd
  have hv' : v ∈ l.drop (l.length - (l.reverse.takeWhile p).length) :=
    List.drop_subset_drop_left l (Nat.le_max_left _ n) hv
  rw [hd, List.mem_reverse] at hv'
  exact List.mem_takeWhile_imp hv'


/-- Padding with `nil`s that the names pad with anyway changes nothing. -/
theorem adjustTo_append_nils (n j : Nat) (vs : List Value) :
    adjustTo n (vs ++ List.replicate j .nil) = adjustTo n vs := by
  simp only [adjustTo, List.append_assoc, List.take_append, List.replicate_append_replicate]
  congr 1
  rw [List.take_replicate, List.take_replicate]
  congr 1
  omega

/-- The value the `i`-th of `n` names takes. -/
theorem getD_adjustTo {n i : Nat} {vs : List Value} (hi : i < n) :
    (adjustTo n vs).getD i .nil = vs.getD i .nil := by
  simp only [adjustTo, List.getD_eq_getElem?_getD, List.getElem?_take, if_pos hi,
    List.getElem?_append]
  split
  · rfl
  · rename_i h
    have hn : vs[i]? = none := List.getElem?_eq_none (by omega)
    simp [hn]

@[simp] theorem length_adjustTo (n : Nat) (vs : List Value) : (adjustTo n vs).length = n := by
  simp [adjustTo]

/-- Names given values that are no tables hold no tables. -/
theorem plain_adjustTo {n : Nat} {vs : List Value} (h : ∀ v ∈ vs, v.isTable = false) :
    ∀ v ∈ adjustTo n vs, v.isTable = false := by
  intro v hv
  rcases List.mem_append.mp (List.mem_of_mem_take hv) with hv | hv
  · exact h v hv
  · rw [List.eq_of_mem_replicate hv]
    rfl

namespace Scope

@[simp] theorem names_assignAll {ρ : Scope} : ∀ {ss : List String} {vs : List Value},
    (ρ.assignAll ss vs).names = ρ.names
  | [], _ => rfl
  | _ :: _, [] => rfl
  | s :: ss, v :: vs => by
    rw [assignAll, names_assignAll, names_assign]

theorem Plain.assignAll {ρ : Scope} (h : ρ.Plain) : ∀ {ss : List String} {vs : List Value},
    (∀ v ∈ vs, v.isTable = false) → (ρ.assignAll ss vs).Plain
  | [], _, _ => h
  | _ :: _, [], _ => h
  | s :: ss, v :: vs, hv => by
    rw [Scope.assignAll]
    exact (h.assign (hv v List.mem_cons_self)).assignAll fun w hw => hv w (List.mem_cons_of_mem _ hw)

end Scope

namespace Expr

variable {call : VM.Call} {σ : String → Value}

theorem length_filterMap_nameOf : ∀ {ts : List Expr}, (∀ t ∈ ts, t.nameOf?.isSome = true) →
    (ts.filterMap nameOf?).length = ts.length
  | [], _ => rfl
  | t :: ts, h => by
    obtain ⟨s, hs⟩ := Option.isSome_iff_exists.mp (h t List.mem_cons_self)
    simp [hs, length_filterMap_nameOf fun u hu => h u (List.mem_cons_of_mem _ hu)]

theorem isMultiValued_of_isOperatorTerm {isLocal : String → Bool} {e : Expr}
    (h : e.isOperatorTerm isLocal = true) : e.isMultiValued = false := by
  cases e with
  | vararg | call | method => simp [Expr.isOperatorTerm] at h
  | _ => rfl

theorem isCall_of_isOperatorTerm {isLocal : String → Bool} {e : Expr}
    (h : e.isOperatorTerm isLocal = true) : e.isCall = false := by
  cases e with
  | call | method => simp [Expr.isOperatorTerm] at h
  | _ => rfl

/-- Values followed by `nil` literals: the literals evaluate to `nil`. -/
theorem evalAll_append_nils {ys : List Expr} (hy : ∀ y ∈ ys, ∃ l, y = .nil l) (xs : List Expr) :
    evalAll call σ (xs ++ ys) = (evalAll call σ xs).map (· ++ List.replicate ys.length .nil) := by
  induction xs with
  | nil =>
    induction ys with
    | nil => rfl
    | cons y ys ih =>
      obtain ⟨l, rfl⟩ := hy y List.mem_cons_self
      have ih := ih fun z hz => hy z (List.mem_cons_of_mem _ hz)
      simp only [List.nil_append, evalAll, Except.map] at ih ⊢
      rw [ih]
      rfl
  | cons x xs ih =>
    simp only [List.cons_append, evalAll, ih]
    cases (x.evalOp call σ).outcome <;> cases evalAll call σ xs <;> rfl

end Expr

namespace Compiler

variable {n : Nat} {values : List Expr}

theorem keptValues_le_length : keptValues n values ≤ values.length := by
  unfold keptValues
  dsimp only
  split
  · exact Nat.le_refl _
  · omega

/-- The values past the kept ones are trailing `nil` literals. -/
theorem nil_of_mem_drop_keptValues {v : Expr} (hv : v ∈ values.drop (keptValues n values)) :
    ∃ l, v = .nil l := by
  unfold keptValues at hv
  dsimp only at hv
  split at hv
  · simp at hv
  · have hnil := List.of_mem_drop_trailing hv
    cases v with
    | nil l => exact ⟨l, rfl⟩
    | _ => simp at hnil

/-- Dropping the values past the kept ones drops `nil`s from the values. -/
theorem evalAll_keptValues (call : VM.Call) (σ : String → Value) :
    Expr.evalAll call σ values = (Expr.evalAll call σ (values.take (keptValues n values))).map
      (· ++ List.replicate (values.length - keptValues n values) .nil) := by
  conv_lhs => rw [← List.take_append_drop (keptValues n values) values]
  rw [Expr.evalAll_append_nils (fun y hy => nil_of_mem_drop_keptValues hy), List.length_drop]

/-- Operator terms are compiled one into each fresh register, and the values past the kept
ones are not compiled at all. -/
theorem adjustValues_terms {nVars kept line : Nat} : ∀ (values : List Expr) (i : Nat),
    (∀ v ∈ values, v.isMultiValued = false) →
    adjustValues nVars kept line values i =
      (intoFresh line ((values.take (kept - i)).map fun x r => compileExpr x r 1) >>= fun _ => pure false)
  | [], i, _ => by simp [adjustValues, intoFresh]
  | v :: rest, i, hv => by
    have hv₁ : v.isMultiValued = false := hv v List.mem_cons_self
    have ih := @adjustValues_terms nVars kept line rest (i + 1) fun w hw => hv w (List.mem_cons_of_mem v hw)
    rw [adjustValues]
    by_cases hi : i ≥ kept
    · simp [hi, show kept - i = 0 by omega, intoFresh]
    · rw [show kept - i = (kept - (i + 1)) + 1 by omega]
      simp [hi, hv₁, intoFresh, ih]

end Compiler

/-! ## Filling registers with `nil` -/

namespace FuncState

variable {line : Nat}

/-- Taking `n` registers changes only the registers in use. -/
theorem allocRegs_eq {fs fs' : FuncState} {n first : Nat}
    (h : fs.allocRegs n line = .ok (fs', first)) :
    first = fs.usedRegs ∧ ∃ maxRegs, fs' = { fs with usedRegs := fs.usedRegs + n, maxRegs } := by
  simp only [FuncState.allocRegs] at h
  -- each round of the loop takes one register
  have hgo : ∀ k (fs₀ fs₁ : FuncState), FuncState.allocRegs.go line fs₀ k = .ok fs₁ →
      ∃ maxRegs, fs₁ = { fs₀ with usedRegs := fs₀.usedRegs + k, maxRegs } := by
    intro k
    induction k with
    | zero => intro fs₀ fs₁ hk; cases hk; exact ⟨fs₀.maxRegs, rfl⟩
    | succ k ih =>
      intro fs₀ fs₁ hk
      simp only [FuncState.allocRegs.go] at hk
      obtain ⟨⟨fs₂, r⟩, h₁, h₂⟩ := except_bind_ok hk
      obtain ⟨-, -, rfl⟩ := FuncState.allocReg_ok h₁
      obtain ⟨maxRegs, rfl⟩ := ih _ _ h₂
      exact ⟨maxRegs, by simp only [Nat.add_assoc, Nat.add_comm 1 k]⟩
  cases hg : FuncState.allocRegs.go line fs n with
  | error e => rw [hg] at h; cases h
  | ok g =>
    rw [hg] at h
    cases h
    exact ⟨rfl, hgo n fs _ hg⟩

/-- Locals declared in order at a boundary: the last is the innermost name in scope. -/
theorem Tracks.addLocals {names : List String} :
    ∀ {ns : List String} {c c' : Compiler}, Tracks names c.fs →
      (Compiler.addLocals ns line).run c = .ok ((), c') →
      Tracks (ns.reverse ++ names) c'.fs ∧ Advances c.fs c'.fs ∧
        c'.fs.code = c.fs.code ∧ c'.fs.pending = c.fs.pending ∧ c'.fs.constants = c.fs.constants
  | [], c, c', h, ha => by
    obtain ⟨-, rfl⟩ := Compiler.run_pure_ok ha
    exact ⟨h, .refl _, rfl, rfl, rfl⟩
  | n :: ns, c, c', h, ha => by
    obtain ⟨r, c₁, h₁, h₂⟩ := Compiler.run_bind_ok ha
    obtain ⟨fs₁, hl, rfl⟩ := Compiler.run_onFs h₁
    obtain ⟨ht₁, ha₁, hc₁, hp₁, hk₁, -⟩ := h.addLocal hl
    obtain ⟨ht₂, ha₂, hc₂, hp₂, hk₂⟩ := Tracks.addLocals ht₁ h₂
    refine ⟨by simpa using ht₂, ha₁.trans ha₂, hc₂.trans hc₁, hp₂.trans hp₁, hk₂.trans hk₁⟩

/-- An instruction appended at a boundary keeps the state tracked. -/
theorem Tracks.emit' {names : List String} {fs : FuncState} (h : Tracks names fs) (i : Instruction)
    (line : Nat) : Tracks names (fs.emit' i line) :=
  h.of_scopes (.emit' _ _ _) (fun _ => id) (by simp) rfl
    fun q hq => by simpa using Nat.lt_succ_of_lt (h.settled q hq)

end FuncState

@[simp] theorem Frame.pc_clear (f : Frame) (a n : Nat) :
    ((List.range n).foldl (fun f r => f.setReg (a + r) .nil) f).pc = f.pc := by
  induction n with
  | zero => rfl
  | succ n ih =>
    rw [List.range_succ, List.foldl_append, List.foldl_cons, List.foldl_nil]
    exact ih

theorem Machine.Rest.clear {m₁ m₂ : Machine} (h : m₁.Rest m₂) (a : Nat) :
    ∀ n, m₁.Rest { m₂ with frame := (List.range n).foldl (fun f r => f.setReg (a + r) .nil) m₂.frame }
  | 0 => h
  | n + 1 => by
    rw [List.range_succ, List.foldl_append, List.foldl_cons, List.foldl_nil]
    exact (Machine.Rest.clear h a n).setReg _ _

namespace Compiler

open Instruction

variable {c c' c₁ : Compiler} {line : Nat}

/-- The registers of the values left without one are set to `nil` by one `loadnil`, above the
registers of the kept values. -/
theorem fillNils_does {nVars kept base : Nat} (ht : ∀ q ∈ c.fs.pending, q < c.fs.code.size)
    (hu : c.fs.usedRegs = base + kept) (h : (fillNils nVars kept false line).run c = .ok ((), c')) :
    Sealed c c' ∧ ∀ lc m, Placed lc.proto c'.fs c.fs.code.size → m.Runs lc →
      m.frame.pc = c.fs.code.size → ∃ k m', VM.Steps k m m' ∧ m'.frame.pc = c'.fs.code.size ∧
        Kept (base + kept) m m' ∧ ∀ i, kept ≤ i → i < nVars → m'.frame.reg (base + i) = .nil := by
  unfold fillNils at h
  split at h
  · rename_i hlt
    simp only [Bool.not_false, Bool.and_true, decide_eq_true_eq] at hlt
    obtain ⟨first, c₁, h₁, h₂⟩ := run_bind_ok h
    obtain ⟨fs₁, ha, rfl⟩ := run_onFs h₁
    obtain ⟨rfl, maxRegs, rfl⟩ := FuncState.allocRegs_eq ha
    obtain ⟨fs₂, hn, rfl⟩ := run_updateFs h₂
    simp only [FuncState.emitLoadNil, if_neg (show nVars - kept ≠ 0 by omega)] at hn
    obtain ⟨hfit, rfl⟩ := FuncState.emitABC_ok hn
    -- taking the registers writes no code
    have hs : c.fs.Settles { c.fs with usedRegs := c.fs.usedRegs + (nVars - kept), maxRegs } :=
      .of_eq rfl rfl rfl
    refine ⟨.of_settles (hs.trans (.emit' _ _ _)) rfl rfl ht, fun lc m hp hr hpc => ?_⟩
    have hi := hp.last (.refl _) hs.size ht
    rw [← hpc] at hi
    have hm := VM.moves_loadNil hr hi (opcode_abc _ _ _ _)
    rw [a_abc _ _ _ _ hfit.1, b_abc _ _ _ _ hfit.2.1] at hm
    refine ⟨1, _, .single hm, by simp [← hpc], ⟨fun r hr' => ?_, (Machine.Rest.fetched).clear _ _⟩,
      fun i hi₁ hi₂ => ?_⟩
    · simp only [Frame.reg_clear, Machine.fetched_reg]
      rw [if_neg (by omega)]
    · simp only [Frame.reg_clear]
      rw [if_pos (by omega)]
  · rename_i hge
    obtain ⟨-, rfl⟩ := run_pure_ok h
    refine ⟨.refl ht, fun lc m _ _ hpc => ⟨0, m, .refl m, hpc, .refl _ m, fun i hi₁ hi₂ => ?_⟩⟩
    simp only [Bool.not_false, Bool.and_true, decide_eq_true_eq] at hge
    omega

/-! ## The values of a declaration or an assignment -/

section Values

variable {σ : String → Value} {isLocal : String → Bool}

/-- The registers after a list of values were evaluated into them, one by one. -/
theorem reg_of_map_range {f : Frame} {u i : Nat} {vs : List Value}
    (h : (List.range vs.length).map (fun i => f.reg (u + i)) = vs) (hi : i < vs.length) :
    f.reg (u + i) = vs.getD i .nil := by
  have e := congrArg (fun l => l.getD i .nil) h
  simp only [List.getD_eq_getElem?_getD, List.getElem?_map, List.getElem?_range hi,
    Option.map_some, Option.getD_some] at e
  rw [e, List.getD_eq_getElem?_getD]

variable (hσ : ∀ s, isLocal s = true → (σ s).isTable = false)
include hσ

/-- The values given to `nVars` names, into the registers from the top: from the first
instruction of their code the machine evaluates them, and leaves in the `i`-th register the value
the `i`-th name takes, or fails as the first failing value does. -/
theorem adjusted_does (call : VM.Call) {nVars : Nat} {values : List Expr} {filled : Bool}
    (hv : ∀ e ∈ values, e.isOperatorTerm isLocal = true) (ht : Opens isLocal c)
    (h₁ : (adjustValues nVars (keptValues nVars values) line values 0).run c = .ok (filled, c₁))
    (h₂ : (fillNils nVars (keptValues nVars values) filled line).run c₁ = .ok ((), c')) :
    Sealed c c' ∧ ∀ lc m, Placed lc.proto c'.fs c.fs.code.size → m.Runs lc →
      m.frame.pc = c.fs.code.size → Env σ isLocal c.fs m.frame →
      VM.Does m (Expr.evalAll call σ values) fun vs m' => m'.frame.pc = c'.fs.code.size ∧
        Kept c.fs.usedRegs m m' ∧
        (∀ i < nVars, m'.frame.reg (c.fs.usedRegs + i) = (adjustTo nVars vs).getD i .nil) ∧
        ∀ v ∈ vs, v.isTable = false := by
  -- operator terms are single-valued: the kept values go one into each fresh register
  have hmv : ∀ v ∈ values, v.isMultiValued = false :=
    fun v hv' => Expr.isMultiValued_of_isOperatorTerm (hv v hv')
  rw [adjustValues_terms values 0 hmv, Nat.sub_zero] at h₁
  obtain ⟨u, c₀, h₃, h₄⟩ := run_bind_ok h₁
  obtain ⟨rfl, rfl⟩ := run_pure_ok h₄
  have hkept : keptValues nVars values ≤ values.length := keptValues_le_length
  have hes : PartsEval σ isLocal call (values.take (keptValues nVars values)) :=
    fun x hx => compileExpr_evalPart hσ x (hv x (List.mem_of_mem_take hx))
  obtain ⟨hs₁, hrun₁⟩ := intoFresh_does hes ht h₃
  obtain ⟨-, hu₁⟩ := intoFresh_spec (fun p hp => by
    obtain ⟨x, hx, rfl⟩ := List.mem_map.mp hp
    exact (hes x hx).into) h₃
  rw [List.length_map, List.length_take, Nat.min_eq_left hkept] at hu₁
  obtain ⟨hs₂, hrun₂⟩ := fillNils_does hs₁.settled hu₁ h₂
  refine ⟨hs₁.trans hs₂, fun lc m hp hr hpc henv => ?_⟩
  rw [@evalAll_keptValues nVars values call σ]
  refine (hrun₁ lc m (hp.earlier hs₂.settles (Nat.le_refl _)) hr hpc henv).map
    fun vs m₁ _ hpost => ?_
  obtain ⟨hpc₁, hk₁, hlen, hregs, hplain⟩ := hpost
  rw [List.length_take, Nat.min_eq_left hkept] at hlen
  obtain ⟨k, m₂, hsteps, hpc₂, hk₂, hnil⟩ :=
    hrun₂ lc m₁ (hp.earlier (.refl _) hs₁.settles.size) (hk₁.2.runs hr) hpc₁
  refine ⟨k, m₂, hsteps, hpc₂, hk₁.trans (hk₂.mono (Nat.le_add_right _ _)), fun i hi => ?_,
    fun v hv' => ?_⟩
  · rw [adjustTo_append_nils, getD_adjustTo hi]
    by_cases hik : i < keptValues nVars values
    · -- a kept value stays where its code put it
      rw [hk₂.1 _ (by omega)]
      exact reg_of_map_range hregs (by omega)
    · -- a missing one is `nil`
      rw [hnil i (by omega) hi, List.getD_eq_getElem?_getD, List.getElem?_eq_none (by omega)]
      rfl
  · rcases List.mem_append.mp hv' with hv' | hv'
    · exact hplain v hv'
    · rw [List.eq_of_mem_replicate hv']
      rfl

end Values

/-! ## Local declarations -/

open LuaBytecode.FuncState (Tracks Advances)

variable {names : List String}

/-- Compiled code does not depend on the values of the names: the empty scope gives them all
`nil`, which is no table. -/
theorem value_nil_plain (isLocal : String → Bool) :
    ∀ s, isLocal s = true → (Scope.value [] s).isTable = false := fun _ _ => rfl

/-- A local declaration: its values go to the registers above the locals, which the new names
then take. -/
theorem localDecl_implements (call : VM.Call) {ns : List String} {values : List Expr} {line : Nat}
    (hv : values.all (·.isOperatorTerm names.contains) = true) :
    Implements names (ns.reverse ++ names) (compileStmt (.localDecl ns values line))
      fun k ρ => Stmt.exec call k ρ (.localDecl ns values line) := by
  have hv' : ∀ e ∈ values, e.isOperatorTerm names.contains = true := List.all_eq_true.mp hv
  intro c c' h hc
  change (localWith ns (keptValues ns.length values)
    (adjustValues ns.length (keptValues ns.length values) line values 0) line).run c = _ at hc
  obtain ⟨mark, c₀, h₀, hc⟩ := run_bind_ok hc
  obtain ⟨rfl, rfl⟩ := run_readFs h₀
  obtain ⟨filled, c₁, h₁, hc⟩ := run_bind_ok hc
  obtain ⟨u, c₂, h₂, hc⟩ := run_bind_ok hc
  obtain ⟨u', c₃, h₃, h₄⟩ := run_bind_ok hc
  obtain ⟨fs₃, hr₃, rfl⟩ := run_updateFs h₃
  obtain ⟨-, rfl⟩ := FuncState.resetRegs_ok hr₃
  have hs₂ := (adjusted_does (value_nil_plain names.contains) call hv' h.opens h₁ h₂).1
  -- giving the registers back keeps the state tracked
  have hs₃ : c.fs.Settles { c₂.fs with usedRegs := c.fs.usedRegs } :=
    hs₂.settles.trans (.of_eq rfl rfl rfl)
  have ht₃ : Tracks names { c₂.fs with usedRegs := c.fs.usedRegs } :=
    h.of_scopes hs₃ hs₂.kept hs₂.scopes rfl hs₂.settled
  obtain ⟨ht', ha', hcode', hpend', hconst'⟩ := ht₃.addLocals h₄
  have hs' : c₂.fs.Settles c'.fs := .of_eq hcode' hpend' hconst'
  refine ⟨ht', (Advances.of_scopes hs₃ hs₂.kept hs₂.scopes).trans ha',
    fun k ρ lc m hn hpl hp hrun hpc hoc hh => ?_⟩
  subst hn
  have hlen : ρ.length = c.fs.usedRegs := by rw [h.usedRegs_eq, Scope.length_names]
  refine Follows.of_does ((adjusted_does (fun s _ => hpl.value s) call hv' h.opens h₁ h₂).2 lc m
    (hp.earlier hs' (Nat.le_refl _)) hrun hpc (h.env hh) |>.mono fun vs m' hpost => ?_)
  obtain ⟨hpc', hk', hregs, hplain⟩ := hpost
  refine ⟨hk'.2, 0, m', .refl _, ⟨.refl _, hpl.declare (plain_adjustTo hplain), ?_⟩, ?_, ?_⟩
  · refine (hh.keep fun r hr => hk'.1 r (by omega)).declare (by simp) fun i hi => ?_
    rw [length_adjustTo] at hi
    rw [hlen, hregs i hi, List.getD_eq_getElem _ _ (by simpa using hi)]
  · rw [hpc', hcode']
  · rw [Scope.names_declare (by simp)]

/-! ## Assignments -/

theorem slotIn_of_mem {s : String} : ∀ {ns : List String}, s ∈ ns → ∃ r, Scope.slotIn ns s = some r
  | [], hs => absurd hs List.not_mem_nil
  | t :: ns, hs => by
    simp only [Scope.slotIn]
    split
    · exact ⟨_, rfl⟩
    · rename_i ht
      exact slotIn_of_mem ((List.mem_cons.mp hs).resolve_left fun e => ht (by simp [e]))

/-- A name in scope is assigned in its register. -/
theorem nameTarget_local (h : Tracks names c.fs) {s : String} {r : Nat}
    (hs : Scope.slotIn names s = some r) : (nameTarget s line).run c = .ok (.local r, c) := by
  have e : c.fs.slotOf s = some r := (h.slotOf_eq s).trans hs
  simp [nameTarget, e]
  rfl

/-- The targets of an assignment to names in scope are their registers, found without writing
anything. -/
theorem resolveTargets_locals (h : Tracks names c.fs) :
    ∀ {targets : List Expr} {rs : List Target} {c' : Compiler},
    (∀ t ∈ targets, (t.nameOf?.map names.contains).getD false = true) →
    (resolveTargets targets).run c = .ok (rs, c') →
    c' = c ∧ rs = (targets.filterMap Expr.nameOf?).map fun s => .local ((Scope.slotIn names s).getD 0)
  | [], rs, c', _, hr => by
    obtain ⟨rfl, rfl⟩ := run_pure_ok hr
    exact ⟨rfl, rfl⟩
  | t :: rest, rs, c', ht, hr => by
    obtain ⟨s, l, rfl, hs⟩ : ∃ s l, t = .name s l ∧ s ∈ names := by
      have ht₁ := ht t List.mem_cons_self
      cases t with
      | name s l => exact ⟨s, l, rfl, by simpa [Expr.nameOf?] using ht₁⟩
      | _ => simp [Expr.nameOf?] at ht₁
    obtain ⟨r, hr'⟩ := slotIn_of_mem hs
    obtain ⟨x, c₁, h₁, h₂⟩ := run_bind_ok hr
    rw [nameTarget_local h hr'] at h₁
    obtain ⟨rfl, rfl⟩ := Except.ok.inj h₁ |> Prod.mk.inj
    obtain ⟨xs, c₂, h₃, h₄⟩ := run_bind_ok h₂
    obtain ⟨rfl, rfl⟩ := resolveTargets_locals h (fun t ht' => ht t (List.mem_cons_of_mem _ ht')) h₃
    obtain ⟨rfl, rfl⟩ := run_pure_ok h₄
    simp [Expr.nameOf?, hr']

/-- The stores of an assignment to names in scope, one `move` each from consecutive registers
above the locals: the names take the values of those registers, in order. -/
theorem storeAll_does : ∀ (ss : List String) (first : Nat) (c c' : Compiler),
    (∀ s ∈ ss, s ∈ names) → names.length ≤ first → (∀ q ∈ c.fs.pending, q < c.fs.code.size) →
    (storeAll (ss.map fun s => .local ((Scope.slotIn names s).getD 0)) first line).run c =
      .ok ((), c') →
    Sealed c c' ∧ c'.fs.usedRegs = c.fs.usedRegs ∧
    ∀ lc m (ρ : Scope) (vals : List Value), Placed lc.proto c'.fs c.fs.code.size → m.Runs lc →
      m.frame.pc = c.fs.code.size → ρ.names = names → ρ.Held m.frame → vals.length = ss.length →
      (∀ i < ss.length, m.frame.reg (first + i) = vals.getD i .nil) →
      ∃ k m', VM.Steps k m m' ∧ m.Rest m' ∧ m'.frame.pc = c'.fs.code.size ∧
        (ρ.assignAll ss vals).Held m'.frame
  | [], first, c, c', _, _, ht, h => by
    obtain ⟨-, rfl⟩ := run_pure_ok h
    refine ⟨.refl ht, rfl, fun lc m ρ vals _ _ hpc _ hh _ _ => ⟨0, m, .refl m, .refl m, hpc, ?_⟩⟩
    simpa [Scope.assignAll] using hh
  | s :: ss, first, c, c', hs, hle, ht, h => by
    obtain ⟨u, c₁, h₁, h₂⟩ := run_bind_ok h
    obtain ⟨fs₁, hm, rfl⟩ := run_updateFs h₁
    obtain ⟨hfit, rfl⟩ := FuncState.emitABC_ok hm
    obtain ⟨r, hr⟩ := slotIn_of_mem (hs s List.mem_cons_self)
    have hlt : r < names.length := Scope.slotIn_lt hr
    obtain ⟨hs₂, hu₂, hrun₂⟩ := storeAll_does ss (first + 1) _ c'
      (fun t ht' => hs t (List.mem_cons_of_mem _ ht')) (by omega)
      (sealed_emit' ht).settled h₂
    refine ⟨(sealed_emit' ht).trans hs₂, hu₂, fun lc m ρ vals hp hrun hpc hn hh hlen hregs => ?_⟩
    obtain ⟨v, vs, rfl⟩ : ∃ v vs, vals = v :: vs := by
      cases vals with
      | nil => simp at hlen
      | cons v vs => exact ⟨v, vs, rfl⟩
    -- the `move` stands first, and copies the first value to the name's register
    have hi := hp.last hs₂.settles (Nat.le_refl _) ht
    rw [← hpc] at hi
    have hmv := VM.moves_move hrun hi (opcode_abc _ _ _ _)
    rw [a_abc _ _ _ _ hfit.1, b_abc _ _ _ _ hfit.2.1, hr, Option.getD_some] at hmv
    have hv : m.frame.reg first = v := by simpa using hregs 0 (by simp)
    have hh₁ : (ρ.assign s v).Held (m.write r (m.frame.reg first)).frame := by
      rw [hv]
      have hh' : ρ.Held { m.frame with pc := m.frame.pc + 1 } := hh.keep fun _ _ => rfl
      exact hh'.assign (by rw [hn]; exact hr)
    -- the registers of the other values lie above the locals, which the `move` alone wrote
    have hregs₁ : ∀ i < ss.length,
        (m.write r (m.frame.reg first)).frame.reg (first + 1 + i) = vs.getD i .nil := by
      intro i hi'
      rw [Machine.write_reg, if_neg (by omega), show first + 1 + i = first + (i + 1) by omega]
      simpa using hregs (i + 1) (by simp; omega)
    obtain ⟨k, m', hsteps, hrest, hpc', hh'⟩ := hrun₂ lc _ (ρ.assign s v) vs
      (hp.earlier (.refl _) (by simp)) (Machine.Rest.write.runs hrun) (by simp [hpc])
      (by rw [Scope.names_assign, hn]) hh₁ (by simpa using hlen) hregs₁
    exact ⟨k + 1, m', .cons hmv hsteps, Machine.Rest.write.trans hrest, hpc', hh'⟩

/-- An assignment to names in scope: its values go to the registers above the locals, from which
`move`s copy them to the names' registers. -/
theorem assign_implements (call : VM.Call) {targets values : List Expr} {line : Nat}
    (ht : targets.all (fun t => (t.nameOf?.map names.contains).getD false) = true)
    (hv : values.all (·.isOperatorTerm names.contains) = true) :
    Implements names names (compileStmt (.assign targets values line))
      fun k ρ => Stmt.exec call k ρ (.assign targets values line) := by
  have ht' := List.all_eq_true.mp ht
  have hv' : ∀ e ∈ values, e.isOperatorTerm names.contains = true := List.all_eq_true.mp hv
  -- every target is a name in scope
  have hss : ∀ s ∈ targets.filterMap Expr.nameOf?, s ∈ names := by
    intro s hs
    obtain ⟨t, htm, hts⟩ := List.mem_filterMap.mp hs
    have := ht' t htm
    rw [hts] at this
    simpa using this
  have hlen : (targets.filterMap Expr.nameOf?).length = targets.length :=
    Expr.length_filterMap_nameOf fun t htm => by
      have := ht' t htm
      cases ht₁ : t.nameOf? with
      | none => simp [ht₁] at this
      | some s => rfl
  intro c c' h hc
  change (assignWith (resolveTargets targets) targets.length (keptValues targets.length values)
    (adjustValues targets.length (keptValues targets.length values) line values 0) line).run c = _
    at hc
  obtain ⟨mark, c₀, h₀, hc⟩ := run_bind_ok hc
  obtain ⟨rfl, rfl⟩ := run_readFs h₀
  obtain ⟨rs, c₀, h₀, hc⟩ := run_bind_ok hc
  obtain ⟨hc₀, rfl⟩ := resolveTargets_locals h ht' h₀
  subst c₀
  obtain ⟨first, c₀, h₀, hc⟩ := run_bind_ok hc
  obtain ⟨rfl, hc₀⟩ := run_readFs h₀
  subst c₀
  obtain ⟨filled, c₁, h₁, hc⟩ := run_bind_ok hc
  obtain ⟨u, c₂, h₂, hc⟩ := run_bind_ok hc
  obtain ⟨u', c₃, h₃, h₄⟩ := run_bind_ok hc
  obtain ⟨fs₄, hr₄, rfl⟩ := run_updateFs h₄
  obtain ⟨-, rfl⟩ := FuncState.resetRegs_ok hr₄
  have hs₂ := (adjusted_does (value_nil_plain names.contains) call hv' h.opens h₁ h₂).1
  have hfirst : names.length ≤ c.fs.usedRegs := by rw [h.usedRegs_eq]
  obtain ⟨hs₃, -, hrun₃⟩ := storeAll_does _ _ c₂ c₃ hss hfirst hs₂.settled h₃
  have hs₀₃ := hs₂.trans hs₃
  -- giving the registers back keeps the state tracked
  have hs : c.fs.Settles { c₃.fs with usedRegs := c.fs.usedRegs } :=
    hs₀₃.settles.trans (.of_eq rfl rfl rfl)
  refine ⟨h.of_scopes hs hs₀₃.kept hs₀₃.scopes rfl hs₀₃.settled,
    Advances.of_scopes hs hs₀₃.kept hs₀₃.scopes, fun k ρ lc m hn hpl hp hrun hpc hoc hh => ?_⟩
  subst hn
  have hρ : ρ.length = c.fs.usedRegs := by rw [h.usedRegs_eq, Scope.length_names]
  have hp₃ : Placed lc.proto c₃.fs c.fs.code.size := hp.earlier (.of_eq rfl rfl rfl) (Nat.le_refl _)
  refine Follows.of_does ((adjusted_does (fun s _ => hpl.value s) call hv' h.opens h₁ h₂).2 lc m
    (hp₃.earlier hs₃.settles (Nat.le_refl _)) hrun hpc (h.env hh) |>.mono fun vs m₁ hpost => ?_)
  obtain ⟨hpc₁, hk₁, hregs, hplain⟩ := hpost
  obtain ⟨k', m₂, hsteps, hrest, hpc₂, hh₂⟩ := hrun₃ lc m₁ ρ (adjustTo targets.length vs)
    (hp₃.earlier (.refl _) hs₂.settles.size) (hk₁.2.runs hrun) hpc₁ rfl
    (hh.keep fun r hr => hk₁.1 r (by omega))
    (by rw [length_adjustTo, hlen]) fun i hi => hregs i (by omega)
  exact ⟨hk₁.2, k', m₂, hsteps, ⟨hrest, hpl.assignAll (plain_adjustTo hplain), hh₂⟩, hpc₂,
    Scope.names_assignAll⟩

/-! ## `return` -/

/-- Parts evaluated into fresh registers fit the register file. -/
theorem intoFresh_room {parts : List (Nat → CompileM Unit)} (hparts : ∀ p ∈ parts, Into p)
    (hroom : c.fs.usedRegs ≤ 255) (h : (intoFresh line parts).run c = .ok ((), c')) :
    c'.fs.usedRegs ≤ 255 := by
  induction parts generalizing c with
  | nil =>
    obtain ⟨-, rfl⟩ := run_pure_ok h
    exact hroom
  | cons part rest ih =>
    obtain ⟨tmp, c₁, h₁, h₂⟩ := run_bind_ok h
    obtain ⟨fs₁, ha, rfl⟩ := run_onFs h₁
    obtain ⟨hlt, rfl, rfl⟩ := FuncState.allocReg_ok ha
    obtain ⟨u, c₂, h₃, h₄⟩ := run_bind_ok h₂
    have hc₂ := hparts part List.mem_cons_self _ _ c₂ (by simp) h₃
    refine ih (fun p hp => hparts p (List.mem_cons_of_mem _ hp)) ?_ h₄
    rw [hc₂.usedRegs]
    simp only [FuncState.maxRegisters] at hlt
    simp only
    omega

/-- Operator terms returned go one into each fresh register. -/
theorem compileReturnValues_terms {line : Nat} : ∀ (values : List Expr),
    (∀ v ∈ values, v.isMultiValued = false) →
    compileReturnValues line values = intoFresh line (values.map fun x r => compileExpr x r 1)
  | [], _ => rfl
  | [v], hv => by simp [compileReturnValues, intoFresh, hv v List.mem_cons_self]
  | v :: w :: rest, hv => by
    unfold compileReturnValues
    rw [compileReturnValues_terms (w :: rest) fun x hx => hv x (List.mem_cons_of_mem _ hx)]
    simp [intoFresh]

/-- A `return` of one name finds its register without writing anything. -/
theorem singleLocal_run {values : List Expr} {o : Option Nat}
    (h : (singleLocal values).run c = .ok (o, c')) :
    c' = c ∧ ∀ slot, o = some slot → ∃ s l, values = [.name s l] ∧ c.fs.slotOf s = some slot := by
  unfold singleLocal at h
  split at h
  · obtain ⟨rfl, rfl⟩ := run_readFs h
    exact ⟨rfl, fun slot hs => ⟨_, _, rfl, hs⟩⟩
  · obtain ⟨rfl, rfl⟩ := run_pure_ok h
    exact ⟨rfl, fun _ hs => by cases hs⟩

/-- The `return` appended last returns the `b - 1` registers from `a`. -/
theorem returns_emitted {fs : FuncState} {lc : Closure} {m : Machine} {a b : Nat}
    (hfit : a ≤ maxA ∧ b ≤ maxBC ∧ 0 ≤ maxBC) (hb : b ≠ 0)
    (hp : Placed lc.proto (fs.emit' (abc .ret a b 0) line) fs.code.size) (hrun : m.Runs lc)
    (hpc : m.frame.pc = fs.code.size) (ht : ∀ q ∈ fs.pending, q < fs.code.size) :
    VM.Returns m ((List.range (b - 1)).map fun r => m.frame.reg (a + r)).toArray := by
  have hi := hp.last (.refl _) (Nat.le_refl _) ht
  rw [← hpc] at hi
  have hr := VM.returns_ret hrun hi (opcode_abc _ _ _ _) (by rw [b_abc _ _ _ _ hfit.2.1]; exact hb)
  rwa [a_abc _ _ _ _ hfit.1, b_abc _ _ _ _ hfit.2.1] at hr

/-- A `return` of operator terms over the names in scope: nothing for no value, a name's own
register for one name, and otherwise the values in fresh registers above the locals. -/
theorem return_implements (call : VM.Call) {r : Return} (hr : r.structured names = true) :
    Implements names names (compileReturn r) fun _ ρ => r.exec call ρ := by
  obtain ⟨values, line⟩ := r
  have hv : ∀ e ∈ values, e.isOperatorTerm names.contains = true := List.all_eq_true.mp hr
  have hmv : ∀ e ∈ values, e.isMultiValued = false :=
    fun e he => Expr.isMultiValued_of_isOperatorTerm (hv e he)
  intro c c' h hc
  unfold compileReturn at hc
  split at hc
  · -- no value: `return` with B = 1
    rename_i he
    obtain rfl := List.isEmpty_iff.mp he
    obtain ⟨fs', he', rfl⟩ := run_updateFs hc
    obtain ⟨hfit, rfl⟩ := FuncState.emitABC_ok he'
    refine ⟨h.emit' _ _, .of_scopes (.emit' _ _ _) (fun _ => id) (by simp),
      fun k ρ lc m hn hpl hp hrun hpc hoc hh => ⟨0, m, .refl m, ?_⟩⟩
    simpa [FuncState.word32] using returns_emitted hfit (by decide) hp hrun hpc h.settled
  split at hc
  · -- a single call is no operator term
    rename_i hcall
    obtain ⟨hone, hc₁⟩ := Bool.and_eq_true_iff.mp hcall
    obtain ⟨e, he⟩ := List.exists_mem_of_ne_nil values (by rintro rfl; simp at hone)
    have hcall₁ := List.all_eq_true.mp hc₁ e he
    rw [Expr.isCall_of_isOperatorTerm (hv e he)] at hcall₁
    exact absurd hcall₁ Bool.false_ne_true
  obtain ⟨o, c₁, h₁, h₂⟩ := run_bind_ok hc
  obtain ⟨hc₁, hsl⟩ := singleLocal_run h₁
  subst c₁
  split at h₂
  · -- one name: its own register, with B = 2
    rename_i slot
    obtain ⟨s, l, rfl, hs⟩ := hsl slot rfl
    obtain ⟨fs', he', rfl⟩ := run_updateFs h₂
    obtain ⟨hfit, rfl⟩ := FuncState.emitABC_ok he'
    refine ⟨h.emit' _ _, .of_scopes (.emit' _ _ _) (fun _ => id) (by simp),
      fun k ρ lc m hn hpl hp hrun hpc hoc hh => ⟨0, m, .refl m, ?_⟩⟩
    subst hn
    have hreg : m.frame.reg slot = ρ.value s := hh.reg_slotIn ((h.slotOf_eq s).symm.trans hs)
    simpa [FuncState.word32, hreg, Return.exec, Flow.ofOutcome, Expr.evalAll] using
      returns_emitted hfit (by decide) hp hrun hpc h.settled
  · -- the values in fresh registers, with B one more than their number
    rename_i hne _ _
    have hne : values ≠ [] := fun e => hne (by simp [e])
    have hlast := List.getLast?_eq_some_getLast hne
    simp only [hlast, hmv _ (List.getLast_mem hne), Bool.false_eq_true, if_false,
      compileReturnValues_terms values hmv] at h₂
    obtain ⟨u, c₂, h₃, h₄⟩ := run_bind_ok h₂
    obtain ⟨u', c₃, h₅, h₆⟩ := run_bind_ok h₄
    obtain ⟨fs₃, hf₃, rfl⟩ := run_updateFs h₅
    obtain ⟨-, rfl⟩ := FuncState.freeRegs_ok hf₃
    obtain ⟨base, c₄, h₇, h₈⟩ := run_bind_ok h₆
    obtain ⟨rfl, rfl⟩ := run_readFs h₇
    obtain ⟨fs', he', rfl⟩ := run_updateFs h₈
    obtain ⟨hfit, rfl⟩ := FuncState.emitABC_ok he'
    have hes {σ : String → Value} (hσ : ∀ s, names.contains s = true → (σ s).isTable = false) :
        PartsEval σ names.contains call values := fun x hx => compileExpr_evalPart hσ x (hv x hx)
    have hs₂ := (intoFresh_does (hes (value_nil_plain names.contains)) h.opens h₃).1
    obtain ⟨-, hu₂⟩ := intoFresh_spec (fun p hp => by
      obtain ⟨x, hx, rfl⟩ := List.mem_map.mp hp
      exact (hes (value_nil_plain names.contains) x hx).into) h₃
    have hroom := intoFresh_room (fun p hp => by
      obtain ⟨x, hx, rfl⟩ := List.mem_map.mp hp
      exact (hes (value_nil_plain names.contains) x hx).into) h.room h₃
    rw [List.length_map] at hu₂
    -- the values are given back, and `return` reads them from the top of the locals
    have hbase : c₂.fs.usedRegs - values.length = c.fs.usedRegs := by omega
    have hB : FuncState.word32 ((values.length : Int) + 1) = values.length + 1 := by
      unfold FuncState.word32
      omega
    rw [hbase, hB] at hfit ⊢
    have hs₂₃ : c₂.fs.Settles { c₂.fs with usedRegs := c.fs.usedRegs } := .of_eq rfl rfl rfl
    have hs₃ : c.fs.Settles { c₂.fs with usedRegs := c.fs.usedRegs } := hs₂.settles.trans hs₂₃
    refine ⟨(h.of_scopes hs₃ hs₂.kept hs₂.scopes rfl hs₂.settled).emit' _ _,
      .of_scopes (hs₃.trans (.emit' _ _ _)) hs₂.kept hs₂.scopes,
      fun k ρ lc m hn hpl hp hrun hpc hoc hh => ?_⟩
    subst hn
    refine Follows.of_does ((intoFresh_does (hes fun s _ => hpl.value s) h.opens h₃).2 lc m
      (hp.earlier (hs₂₃.trans (.emit' _ _ _)) (Nat.le_refl _))
      hrun hpc (h.env hh) |>.mono fun vs m₁ hpost => ?_)
    obtain ⟨hpc₁, hk₁, hlen, hregs, -⟩ := hpost
    have hret := returns_emitted hfit (by omega) (hp.earlier (.refl _) hs₂.settles.size)
      (hk₁.2.runs hrun) hpc₁ hs₂.settled
    rw [Nat.add_sub_cancel, ← hlen, hregs] at hret
    exact ⟨hk₁.2, 0, m₁, .refl _, hret⟩

/-! ## `break` -/

/-- A `break` is a jump, pending until its loop ends, that the innermost loop records: the
machine reaches it with the scope at the `break`. -/
theorem break_implements (call : VM.Call) {line : Nat} :
    Implements names names (compileStmt (.breakStmt line))
      fun k ρ => Stmt.exec call k ρ (.breakStmt line) := by
  intro c c' h hc
  obtain ⟨fs', hb, rfl⟩ := run_updateFs hc
  obtain ⟨ht', ha', hbr, -⟩ := h.addBreak hb
  refine ⟨ht', ha', fun k ρ lc m hn hpl _ _ hpc _ hh =>
    ⟨0, m, .refl m, ⟨.refl m, hpl, hh⟩, ?_, by rw [hn]⟩⟩
  rw [hpc]
  exact hbr ▸ List.mem_cons_self

end Compiler

end LuaBytecode
