import LuaBytecode.Proofs.Compiler.StatementState
import LuaBytecode.Proofs.Compiler.BlockMeaning
/-!
# Statements and the machine

How a run of a statement's meaning (`Stmt.exec`) and a run of its code line up. The locals in
scope live in the registers of the running frame, the outermost in register 0 (`Scope.Held`), and
a name reads the register of its innermost binding (`Scope.slotIn`), which is the register the
compiler gives it (`FuncState.Tracks.slotOf_eq`).

* `Compiler.Follows`: what the machine does for each way a statement ends: it reaches the end of
  the code with the registers holding the scope after it, reaches a jump that leaves the
  innermost loop, returns the values, fails with the error, or takes at least as many steps as
  the clock allows;
* `Compiler.Executes names names' c c' run`: the code compiled from `c` to `c'` does what `run`
  says from every state whose registers hold a scope with the names `names`;
* `Compiler.Implements names names' act run`: compiled from any state tracked with `names`, `act`
  leaves the state tracked with `names'`, and its code executes `run`. Statements in sequence
  (`Implements.bind`) are put together here, each kind of statement in
  `Compiler.SimpleStatements` and `Compiler.ControlFlow`.
-/

namespace LuaBytecode

namespace Scope

variable {ρ : Scope} {f f' : Frame} {s : String} {r : Nat} {v : Value}

/-- The register of the innermost of `names`, given innermost first, that is `s`: the number of
names outside it. -/
def slotIn : List String → String → Option Nat
  | [], _ => none
  | t :: ns, s => if t == s then some ns.length else slotIn ns s

/-- The registers of `f` hold the scope: each binding is in the register numbered by the bindings
outside it, the outermost in register 0. -/
def Held : Scope → Frame → Prop
  | [], _ => True
  | x :: ρ, f => f.reg ρ.length = x.2 ∧ Held ρ f

@[simp] theorem held_nil : Held [] f := trivial

@[simp] theorem held_cons {x : String × Value} :
    Held (x :: ρ) f ↔ f.reg ρ.length = x.2 ∧ Held ρ f := Iff.rfl

@[simp] theorem names_nil : names [] = [] := rfl

@[simp] theorem names_cons {x : String × Value} : names (x :: ρ) = x.1 :: ρ.names := rfl

@[simp] theorem length_names : ρ.names.length = ρ.length := List.length_map _

@[simp] theorem value_cons {x : String × Value} :
    value (x :: ρ) s = if x.1 == s then x.2 else ρ.value s := by
  simp only [value, List.find?_cons]
  split <;> simp_all

@[simp] theorem length_assign : (ρ.assign s v).length = ρ.length := by
  induction ρ with
  | nil => rfl
  | cons x ρ ih =>
    simp only [assign]
    split <;> simp [ih]

@[simp] theorem names_assign : (ρ.assign s v).names = ρ.names := by
  induction ρ with
  | nil => rfl
  | cons x ρ ih =>
    simp only [assign]
    split <;> simp_all

theorem slotIn_lt : ∀ {ns : List String}, slotIn ns s = some r → r < ns.length
  | [], h => by simp [slotIn] at h
  | t :: ns, h => by
    simp only [slotIn] at h
    split at h
    · cases h
      simp
    · have := slotIn_lt h
      simp only [List.length_cons]
      omega

/-- The names of a scope that began as `names` once the bindings declared since are dropped. -/
theorem names_close {names : List String} (h : names <:+ ρ.names) :
    (ρ.close names.length).names = names := by
  obtain ⟨l, hl⟩ := h
  have hlen : ρ.length = l.length + names.length := by
    rw [← length_names, ← hl, List.length_append]
  simp only [close, Scope.names, List.map_drop] at hl ⊢
  rw [← hl, hlen, Nat.add_sub_cancel, List.drop_left]

theorem declare_cons {n : String} {ns : List String} {x : Value} {vs : List Value} :
    ρ.declare (n :: ns) (x :: vs) = declare ((n, x) :: ρ) ns vs := by
  simp [declare]

theorem names_declare {ns : List String} {vs : List Value} (h : ns.length = vs.length) :
    (ρ.declare ns vs).names = ns.reverse ++ ρ.names := by
  have hz : (ns.zip vs).map (·.1) = ns := List.map_fst_zip (Nat.le_of_eq h)
  simp [declare, Scope.names, List.map_reverse, hz]

namespace Held

theorem keep (h : ρ.Held f) (hr : ∀ r < ρ.length, f'.reg r = f.reg r) : ρ.Held f' := by
  induction ρ with
  | nil => trivial
  | cons x ρ ih =>
    refine ⟨(hr ρ.length (by simp)).trans h.1, ih h.2 fun r hr' => hr r ?_⟩
    simp only [List.length_cons]
    omega

theorem drop (h : ρ.Held f) (n : Nat) : Held (ρ.drop n) f := by
  induction ρ generalizing n with
  | nil => simp
  | cons x ρ ih =>
    cases n with
    | zero => exact h
    | succ n => exact ih h.2 n

theorem close (h : ρ.Held f) (n : Nat) : (ρ.close n).Held f := h.drop _

/-- A name reads the register of its innermost binding. -/
theorem reg_slotIn (h : ρ.Held f) (hs : slotIn ρ.names s = some r) : f.reg r = ρ.value s := by
  induction ρ with
  | nil => simp [slotIn] at hs
  | cons x ρ ih =>
    simp only [names_cons, slotIn, length_names] at hs
    rw [value_cons]
    split at hs
    · rename_i hx
      cases hs
      rw [if_pos hx]
      exact h.1
    · rename_i hx
      rw [if_neg hx]
      exact ih h.2 hs

/-- Writing the register of a name's innermost binding writes that binding. -/
theorem assign (h : ρ.Held f) (hs : slotIn ρ.names s = some r) :
    (ρ.assign s v).Held (f.setReg r v) := by
  induction ρ with
  | nil => simp [slotIn] at hs
  | cons x ρ ih =>
    simp only [names_cons, slotIn, length_names] at hs
    simp only [Scope.assign]
    split at hs
    · rename_i hx
      cases hs
      rw [if_pos hx]
      refine ⟨by simp, h.2.keep fun r hr => ?_⟩
      simp [Nat.ne_of_lt hr]
    · rename_i hx
      rw [if_neg hx]
      have hlt : r < ρ.length := by simpa using slotIn_lt hs
      refine ⟨?_, ih h.2 hs⟩
      rw [length_assign, Frame.reg_setReg, if_neg (by omega)]
      exact h.1

/-- Locals declared with the values of the registers above the scope, in order. -/
theorem declare (h : ρ.Held f) {ns : List String} {vs : List Value} (hlen : ns.length = vs.length)
    (hv : ∀ i (hi : i < vs.length), f.reg (ρ.length + i) = vs[i]) : (ρ.declare ns vs).Held f := by
  induction ns generalizing ρ vs with
  | nil => simpa [Scope.declare] using h
  | cons n ns ih =>
    cases vs with
    | nil => simp at hlen
    | cons x vs =>
      rw [declare_cons]
      have h0 := hv 0 (by simp)
      rw [List.getElem_cons_zero, Nat.add_zero] at h0
      have h' : Held ((n, x) :: ρ) f := ⟨h0, h⟩
      refine ih h' (by simpa using hlen) fun i hi => ?_
      have := hv (i + 1) (by simp; omega)
      simp only [List.length_cons, List.getElem_cons_succ] at this ⊢
      rw [← this, Nat.add_right_comm, Nat.add_assoc]

end Held

namespace Plain

variable {n : Nat}

theorem value (h : ρ.Plain) (s : String) : (ρ.value s).isTable = false := by
  simp only [Scope.value]
  cases hx : ρ.find? (·.1 == s) with
  | none => rfl
  | some x => exact h x (List.mem_of_find?_eq_some hx)

theorem drop (h : ρ.Plain) (n : Nat) : Plain (ρ.drop n) := fun x hx => h x (List.mem_of_mem_drop hx)

theorem close (h : ρ.Plain) (n : Nat) : (ρ.close n).Plain := h.drop _

theorem assign (h : ρ.Plain) (hv : v.isTable = false) : (ρ.assign s v).Plain := by
  induction ρ with
  | nil => exact h
  | cons x ρ ih =>
    simp only [Scope.assign]
    split
    · intro y hy
      rcases List.mem_cons.mp hy with rfl | hy
      · exact hv
      · exact h y (List.mem_cons_of_mem _ hy)
    · intro y hy
      rcases List.mem_cons.mp hy with rfl | hy
      · exact h _ List.mem_cons_self
      · exact ih (fun z hz => h z (List.mem_cons_of_mem _ hz)) y hy

theorem declare (h : ρ.Plain) {ns : List String} {vs : List Value}
    (hv : ∀ x ∈ vs, x.isTable = false) : (ρ.declare ns vs).Plain := by
  intro y hy
  rcases List.mem_append.mp hy with hy | hy
  · exact hv y.2 (List.of_mem_zip (List.mem_reverse.mp hy)).2
  · exact h y hy

end Plain

end Scope

namespace FuncState

variable {fs fs' : FuncState} {names names' : List String}

/-- In a list of locals, innermost first and each in the register of its position, a name's
innermost local has the register `Scope.slotIn` gives. -/
theorem find_slot {s : String} : ∀ {L : List ActiveLocal},
    (∀ j (hj : j < L.length), L[j].slot = L.length - 1 - j) →
    (L.find? (·.name == s)).map (·.slot) = Scope.slotIn (L.map (·.name)) s
  | [], _ => rfl
  | l :: L, h => by
    have hl := h 0 (by simp)
    simp only [List.getElem_cons_zero, List.length_cons, Nat.add_sub_cancel, Nat.sub_zero] at hl
    by_cases hx : (l.name == s) = true
    · simp [Scope.slotIn, hx, hl]
    · have hL : ∀ j (hj : j < L.length), L[j].slot = L.length - 1 - j := fun j hj => by
        have := h (j + 1) (by simp; omega)
        simp only [List.getElem_cons_succ, List.length_cons] at this
        rw [this]
        omega
      simp only [List.find?_cons, hx, List.map_cons, Scope.slotIn]
      exact find_slot hL

namespace Tracks

/-- The register the compiler gives a name is that of its innermost binding. -/
theorem slotOf_eq (h : Tracks names fs) (s : String) : fs.slotOf s = Scope.slotIn names s := by
  rw [slotOf, ← h.names]
  refine find_slot fun j hj => ?_
  simp only [List.length_reverse, Array.length_toList] at hj ⊢
  rw [List.getElem_reverse, Array.getElem_toList, h.aligned.slot]
  simp

/-- The names read the registers that hold the scope. -/
theorem env {ρ : Scope} {f : Frame} (h : Tracks ρ.names fs) (hh : ρ.Held f) :
    Compiler.Env ρ.value ρ.names.contains fs f := by
  intro s hs
  obtain ⟨r, hr⟩ := Option.isSome_iff_exists.mp (h.slotOf_isSome (List.contains_iff_mem.mp hs))
  exact ⟨r, hr, hh.reg_slotIn ((h.slotOf_eq s).symm.trans hr)⟩

/-- A tracked state admits evaluations at its top. -/
theorem opens {c : Compiler} (h : Tracks names c.fs) : Compiler.Opens names.contains c where
  below r hr := by
    rw [aligned_iff_slots.mp h.aligned] at hr
    exact List.mem_range.mp hr
  room := h.room
  settled := h.settled
  names _ hs := h.slotOf_isSome (List.contains_iff_mem.mp hs)

/-- The number of locals is the number of registers in use. -/
theorem usedRegs_eq (h : Tracks names fs) : fs.usedRegs = names.length := by
  rw [h.aligned.usedRegs, ← h.names]
  simp

end Tracks

/-- A statement only adds names in scope. -/
theorem Advances.suffix (h : Advances fs fs') (h₁ : Tracks names fs) (h₂ : Tracks names' fs') :
    names <:+ names' := by
  obtain ⟨news, e, -⟩ := h.actives
  rw [← h₁.names, ← h₂.names, e, List.reverse_append, List.map_append]
  exact List.suffix_append _ _

end FuncState

open FuncState (Tracks Advances)

namespace Compiler

variable {names names' names₁ names₂ : List String} {stop stop₁ stop₂ t t' n : Nat}
  {bs bs' bs₁ bs₂ : List Nat} {m m₁ : Machine} {ρ : Scope}

/-- The machine went from `m` to `m'` changing only the running frame's registers and position,
and the registers hold the scope `ρ`, which holds no table. -/
structure Holds (ρ : Scope) (m m' : Machine) : Prop where
  rest : m.Rest m'
  plain : ρ.Plain
  held : ρ.Held m'.frame

theorem Holds.prepend {m' : Machine} (hr : m.Rest m₁) (h : Holds ρ m₁ m') : Holds ρ m m' :=
  ⟨hr.trans h.rest, h.plain, h.held⟩

/-- What the machine does from `m` when a statement that began with `names` in scope ends in the
flow `r`: it reaches the end `stop` of the statement's code holding the scope after it, with the
names `names'`; or one of the jumps `breaks` that leave the innermost loop, holding the scope at
the `break`; or a step that returns the values, or one that fails with the error; or it takes at
least `t` steps, for a run whose clock ran out. -/
def Follows (names names' : List String) (stop : Nat) (breaks : List Nat) (t : Nat) (m : Machine) :
    Flow → Prop
  | .normal ρ => ∃ n m', VM.Steps n m m' ∧ Holds ρ m m' ∧ m'.frame.pc = stop ∧ ρ.names = names'
  | .brk ρ => ∃ n m', VM.Steps n m m' ∧ Holds ρ m m' ∧ m'.frame.pc ∈ breaks ∧ names <:+ ρ.names
  | .ret vs => ∃ n m', VM.Steps n m m' ∧ VM.Returns m' vs.toArray
  | .error e => ∃ n m', VM.Steps n m m' ∧ VM.Stops m' e
  | .timeout => ∃ n m', VM.Steps n m m' ∧ t ≤ n

namespace Follows

variable {r : Flow}

/-- Steps taken before, from a statement that began with fewer names in scope, to more jumps
out of the loop. -/
theorem weaken (h : Follows names₁ names' stop bs t m₁ r) (hs : VM.Steps n m m₁) (hr : m.Rest m₁)
    (hn : names <:+ names₁) (hb : ∀ q ∈ bs, q ∈ bs') (ht : t' ≤ n + t) :
    Follows names names' stop bs' t' m r := by
  cases r with
  | normal ρ =>
    obtain ⟨n', m', hs', hh, hpc, hnm⟩ := h
    exact ⟨n + n', m', hs.trans hs', hh.prepend hr, hpc, hnm⟩
  | brk ρ =>
    obtain ⟨n', m', hs', hh, hpc, hnm⟩ := h
    exact ⟨n + n', m', hs.trans hs', hh.prepend hr, hb _ hpc, hn.trans hnm⟩
  | ret vs =>
    obtain ⟨n', m', hs', hret⟩ := h
    exact ⟨n + n', m', hs.trans hs', hret⟩
  | error e =>
    obtain ⟨n', m', hs', hstop⟩ := h
    exact ⟨n + n', m', hs.trans hs', hstop⟩
  | timeout =>
    obtain ⟨n', m', hs', hle⟩ := h
    exact ⟨n + n', m', hs.trans hs', by omega⟩

/-- A flow and what runs after it. -/
theorem andThen {next : Scope → Flow} (h : Follows names names₁ stop₁ bs₁ t m r)
    (hn : names <:+ names₁) (hb : ∀ q ∈ bs₁, q ∈ bs₂)
    (hk : ∀ ρ m₁, Holds ρ m m₁ → m₁.frame.pc = stop₁ → ρ.names = names₁ →
      Follows names₁ names₂ stop₂ bs₂ t m₁ (next ρ)) :
    Follows names names₂ stop₂ bs₂ t m (r.andThen next) := by
  cases r with
  | normal ρ =>
    obtain ⟨n, m₁, hs, hh, hpc, hnm⟩ := h
    exact (hk ρ m₁ hh hpc hnm).weaken hs hh.rest hn (fun _ => id) (by omega)
  | brk ρ =>
    obtain ⟨n, m', hs, hh, hpc, hnm⟩ := h
    exact ⟨n, m', hs, hh, hb _ hpc, hnm⟩
  | ret vs => exact h
  | error e => exact h
  | timeout => exact h

/-- The flow of a block once the locals it declared are gone. -/
theorem close (h : Follows names names' stop bs t m r) (hn : names <:+ names') :
    Follows names names stop bs t m (r.close names.length) := by
  cases r with
  | normal ρ =>
    obtain ⟨n, m', hs, hh, hpc, rfl⟩ := h
    exact ⟨n, m', hs, ⟨hh.rest, hh.plain.close _, hh.held.close _⟩, hpc, Scope.names_close hn⟩
  | brk ρ =>
    obtain ⟨n, m', hs, hh, hpc, hnm⟩ := h
    refine ⟨n, m', hs, ⟨hh.rest, hh.plain.close _, hh.held.close _⟩, hpc, ?_⟩
    rw [Scope.names_close hnm]
  | ret vs => exact h
  | error e => exact h
  | timeout => exact h

/-- A flow that depends on an outcome, from a machine that does what the outcome says. -/
theorem of_does {α : Type} {o : Except Fault α} {g : α → Flow}
    (h : VM.Does m o fun x m' => m.Rest m' ∧ Follows names names' stop bs t m' (g x)) :
    Follows names names' stop bs t m (Flow.ofOutcome o g) := by
  cases o with
  | ok x =>
    obtain ⟨n, m', hs, hr, hf⟩ := h
    exact hf.weaken hs hr (List.suffix_refl _) (fun _ => id) (by omega)
  | error e => exact h

end Follows

/-- The code compiled from `c` to `c'`, placed in the running closure, does what `run` says from
its first instruction, for every clock and every scope with the names `names` that the registers
hold: the code after it starts at `c'`'s end, and the jumps out of the innermost loop are the
breaks recorded at `c'`. -/
def Executes (names names' : List String) (c c' : Compiler) (run : Nat → Scope → Flow) : Prop :=
  ∀ k ρ lc m, ρ.names = names → ρ.Plain → Placed lc.proto c'.fs c.fs.code.size → m.Runs lc →
    m.frame.pc = c.fs.code.size → m.frame.openCells = #[] → ρ.Held m.frame →
    Follows names names' c'.fs.code.size c'.fs.breaks k m (run k ρ)

/-- Compiled from any state tracked with the names `names` in scope, `act` leaves the state
tracked with `names'`, and its code executes `run`. -/
def Implements (names names' : List String) (act : CompileM Unit) (run : Nat → Scope → Flow) :
    Prop :=
  ∀ c c', Tracks names c.fs → act.run c = .ok ((), c') →
    Tracks names' c'.fs ∧ Advances c.fs c'.fs ∧ Executes names names' c c' run

/-- Nothing to compile runs to its end at once. -/
theorem implements_pure : Implements names names (pure ()) fun _ ρ => .normal ρ := by
  intro c c' h hc
  obtain ⟨-, rfl⟩ := run_pure_ok hc
  exact ⟨h, .refl _, fun k ρ lc m hn hpl _ _ hpc _ hh =>
    ⟨0, m, .refl m, ⟨.refl m, hpl, hh⟩, hpc, hn⟩⟩

/-- Code in sequence runs in sequence. -/
theorem Implements.bind {a b : CompileM Unit} {f g : Nat → Scope → Flow}
    (h₁ : Implements names names₁ a f) (h₂ : Implements names₁ names₂ b g) :
    Implements names names₂ (a >>= fun _ => b) fun k ρ => (f k ρ).andThen (g k) := by
  intro c c₂ h hr
  obtain ⟨u, c₁, hr₁, hr₂⟩ := run_bind_ok hr
  obtain ⟨ht₁, ha₁, he₁⟩ := h₁ c c₁ h hr₁
  obtain ⟨ht₂, ha₂, he₂⟩ := h₂ c₁ c₂ ht₁ hr₂
  refine ⟨ht₂, ha₁.trans ha₂, fun k ρ lc m hn hpl hp hrun hpc hoc hh => ?_⟩
  refine (he₁ k ρ lc m hn hpl (hp.earlier ha₂.settles (Nat.le_refl _)) hrun hpc hoc hh).andThen
    (ha₁.suffix h ht₁) (fun _ hq => ha₂.mem_breaks hq) fun ρ₁ m₁ hh₁ hpc₁ hn₁ => ?_
  exact he₂ k ρ₁ lc m₁ hn₁ hh₁.plain (hp.earlier (.refl _) ha₁.settles.size) (hh₁.rest.runs hrun)
    hpc₁ (hh₁.rest.openCells.trans hoc) hh₁.held

end Compiler

end LuaBytecode
