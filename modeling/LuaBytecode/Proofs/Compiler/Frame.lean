import LuaBytecode.Proofs.Compiler.Run
import LuaBytecode.Proofs.Instruction.Access
/-!
# What a compiler step keeps

The compiler writes one function at a time; the functions that enclose it wait in
`Compiler.enclosing`. A step may still touch them: when an inner function reads a local of an
outer one, the local is marked captured and the functions in between gain upvalues. Nothing
else of theirs changes. The relations here say so, and say what a step does to the function
being written:

* `Marked ps fs fs'`: an enclosing function kept its code, prototypes, registers, scope depth
  and locals (up to capture marks), and gained only upvalues that take registers from `ps`, the
  locals of its own parent (`AddsUpvalues`);
* `Nesting c c'`: every enclosing function is `Marked`, and the current one kept its prototypes
  as a prefix and gained only such upvalues;
* `Keeps`: a `Nesting` that also keeps the current function's locals, up to capture marks;
* `Emits a c c'`: the code written before stays, and each new instruction is `Within a`: it
  writes only registers from `a` up and reads, below `a`, only registers of locals;
* `Step a`, `ExprOk a`, `Quiet`: what evaluating into `a`, or only looking at a value, keeps.

Each relation is reflexive and transitive (`Nesting.trans`, `Step.trans`, ...), so a run is
followed step by step. `Into` and `Classifies` describe the actions that the instruction
shapes of `Compiler.Emit` are given for the parts of a node.
-/

namespace LuaBytecode

/-- A local with its capture mark cleared: what the register discipline sees of it. -/
def ActiveLocal.unmark (l : ActiveLocal) : ActiveLocal := { l with captured := false }

@[simp] theorem ActiveLocal.unmark_slot (l : ActiveLocal) : l.unmark.slot = l.slot := rfl

@[simp] theorem ActiveLocal.unmark_depth (l : ActiveLocal) : l.unmark.depth = l.depth := rfl

@[simp] theorem ActiveLocal.unmark_capture (l : ActiveLocal) :
    ({ l with captured := true } : ActiveLocal).unmark = l.unmark := rfl

namespace FuncState

/-- The registers of the active locals, in declaration order. -/
def slots (fs : FuncState) : List Nat := fs.actives.toList.map (·.slot)

theorem slots_of_unmark {fs fs' : FuncState}
    (h : fs'.actives.map ActiveLocal.unmark = fs.actives.map ActiveLocal.unmark) :
    fs'.slots = fs.slots := by
  have := congrArg (fun A : Array ActiveLocal => A.toList.map (·.slot)) h
  simpa [slots, Function.comp_def] using this

theorem slot_mem_slots {fs : FuncState} {l : ActiveLocal} (h : l ∈ fs.actives) :
    l.slot ∈ fs.slots :=
  List.mem_map_of_mem (Array.mem_toList_iff.mpr h)

end FuncState

/-! ## Upvalues gained -/

/-- `u'` is `u` with upvalues added at its end, each of which, when it takes a register of the
enclosing function, takes one of `ps`. -/
def AddsUpvalues (ps : List Nat) (u u' : Array (String × UpvalSource)) : Prop :=
  ∃ new : List (String × UpvalSource), u'.toList = u.toList ++ new ∧
    ∀ p ∈ new, ∀ r, p.2 = .register r → r ∈ ps

namespace AddsUpvalues

variable {ps : List Nat} {u u₁ u₂ u₃ : Array (String × UpvalSource)}

@[refl] theorem refl (ps : List Nat) (u : Array (String × UpvalSource)) : AddsUpvalues ps u u :=
  ⟨[], by simp, by simp⟩

theorem trans (h₁ : AddsUpvalues ps u₁ u₂) (h₂ : AddsUpvalues ps u₂ u₃) : AddsUpvalues ps u₁ u₃ := by
  obtain ⟨n₁, e₁, g₁⟩ := h₁
  obtain ⟨n₂, e₂, g₂⟩ := h₂
  refine ⟨n₁ ++ n₂, by rw [e₂, e₁, List.append_assoc], ?_⟩
  intro p hp
  rcases List.mem_append.mp hp with hp | hp
  · exact g₁ p hp
  · exact g₂ p hp

theorem push {name : String} {src : UpvalSource} (h : ∀ r, src = .register r → r ∈ ps) :
    AddsUpvalues ps u (u.push (name, src)) :=
  ⟨[(name, src)], by simp, by simpa using h⟩

theorem of_eq {u' : Array (String × UpvalSource)} (h : u' = u) : AddsUpvalues ps u u' :=
  h ▸ refl ps u

/-- Every register upvalue of `u'` beyond those of an empty start is one of `ps`. -/
theorem of_empty {u' : Array (String × UpvalSource)} (h : AddsUpvalues ps #[] u') :
    ∀ p ∈ u'.toList, ∀ r, p.2 = .register r → r ∈ ps := by
  obtain ⟨n, e, g⟩ := h
  simpa [e] using g

end AddsUpvalues

/-! ## Enclosing functions -/

/-- The registers of the locals of the function that encloses the one at nesting level `k`
(level `c.enclosing.size` is the current function); none for the main chunk. -/
def Compiler.outerSlots (c : Compiler) : Nat → List Nat
  | 0 => []
  | k + 1 => (c.enclosing[k]?.map FuncState.slots).getD []

/-- What compiling an inner function may do to an enclosing function `fs` whose own parent has
the locals `ps`: mark locals captured and add upvalues from `ps`. -/
structure Marked (ps : List Nat) (fs fs' : FuncState) : Prop where
  code : fs'.code = fs.code
  protos : fs'.protos = fs.protos
  usedRegs : fs'.usedRegs = fs.usedRegs
  depth : fs'.depth = fs.depth
  actives : fs'.actives.map ActiveLocal.unmark = fs.actives.map ActiveLocal.unmark
  upvalues : AddsUpvalues ps fs.upvalues fs'.upvalues

namespace Marked

variable {ps : List Nat} {fs₁ fs₂ fs₃ : FuncState}

@[refl] theorem refl (ps : List Nat) (fs : FuncState) : Marked ps fs fs :=
  ⟨rfl, rfl, rfl, rfl, rfl, .refl ps _⟩

theorem trans (h₁ : Marked ps fs₁ fs₂) (h₂ : Marked ps fs₂ fs₃) : Marked ps fs₁ fs₃ :=
  ⟨h₂.code.trans h₁.code, h₂.protos.trans h₁.protos, h₂.usedRegs.trans h₁.usedRegs,
    h₂.depth.trans h₁.depth, h₂.actives.trans h₁.actives, h₁.upvalues.trans h₂.upvalues⟩

theorem slots (h : Marked ps fs₁ fs₂) : fs₂.slots = fs₁.slots :=
  FuncState.slots_of_unmark h.actives

end Marked

/-- What any compiler step keeps: every enclosing function is only `Marked`, and the current
function keeps its prototypes as a prefix and only gains upvalues from its parent's locals. -/
structure Nesting (c c' : Compiler) : Prop where
  size : c'.enclosing.size = c.enclosing.size
  enclosing : ∀ k (h : k < c.enclosing.size) (h' : k < c'.enclosing.size),
    Marked (c.outerSlots k) c.enclosing[k] c'.enclosing[k]
  protos : c.fs.protos.toList <+: c'.fs.protos.toList
  upvalues : AddsUpvalues (c.outerSlots c.enclosing.size) c.fs.upvalues c'.fs.upvalues

namespace Nesting

variable {c c₁ c₂ c₃ : Compiler}

@[refl] theorem refl (c : Compiler) : Nesting c c :=
  ⟨rfl, fun _ _ _ => .refl _ _, List.prefix_refl _, .refl _ _⟩

/-- The parents of the functions up to the current one keep their locals' registers. -/
theorem outerSlots_eq (h : Nesting c₁ c₂) {k : Nat} (hk : k ≤ c₁.enclosing.size) :
    c₂.outerSlots k = c₁.outerSlots k := by
  cases k with
  | zero => rfl
  | succ k =>
    have h₁ : k < c₁.enclosing.size := hk
    have h₂ : k < c₂.enclosing.size := h.size ▸ h₁
    simp only [Compiler.outerSlots, Array.getElem?_eq_getElem h₁, Array.getElem?_eq_getElem h₂,
      Option.map_some, Option.getD_some]
    exact (h.enclosing k h₁ h₂).slots

theorem trans (h₁ : Nesting c₁ c₂) (h₂ : Nesting c₂ c₃) : Nesting c₁ c₃ where
  size := h₂.size.trans h₁.size
  enclosing k hk hk' := by
    have hk₂ : k < c₂.enclosing.size := h₁.size ▸ hk
    have e := h₁.outerSlots_eq (Nat.le_of_lt hk)
    exact (h₁.enclosing k hk hk₂).trans (e ▸ h₂.enclosing k hk₂ hk')
  protos := h₁.protos.trans h₂.protos
  upvalues := by
    have e := h₁.outerSlots_eq (Nat.le_refl _)
    rw [← h₁.size] at e
    exact h₁.upvalues.trans (h₁.size ▸ e ▸ h₂.upvalues)

/-- A step on the current function alone that extends its prototypes and gains only upvalues
from its parent's locals. -/
theorem of_fs {fs' : FuncState} (hp : c.fs.protos.toList <+: fs'.protos.toList)
    (hu : AddsUpvalues (c.outerSlots c.enclosing.size) c.fs.upvalues fs'.upvalues) :
    Nesting c { c with fs := fs' } :=
  ⟨rfl, fun _ _ _ => .refl _ _, hp, hu⟩

/-- Marking one enclosing function. -/
theorem setEnclosing {k : Nat} {fs' : FuncState} (hk : k < c.enclosing.size)
    (hm : Marked (c.outerSlots k) c.enclosing[k] fs') :
    Nesting c { c with enclosing := c.enclosing.set! k fs' } where
  size := by simp
  enclosing j hj hj' := by
    simp only [Array.set!_eq_setIfInBounds]
    rw [Array.getElem_setIfInBounds hj]
    split
    · subst_vars
      exact hm
    · exact .refl _ _
  protos := List.prefix_refl _
  upvalues := .refl _ _

end Nesting

/-- A `Nesting` that also keeps the current function's locals, up to capture marks. -/
structure Keeps (c c' : Compiler) : Prop extends Nesting c c' where
  actives : c'.fs.actives.map ActiveLocal.unmark = c.fs.actives.map ActiveLocal.unmark

namespace Keeps

variable {c c₁ c₂ c₃ : Compiler}

@[refl] theorem refl (c : Compiler) : Keeps c c := ⟨.refl c, rfl⟩

theorem trans (h₁ : Keeps c₁ c₂) (h₂ : Keeps c₂ c₃) : Keeps c₁ c₃ :=
  ⟨h₁.toNesting.trans h₂.toNesting, h₂.actives.trans h₁.actives⟩

theorem slots (h : Keeps c₁ c₂) : c₂.fs.slots = c₁.fs.slots :=
  FuncState.slots_of_unmark h.actives

theorem of_fs {fs' : FuncState} (hp : c.fs.protos.toList <+: fs'.protos.toList)
    (hu : fs'.upvalues = c.fs.upvalues) (ha : fs'.actives = c.fs.actives) :
    Keeps c { c with fs := fs' } :=
  ⟨.of_fs hp (.of_eq hu), by simp only [ha]⟩

end Keeps

/-! ## Instructions within a target -/

/-- Code targeting register `a` may read register `r`: it is at or above `a`, or a local's. -/
def Readable (slots : List Nat) (a r : Nat) : Prop := a ≤ r ∨ r ∈ slots

/-- An instruction of code that targets register `a`: it writes only registers from `a` up,
reads only readable registers, and a closure's prototype is among `protos`. -/
structure Instruction.Within (protos : Array Proto) (slots : List Nat) (a : Nat)
    (i : Instruction) : Prop where
  writes : ∀ r, i.writes r = true → a ≤ r
  reads : ∀ r, i.reads protos r = true → Readable slots a r
  proto : i.opcode = .closure → i.bx < protos.size

namespace Instruction

/-- Later prototypes do not change what an instruction reads. -/
theorem reads_of_extension {protos protos' : Array Proto} (hp : protos.toList <+: protos'.toList)
    {i : Instruction} (hb : i.opcode = .closure → i.bx < protos.size) (r : Nat) :
    i.reads protos' r = i.reads protos r := by
  by_cases hop : i.opcode = .closure
  · have hlt := hb hop
    have e : protos'[i.bx]? = protos[i.bx]? := by
      rw [← Array.getElem?_toList, ← Array.getElem?_toList]
      rw [(List.prefix_iff_getElem?.mp hp) i.bx (by simpa using hlt), List.getElem?_eq_getElem]
    simp only [reads, hop, e]
  · unfold reads
    split <;> first | rfl | exact absurd ‹_› hop

theorem Within.mono_protos {protos protos' : Array Proto} (hp : protos.toList <+: protos'.toList)
    {slots : List Nat} {a : Nat} {i : Instruction} (h : i.Within protos slots a) :
    i.Within protos' slots a where
  writes := h.writes
  reads r hr := h.reads r (by rwa [reads_of_extension hp h.proto] at hr)
  proto hop := Nat.lt_of_lt_of_le (h.proto hop) (by simpa using hp.length_le)

theorem Within.mono {protos : Array Proto} {slots : List Nat} {a a' : Nat} {i : Instruction}
    (h : i.Within protos slots a') (ha : a ≤ a') : i.Within protos slots a where
  writes r hr := Nat.le_trans ha (h.writes r hr)
  reads r hr := (h.reads r hr).imp_left (Nat.le_trans ha)
  proto := h.proto

end Instruction

/-- From `c` to `c'` the code written before stays, and every new instruction is within `a`
for the prototypes of `c'` and the locals of `c`. -/
structure Emits (a : Nat) (c c' : Compiler) : Prop where
  old : ∀ p, p < c.fs.code.size → c'.fs.code[p]? = c.fs.code[p]?
  new : ∀ p i, c.fs.code.size ≤ p → c'.fs.code[p]? = some i →
    i.Within c'.fs.protos c.fs.slots a

namespace Emits

variable {a : Nat} {c c₁ c₂ c₃ : Compiler}

theorem of_code_eq (h : c'.fs.code = c.fs.code) : Emits a c c' where
  old p _ := by rw [h]
  new p i hp hi := by
    rw [h, Array.getElem?_eq_none (by omega)] at hi
    cases hi

theorem size_le (h : Emits a c₁ c₂) : c₁.fs.code.size ≤ c₂.fs.code.size := by
  rcases Nat.eq_zero_or_pos c₁.fs.code.size with h0 | hpos
  · omega
  · have e := h.old (c₁.fs.code.size - 1) (by omega)
    rw [Array.getElem?_eq_getElem (by omega : c₁.fs.code.size - 1 < c₁.fs.code.size)] at e
    have := (Array.getElem?_eq_some_iff.mp e).1
    omega

theorem trans (h₁ : Emits a c₁ c₂) (h₂ : Emits a c₂ c₃) (hs : c₂.fs.slots = c₁.fs.slots)
    (hp : c₂.fs.protos.toList <+: c₃.fs.protos.toList) : Emits a c₁ c₃ where
  old p hp₁ := by
    rw [h₂.old p (Nat.lt_of_lt_of_le hp₁ h₁.size_le), h₁.old p hp₁]
  new p i hp₁ hi := by
    by_cases hp₂ : p < c₂.fs.code.size
    · rw [h₂.old p hp₂] at hi
      exact (h₁.new p i hp₁ hi).mono_protos hp
    · exact hs ▸ h₂.new p i (by omega) hi

theorem mono {a' : Nat} (h : Emits a' c₁ c₂) (ha : a ≤ a') : Emits a c₁ c₂ where
  old := h.old
  new p i hp hi := (h.new p i hp hi).mono ha

/-- Appending one instruction within `a`. -/
theorem push {i : Instruction} {line : Nat} (hi : i.Within c.fs.protos c.fs.slots a) :
    Emits a c { c with fs := c.fs.emit' i line } where
  old p hp := by simp [Array.getElem?_push, Nat.ne_of_lt hp]
  new p j hp hj := by
    simp only [FuncState.emit'_code, Array.getElem?_push] at hj
    split at hj
    · cases hj
      simpa using hi
    · rw [Array.getElem?_eq_none (by omega)] at hj
      cases hj

end Emits

/-- Evaluating into target `a`, with registers taken and given back on the way. -/
structure Step (a : Nat) (c c' : Compiler) : Prop extends Keeps c c', Emits a c c'

/-- Evaluating into target `a`: a `Step` that leaves the registers as they were. -/
structure ExprOk (a : Nat) (c c' : Compiler) : Prop extends Step a c c' where
  usedRegs : c'.fs.usedRegs = c.fs.usedRegs

/-- Looking at a value without evaluating it: nothing is emitted and no register is taken. -/
structure Quiet (c c' : Compiler) : Prop extends Keeps c c' where
  code : c'.fs.code = c.fs.code
  usedRegs : c'.fs.usedRegs = c.fs.usedRegs

namespace Step

variable {a : Nat} {c c₁ c₂ c₃ : Compiler}

@[refl] theorem refl (a : Nat) (c : Compiler) : Step a c c := ⟨.refl c, .of_code_eq rfl⟩

theorem trans (h₁ : Step a c₁ c₂) (h₂ : Step a c₂ c₃) : Step a c₁ c₃ :=
  ⟨h₁.toKeeps.trans h₂.toKeeps, h₁.toEmits.trans h₂.toEmits h₁.toKeeps.slots h₂.protos⟩

theorem mono {a' : Nat} (h : Step a' c₁ c₂) (ha : a ≤ a') : Step a c₁ c₂ :=
  ⟨h.toKeeps, h.toEmits.mono ha⟩

/-- A step on the current function alone that emits nothing and keeps its locals. -/
theorem of_fs {fs' : FuncState} (hp : fs'.protos = c.fs.protos)
    (hu : fs'.upvalues = c.fs.upvalues) (ha : fs'.actives = c.fs.actives)
    (hc : fs'.code = c.fs.code) : Step a c { c with fs := fs' } :=
  ⟨.of_fs (hp ▸ List.prefix_refl _) hu ha, .of_code_eq hc⟩

/-- Appending one instruction within `a`. -/
theorem emit {i : Instruction} {line : Nat} (hi : i.Within c.fs.protos c.fs.slots a) :
    Step a c { c with fs := c.fs.emit' i line } :=
  ⟨.of_fs (by simp) (by simp) (by simp), .push hi⟩

end Step

namespace ExprOk

variable {a : Nat} {c c₁ c₂ c₃ : Compiler}

@[refl] theorem refl (a : Nat) (c : Compiler) : ExprOk a c c := ⟨.refl a c, rfl⟩

theorem trans (h₁ : ExprOk a c₁ c₂) (h₂ : ExprOk a c₂ c₃) : ExprOk a c₁ c₃ :=
  ⟨h₁.toStep.trans h₂.toStep, h₂.usedRegs.trans h₁.usedRegs⟩

theorem mono {a' : Nat} (h : ExprOk a' c₁ c₂) (ha : a ≤ a') : ExprOk a c₁ c₂ :=
  ⟨h.toStep.mono ha, h.usedRegs⟩

/-- A step on the current function alone that emits nothing and keeps its locals and registers. -/
theorem of_fs {fs' : FuncState} (hp : fs'.protos = c.fs.protos)
    (hu : fs'.upvalues = c.fs.upvalues) (ha : fs'.actives = c.fs.actives)
    (hc : fs'.code = c.fs.code) (hr : fs'.usedRegs = c.fs.usedRegs) :
    ExprOk a c { c with fs := fs' } :=
  ⟨.of_fs hp hu ha hc, hr⟩

/-- Appending one instruction within `a`. -/
theorem emit {i : Instruction} {line : Nat} (hi : i.Within c.fs.protos c.fs.slots a) :
    ExprOk a c { c with fs := c.fs.emit' i line } :=
  ⟨.emit hi, by simp⟩

end ExprOk

namespace Quiet

variable {c c₁ c₂ c₃ : Compiler}

@[refl] theorem refl (c : Compiler) : Quiet c c := ⟨.refl c, rfl, rfl⟩

theorem trans (h₁ : Quiet c₁ c₂) (h₂ : Quiet c₂ c₃) : Quiet c₁ c₃ :=
  ⟨h₁.toKeeps.trans h₂.toKeeps, h₂.code.trans h₁.code, h₂.usedRegs.trans h₁.usedRegs⟩

theorem exprOk (h : Quiet c₁ c₂) (a : Nat) : ExprOk a c₁ c₂ :=
  ⟨⟨h.toKeeps, .of_code_eq h.code⟩, h.usedRegs⟩

theorem step (h : Quiet c₁ c₂) (a : Nat) : Step a c₁ c₂ := (h.exprOk a).toStep

end Quiet

/-! ## The actions given to instruction shapes -/

/-- What an operand may read: a constant no register, a local's register one of `slots`. -/
def Operand.Fits (slots : List Nat) : Operand → Prop
  | .const k => Instruction.isConst k = true
  | .reg r => r ∈ slots
  | _ => True

/-- An action that evaluates into any allocated register `r` keeps to `r`. -/
def Into (compile : Nat → CompileM Unit) : Prop :=
  ∀ r c c', r < c.fs.usedRegs → (compile r).run c = .ok ((), c') → ExprOk r c c'

/-- An action that finds where a value can be read: it emits nothing, takes no register and
yields an operand that fits the locals. -/
def Classifies (op : CompileM Operand) : Prop :=
  ∀ c c' o, op.run c = .ok (o, c') → Quiet c c' ∧ o.Fits c.fs.slots

end LuaBytecode
