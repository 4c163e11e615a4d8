import LuaBytecode.Proofs.Compiler.Triple
/-!
# What a name stands for

While the compiler writes a function, the functions around it wait in `Compiler.enclosing`;
together they form a stack of nesting levels, the main function at level 0 and the function
being written at the top (`Compiler.funcAt`). This module says what a name stands for at each
level, independently of how the compiler looks names up:

* `Compiler.binding c name k`: the innermost active local named `name` of the function at level
  `k`, else what the name stands for one level further out; past the main function only `_ENV`
  stands for something, the environment the chunk runs in (`Binding.chunkEnv`);
* `Compiler.upvalueBinding c k idx`: where upvalue `idx` of the function at level `k` leads,
  following its sources outward until the register of a local;
* `Compiler.Scoped c`: every upvalue of every function on the stack leads to what its name
  stands for outside that function, no two upvalues of a function share a name, and the
  finished prototypes inside them name each upvalue once.

The main statements: capturing a name for a function yields a source that leads to what the
name stands for outside it (`capture_lexical`, `resolveUpvalue_lexical`); every lookup the
compiler makes (`byName`: a local, else an upvalue, else a global) takes the branch of what the
name stands for (`byName_lexical`); hence, from a scoped state, the compiler reads, assigns and
stores every name as an access to what it stands for, and a global as a field of `_ENV`, itself
resolved by the same rule (`Scoped.looksUp`).
-/

namespace LuaBytecode

/-- `P` holds of a prototype and of every prototype nested in it, at any depth. -/
inductive Proto.Every (P : Proto → Prop) : Proto → Prop
  | intro {p : Proto} : P p → (∀ q ∈ p.protos, Proto.Every P q) → Proto.Every P p

/-- Each upvalue of the prototype has a name of its own. -/
def Proto.UpvaluesDistinct (p : Proto) : Prop := p.upvalueNames.toList.Nodup

/-- What a name stands for: register `reg` of the function at nesting level `level`, or the
environment the chunk runs in, which the main function holds as its upvalue `_ENV`. -/
inductive Binding where
  | local (level reg : Nat)
  | chunkEnv
  deriving DecidableEq, Repr

namespace Compiler

/-- The function at nesting level `k`: the enclosing functions, outermost first, are the levels
below `enclosing.size`, and the function being written is at level `enclosing.size`. -/
def funcAt (c : Compiler) (k : Nat) : FuncState :=
  if k = c.enclosing.size then c.fs else c.enclosing.getD k default

/-- What `name` stands for in the function at level `k`: its innermost active local there, else
what it stands for in the function around it. -/
def binding (c : Compiler) (name : String) : Nat → Option Binding
  | 0 => match (c.funcAt 0).slotOf name with
    | some r => some (.local 0 r)
    | none => if name = "_ENV" then some .chunkEnv else none
  | k + 1 => match (c.funcAt (k + 1)).slotOf name with
    | some r => some (.local (k + 1) r)
    | none => c.binding name k

/-- What `name` stands for just outside the function at level `k`. -/
def outside (c : Compiler) (name : String) : Nat → Option Binding
  | 0 => if name = "_ENV" then some .chunkEnv else none
  | k + 1 => c.binding name k

/-- Where upvalue `idx` of the function at level `k` leads: a register of the function around
it, or on through that function's upvalues; the main function's upvalues are the chunk's
environment. -/
def upvalueBinding (c : Compiler) : Nat → Nat → Option Binding
  | 0, idx => (c.funcAt 0).upvalues[idx]?.map fun _ => .chunkEnv
  | k + 1, idx => match (c.funcAt (k + 1)).upvalues[idx]? with
    | some (_, .register r) => some (.local k r)
    | some (_, .upvalue j) => c.upvalueBinding k j
    | none => none

/-- Where an upvalue of the function at level `k` with source `src` leads. -/
def sourceBinding (c : Compiler) : Nat → UpvalSource → Option Binding
  | 0, _ => some .chunkEnv
  | k + 1, .register r => some (.local k r)
  | k + 1, .upvalue j => c.upvalueBinding k j

/-- The scoping invariant of the stack of functions being written. -/
structure Scoped (c : Compiler) : Prop where
  /-- The main function has one upvalue, the chunk's environment. -/
  main : (c.funcAt 0).upvalues = #[("_ENV", .register 0)]
  /-- Every upvalue leads to what its name stands for outside its function. -/
  upvalues : ∀ k ≤ c.enclosing.size, ∀ (idx : Nat) (name : String) (src : UpvalSource),
    (c.funcAt k).upvalues[idx]? = some (name, src) →
      c.outside name k ≠ none ∧ c.sourceBinding k src = c.outside name k
  /-- No two upvalues of a function share a name. -/
  distinct : ∀ k ≤ c.enclosing.size, ((c.funcAt k).upvalues.toList.map Prod.fst).Nodup
  /-- The finished prototypes name each upvalue once. -/
  protos : ∀ k ≤ c.enclosing.size, ∀ p ∈ (c.funcAt k).protos, p.Every Proto.UpvaluesDistinct

variable {c c' : Compiler} {name : String} {k : Nat}

/-! ## The stack of functions -/

@[simp] theorem funcAt_size (c : Compiler) : c.funcAt c.enclosing.size = c.fs := if_pos rfl

theorem funcAt_lt (hk : k < c.enclosing.size) : c.funcAt k = c.enclosing[k] := by
  simp [funcAt, Nat.ne_of_lt hk, Array.getD_eq_getD_getElem?, Array.getElem?_eq_getElem hk]

theorem binding_eq (c : Compiler) (name : String) (k : Nat) :
    c.binding name k = match (c.funcAt k).slotOf name with
      | some r => some (.local k r)
      | none => c.outside name k := by
  cases k <;> rfl

theorem upvalueBinding_eq (c : Compiler) (k idx : Nat) :
    c.upvalueBinding k idx = match (c.funcAt k).upvalues[idx]? with
      | some (_, src) => c.sourceBinding k src
      | none => none := by
  cases k with
  | zero =>
    simp only [upvalueBinding]
    cases (c.funcAt 0).upvalues[idx]? <;> rfl
  | succ k =>
    simp only [upvalueBinding]
    split <;> first | rfl | (rename_i h; simp [h, sourceBinding])

/-! ## What depends on which levels

What a name stands for at level `k` depends only on the locals of the levels up to `k`, and
where an upvalue of level `k` leads only on the upvalues of the levels up to `k`. -/

theorem binding_congr (h : ∀ j ≤ k, (c'.funcAt j).slotOf = (c.funcAt j).slotOf) :
    c'.binding name k = c.binding name k := by
  induction k with
  | zero => simp only [binding, h 0 (Nat.le_refl 0)]
  | succ k ih =>
    simp only [binding, h (k + 1) (Nat.le_refl _), ih fun j hj => h j (Nat.le_succ_of_le hj)]

theorem outside_congr (h : ∀ j < k, (c'.funcAt j).slotOf = (c.funcAt j).slotOf) :
    c'.outside name k = c.outside name k := by
  cases k with
  | zero => rfl
  | succ k => exact binding_congr fun j hj => h j (Nat.lt_succ_of_le hj)

theorem extension_of_upvalues_eq {fs fs' : FuncState} (h : fs'.upvalues = fs.upvalues) :
    fs.upvalues.toList <+: fs'.upvalues.toList :=
  h ▸ List.prefix_refl _

/-- An upvalue keeps its index when others are added after it. -/
theorem getElem?_of_extension {u u' : Array (String × UpvalSource)} (h : u.toList <+: u'.toList)
    {idx : Nat} {q : String × UpvalSource} (hq : u[idx]? = some q) : u'[idx]? = some q := by
  rw [← Array.getElem?_toList] at hq ⊢
  obtain ⟨hlt, rfl⟩ := List.getElem?_eq_some_iff.mp hq
  exact List.prefix_iff_getElem?.mp h idx hlt

/-- Upvalues added at the end of the lower levels keep where the old ones lead. -/
theorem upvalueBinding_mono {b : Binding}
    (h : ∀ j ≤ k, (c.funcAt j).upvalues.toList <+: (c'.funcAt j).upvalues.toList) {idx : Nat}
    (hb : c.upvalueBinding k idx = some b) : c'.upvalueBinding k idx = some b := by
  induction k generalizing idx with
  | zero =>
    simp only [upvalueBinding, Option.map_eq_some_iff] at hb ⊢
    obtain ⟨q, hq, rfl⟩ := hb
    exact ⟨q, getElem?_of_extension (h 0 (Nat.le_refl 0)) hq, rfl⟩
  | succ k ih =>
    simp only [upvalueBinding] at hb ⊢
    split at hb
    · rename_i hq
      rw [getElem?_of_extension (h (k + 1) (Nat.le_refl _)) hq]
      exact hb
    · rename_i hq
      rw [getElem?_of_extension (h (k + 1) (Nat.le_refl _)) hq]
      exact ih (fun j hj => h j (Nat.le_succ_of_le hj)) hb
    · cases hb

theorem sourceBinding_mono {b : Binding} {src : UpvalSource}
    (h : ∀ j < k, (c.funcAt j).upvalues.toList <+: (c'.funcAt j).upvalues.toList)
    (hb : c.sourceBinding k src = some b) : c'.sourceBinding k src = some b := by
  cases k with
  | zero => exact hb
  | succ k =>
    cases src with
    | register r => exact hb
    | upvalue j => exact upvalueBinding_mono (fun i hi => h i (Nat.lt_succ_of_le hi)) hb

/-! ## The stack after a step -/

theorem funcAt_setFs (c : Compiler) (fs : FuncState) (k : Nat) :
    ({ c with fs } : Compiler).funcAt k = if k = c.enclosing.size then fs else c.funcAt k := by
  unfold funcAt
  split <;> rfl

theorem funcAt_setEnclosing {j : Nat} (fs : FuncState) (hj : j < c.enclosing.size) (k : Nat) :
    ({ c with enclosing := c.enclosing.set! j fs } : Compiler).funcAt k =
      if k = j then fs else c.funcAt k := by
  unfold funcAt
  simp only [Array.set!_eq_setIfInBounds, Array.size_setIfInBounds, Array.getD_eq_getD_getElem?,
    Array.getElem?_setIfInBounds]
  by_cases hk : k = j
  · subst hk
    simp [Nat.ne_of_lt hj, hj]
  · by_cases hn : k = c.enclosing.size
    · subst hn
      simp [hk]
    · simp [hk, hn, Ne.symm hk]

/-- Entering a nested function: the levels so far stay, and the new function is one above. -/
theorem funcAt_push (c : Compiler) (fs : FuncState) {k : Nat} (hk : k ≤ c.enclosing.size) :
    ({ c with fs, enclosing := c.enclosing.push c.fs } : Compiler).funcAt k = c.funcAt k := by
  unfold funcAt
  simp only [Array.size_push, Array.getD_eq_getD_getElem?, Array.getElem?_push]
  by_cases hn : k = c.enclosing.size
  · subst hn
    simp
  · simp [hn, show k ≠ c.enclosing.size + 1 by omega]

/-- Leaving a nested function: the function around it is the top again. -/
theorem funcAt_pop {parent : FuncState} {n : Nat} (hn : c.enclosing.size = n + 1)
    (hpar : c.enclosing[n]? = some parent) {k : Nat} (hk : k ≤ n) :
    ({ c with fs := parent, enclosing := c.enclosing.pop } : Compiler).funcAt k = c.funcAt k := by
  unfold funcAt
  simp only [Array.size_pop, hn, Nat.add_sub_cancel, Array.getD_eq_getD_getElem?, Array.getElem?_pop]
  by_cases hkn : k = n
  · subst hkn
    simp [hpar]
  · simp [hkn, show k ≠ n + 1 by omega, show k < n by omega]

/-! ## Keeping the invariant -/

/-- The invariant carries over to a state with the same levels when the locals below the top
stay, upvalues are only added at the end, each new one leads to what its name stands for
outside, and names stay distinct. -/
theorem Scoped.extend (hs : Scoped c) (hsize : c'.enclosing.size = c.enclosing.size)
    (hslot : ∀ j < c.enclosing.size, (c'.funcAt j).slotOf = (c.funcAt j).slotOf)
    (hup : ∀ j ≤ c.enclosing.size, (c.funcAt j).upvalues.toList <+: (c'.funcAt j).upvalues.toList)
    (hnew : ∀ j ≤ c.enclosing.size, ∀ (idx : Nat) (name : String) (src : UpvalSource),
      (c.funcAt j).upvalues.size ≤ idx → (c'.funcAt j).upvalues[idx]? = some (name, src) →
        c.outside name j ≠ none ∧ c.sourceBinding j src = c.outside name j)
    (hdist : ∀ j ≤ c.enclosing.size, ((c'.funcAt j).upvalues.toList.map Prod.fst).Nodup)
    (hmain : (c'.funcAt 0).upvalues = (c.funcAt 0).upvalues)
    (hprotos : ∀ j ≤ c.enclosing.size, ∀ p ∈ (c'.funcAt j).protos, p.Every Proto.UpvaluesDistinct) :
    Scoped c' where
  main := hmain.trans hs.main
  upvalues j hj idx name src hq := by
    rw [hsize] at hj
    -- an old upvalue is where it was; a new one is what the step promises
    have hold : c.outside name j ≠ none ∧ c.sourceBinding j src = c.outside name j := by
      by_cases hlt : idx < (c.funcAt j).upvalues.size
      · have hq₀ : (c.funcAt j).upvalues[idx]? = some ((c.funcAt j).upvalues[idx]) :=
          Array.getElem?_eq_getElem hlt
        rw [getElem?_of_extension (hup j hj) hq₀] at hq
        rw [Option.some.inj hq] at hq₀
        exact hs.upvalues j hj idx name src hq₀
      · exact hnew j hj idx name src (Nat.le_of_not_lt hlt) hq
    have ho : c'.outside name j = c.outside name j :=
      outside_congr fun i hi => hslot i (Nat.lt_of_lt_of_le hi hj)
    obtain ⟨b, hb⟩ := Option.ne_none_iff_exists'.mp hold.1
    rw [ho]
    refine ⟨hold.1, ?_⟩
    rw [hb] at hold ⊢
    exact sourceBinding_mono (fun i hi => hup i (Nat.le_of_lt (Nat.lt_of_lt_of_le hi hj))) hold.2
  distinct j hj := hdist j (hsize ▸ hj)
  protos j hj := hprotos j (hsize ▸ hj)

/-- A step on the function being written that keeps its upvalues keeps the invariant, when the
prototypes it holds name their upvalues once. -/
theorem Scoped.setFs (hs : Scoped c) {fs : FuncState} (hu : fs.upvalues = c.fs.upvalues)
    (hp : ∀ p ∈ fs.protos, p.Every Proto.UpvaluesDistinct) : Scoped { c with fs } := by
  have hat : ∀ j, j ≠ c.enclosing.size → ({ c with fs } : Compiler).funcAt j = c.funcAt j :=
    fun j hj => by rw [funcAt_setFs, if_neg hj]
  have hupv : ∀ j, (({ c with fs } : Compiler).funcAt j).upvalues = (c.funcAt j).upvalues := by
    intro j
    by_cases hj : j = c.enclosing.size
    · rw [funcAt_setFs, if_pos hj, hu, hj, funcAt_size]
    · rw [hat j hj]
  refine hs.extend rfl (fun j hj => by rw [hat j (Nat.ne_of_lt hj)])
    (fun j _ => extension_of_upvalues_eq (hupv j))
    (fun j _ idx _ _ hidx hq => ?_) (fun j hj => by rw [hupv j]; exact hs.distinct j hj) (hupv 0)
    (fun j hj p hmem => ?_)
  · rw [hupv j, Array.getElem?_eq_none hidx] at hq
    cases hq
  · by_cases hjn : j = c.enclosing.size
    · rw [funcAt_setFs, if_pos hjn] at hmem
      exact hp p hmem
    · rw [hat j hjn] at hmem
      exact hs.protos j hj p hmem

/-- Changing the function being written on the way: same upvalues, same prototypes. -/
theorem Scoped.setFs_same (hs : Scoped c) {fs : FuncState} (hu : fs.upvalues = c.fs.upvalues)
    (hp : fs.protos = c.fs.protos) : Scoped { c with fs } :=
  hs.setFs hu fun p hmem => hs.protos _ (Nat.le_refl _) p (by rw [funcAt_size, ← hp]; exact hmem)

/-- Entering a nested function, which starts with no upvalues and no prototypes. -/
theorem Scoped.push (hs : Scoped c) {fs : FuncState} (hu : fs.upvalues = #[])
    (hp : fs.protos = #[]) : Scoped { c with fs, enclosing := c.enclosing.push c.fs } := by
  have hat := @funcAt_push c fs
  have htop : ({ c with fs, enclosing := c.enclosing.push c.fs } : Compiler).funcAt
      (c.enclosing.size + 1) = fs := by
    rw [show c.enclosing.size + 1 = (c.enclosing.push c.fs).size by simp]
    exact funcAt_size _
  refine ⟨by rw [hat (Nat.zero_le _)]; exact hs.main, fun j hj idx name src hq => ?_,
    fun j hj => ?_, fun j hj p hmem => ?_⟩
  · simp only [Array.size_push] at hj
    rcases Nat.lt_or_ge c.enclosing.size j with hlt | hle
    · rw [show j = c.enclosing.size + 1 by omega, htop, hu] at hq
      cases hq
    · rw [hat hle] at hq
      have h₀ := hs.upvalues j hle idx name src hq
      -- what lies below level `j` is as it was
      have hsl : ∀ i < j, (({ c with fs, enclosing := c.enclosing.push c.fs } : Compiler).funcAt i).slotOf =
          (c.funcAt i).slotOf := fun i hi => by rw [hat (by omega)]
      have hsrc : ∀ i < j, (c.funcAt i).upvalues.toList <+:
          (({ c with fs, enclosing := c.enclosing.push c.fs } : Compiler).funcAt i).upvalues.toList :=
        fun i hi => extension_of_upvalues_eq (by rw [hat (by omega)])
      rw [outside_congr hsl]
      obtain ⟨b, hb⟩ := Option.ne_none_iff_exists'.mp h₀.1
      rw [hb] at h₀ ⊢
      exact ⟨Option.some_ne_none b, sourceBinding_mono hsrc h₀.2⟩
  · simp only [Array.size_push] at hj
    rcases Nat.lt_or_ge c.enclosing.size j with hlt | hle
    · rw [show j = c.enclosing.size + 1 by omega, htop, hu]
      simp
    · rw [hat hle]
      exact hs.distinct j hle
  · simp only [Array.size_push] at hj
    rcases Nat.lt_or_ge c.enclosing.size j with hlt | hle
    · rw [show j = c.enclosing.size + 1 by omega, htop, hp] at hmem
      simp at hmem
    · rw [hat hle] at hmem
      exact hs.protos j hle p hmem

/-- Leaving a nested function: the levels below it keep the invariant. -/
theorem Scoped.pop (hs : Scoped c) {parent : FuncState} {n : Nat} (hn : c.enclosing.size = n + 1)
    (hpar : c.enclosing[n]? = some parent) :
    Scoped { c with fs := parent, enclosing := c.enclosing.pop } := by
  have hat := @funcAt_pop c parent n hn hpar
  have hsize : ({ c with fs := parent, enclosing := c.enclosing.pop } : Compiler).enclosing.size = n := by
    simp [hn]
  refine ⟨by rw [hat (Nat.zero_le _)]; exact hs.main, fun j hj idx name src hq => ?_,
    fun j hj => ?_, fun j hj p hmem => ?_⟩
  · rw [hsize] at hj
    rw [hat hj] at hq
    have h₀ := hs.upvalues j (by omega) idx name src hq
    have hsl : ∀ i < j, (({ c with fs := parent, enclosing := c.enclosing.pop } :
        Compiler).funcAt i).slotOf = (c.funcAt i).slotOf := fun i hi => by rw [hat (by omega)]
    have hsrc : ∀ i < j, (c.funcAt i).upvalues.toList <+:
        (({ c with fs := parent, enclosing := c.enclosing.pop } : Compiler).funcAt i).upvalues.toList :=
      fun i hi => extension_of_upvalues_eq (by rw [hat (by omega)])
    rw [outside_congr hsl]
    obtain ⟨b, hb⟩ := Option.ne_none_iff_exists'.mp h₀.1
    rw [hb] at h₀ ⊢
    exact ⟨Option.some_ne_none b, sourceBinding_mono hsrc h₀.2⟩
  · rw [hsize] at hj
    rw [hat hj]
    exact hs.distinct j (by omega)
  · rw [hsize] at hj
    rw [hat hj] at hmem
    exact hs.protos j (by omega) p hmem

end Compiler

/-! ## Looking a name up in one function -/

namespace FuncState

variable {fs fs' : FuncState} {name : String}

theorem captureLocal_eq_none (h : fs.captureLocal name = none) : fs.slotOf name = none := by
  unfold captureLocal at h
  split at h
  · rename_i hj
    rw [List.findIdx?_eq_none_iff] at hj
    simp only [slotOf, Option.map_eq_none_iff, List.find?_eq_none]
    intro l hl
    simp [hj l hl]
  · cases h

/-- Capturing finds the innermost local of the name, as `slotOf` does, and marks it only. -/
theorem captureLocal_ok {slot : Nat} (h : fs.captureLocal name = some (fs', slot)) :
    fs.slotOf name = some slot ∧ fs'.slotOf = fs.slotOf ∧ fs'.upvalues = fs.upvalues ∧
      fs'.protos = fs.protos := by
  have hslots := slotOf_of_unmark (captureLocal_spec [] h).1.actives
  unfold captureLocal at h
  split at h
  · cases h
  · rename_i j hj
    cases h
    refine ⟨?_, hslots, rfl, rfl⟩
    obtain ⟨hlt, -⟩ := List.findIdx?_eq_some_iff_getElem.mp hj
    rw [List.length_reverse] at hlt
    have hi : fs.actives.size - 1 - j < fs.actives.size := by simp at hlt; omega
    rw [slotOf, List.find?_eq_bind_findIdx?_getElem?, hj, Option.bind_some,
      List.getElem?_reverse hlt, Array.length_toList, Array.getElem?_toList,
      Array.getElem?_eq_getElem hi, Array.getD_eq_getD_getElem?, Array.getElem?_eq_getElem hi]
    rfl

theorem upvalueIndex_some {idx : Nat} (h : fs.upvalueIndex name = some idx) :
    ∃ src, fs.upvalues[idx]? = some (name, src) := by
  obtain ⟨hlt, hp, -⟩ := Array.findIdx?_eq_some_iff_getElem.mp h
  refine ⟨fs.upvalues[idx].2, ?_⟩
  rw [Array.getElem?_eq_getElem hlt]
  simp only [beq_iff_eq] at hp
  rw [← hp]

theorem upvalueIndex_none (h : fs.upvalueIndex name = none) :
    name ∉ fs.upvalues.toList.map Prod.fst := by
  rw [upvalueIndex, Array.findIdx?_eq_none_iff] at h
  simp only [List.mem_map, Array.mem_toList_iff, not_exists, not_and]
  intro q hq hname
  simpa [hname] using h q hq

end FuncState

namespace Compiler

variable {c c' : Compiler} {name : String} {line : Nat}

/-- Past the main function a name that is not its upvalue stands for nothing. -/
theorem Scoped.outside_zero (hs : Scoped c) (hidx : (c.funcAt 0).upvalueIndex name = none) :
    c.outside name 0 = none := by
  have hmem := FuncState.upvalueIndex_none hidx
  rw [hs.main] at hmem
  simp only [outside]
  split
  · rename_i he
    subst he
    simp at hmem
  · rfl

/-- `c'` is `c` with the upvalue `(name, src)` added to the function at level `j`. -/
structure GainsUpvalue (c c' : Compiler) (j : Nat) (name : String) (src : UpvalSource) : Prop where
  size : c'.enclosing.size = c.enclosing.size
  other : ∀ i, i ≠ j → c'.funcAt i = c.funcAt i
  level : c'.funcAt j = { c.funcAt j with upvalues := (c.funcAt j).upvalues.push (name, src) }

namespace GainsUpvalue

variable {j : Nat} {src : UpvalSource}

theorem slotOf (ha : GainsUpvalue c c' j name src) (i : Nat) :
    (c'.funcAt i).slotOf = (c.funcAt i).slotOf := by
  by_cases hi : i = j
  · subst hi
    rw [ha.level]
    rfl
  · rw [ha.other i hi]

theorem upvalues_extension (ha : GainsUpvalue c c' j name src) (i : Nat) :
    (c.funcAt i).upvalues.toList <+: (c'.funcAt i).upvalues.toList := by
  by_cases hi : i = j
  · subst hi
    rw [ha.level]
    simp
  · exact extension_of_upvalues_eq (by rw [ha.other i hi])

/-- The new upvalue leads where its source led. -/
theorem upvalueBinding_new (ha : GainsUpvalue c c' j name src) {b : Binding}
    (hb : c.sourceBinding j src = some b) :
    c'.upvalueBinding j (c.funcAt j).upvalues.size = some b := by
  rw [upvalueBinding_eq, ha.level]
  dsimp only
  rw [Array.getElem?_push_size]
  exact sourceBinding_mono (fun i _ => ha.upvalues_extension i) hb

theorem setEnclosing {fs : FuncState} (hj : j < c.enclosing.size)
    (hfs : fs = { c.funcAt j with upvalues := (c.funcAt j).upvalues.push (name, src) }) :
    GainsUpvalue c { c with enclosing := c.enclosing.set! j fs } j name src where
  size := by simp
  other i hi := by rw [funcAt_setEnclosing fs hj, if_neg hi]
  level := by rw [funcAt_setEnclosing fs hj, if_pos rfl, hfs]

theorem setFs {fs : FuncState} (hfs : fs = { c.fs with upvalues := c.fs.upvalues.push (name, src) }) :
    GainsUpvalue c { c with fs } c.enclosing.size name src where
  size := rfl
  other i hi := by rw [funcAt_setFs, if_neg hi]
  level := by rw [funcAt_setFs, if_pos rfl, funcAt_size, hfs]

end GainsUpvalue

/-- Adding to a function above the main one an upvalue of a name it does not have yet, leading
to what the name stands for outside that function, keeps the invariant. -/
theorem Scoped.addUpvalue (hs : Scoped c) {j : Nat} {src : UpvalSource}
    (ha : GainsUpvalue c c' j name src) (hj : j ≤ c.enclosing.size) (h0 : j ≠ 0)
    (hfresh : (c.funcAt j).upvalueIndex name = none) (hne : c.outside name j ≠ none)
    (hsrc : c.sourceBinding j src = c.outside name j) : Scoped c' := by
  refine hs.extend ha.size (fun i _ => ha.slotOf i) (fun i _ => ha.upvalues_extension i)
    (fun i _ idx n' s' hbig hq => ?_) (fun i hi => ?_) (by rw [ha.other 0 (Ne.symm h0)])
    (fun i hi q hmem => ?_)
  · -- the only new upvalue is the one added
    by_cases hij : i = j
    · subst hij
      rw [ha.level, Array.getElem?_push] at hq
      split at hq
      · cases hq
        exact ⟨hne, hsrc⟩
      · rw [Array.getElem?_eq_none (by omega)] at hq
        cases hq
    · rw [ha.other i hij, Array.getElem?_eq_none hbig] at hq
      cases hq
  · by_cases hij : i = j
    · subst hij
      rw [ha.level]
      have hfresh' := FuncState.upvalueIndex_none hfresh
      simp only [Array.toList_push, List.map_append, List.map_cons, List.map_nil]
      refine List.nodup_append.mpr ⟨hs.distinct i hi, by simp, fun a ha' b hb => ?_⟩
      rw [List.mem_singleton] at hb
      rintro rfl
      exact hfresh' (hb ▸ ha')
    · rw [ha.other i hij]
      exact hs.distinct i hi
  · by_cases hij : i = j
    · subst hij
      rw [ha.level] at hmem
      exact hs.protos i hi q hmem
    · rw [ha.other i hij] at hmem
      exact hs.protos i hi q hmem

/-- Capturing `name` for the function at level `level`: it changes only levels below
`level`, marks locals and adds upvalues that keep the invariant, and yields a source that leads
to what the name stands for outside that function, or nothing for a global. -/
theorem capture_lexical :
    ∀ {level : Nat} {c c' : Compiler} {src : Option UpvalSource}, Scoped c →
      level ≤ c.enclosing.size → (c.funcAt level).upvalueIndex name = none →
      (capture name line level).run c = .ok (src, c') →
      Scoped c' ∧ c'.enclosing.size = c.enclosing.size ∧ (∀ j, level ≤ j → c'.funcAt j = c.funcAt j) ∧
        (∀ j, (c'.funcAt j).slotOf = (c.funcAt j).slotOf) ∧
        (∀ j, (c.funcAt j).upvalues.toList <+: (c'.funcAt j).upvalues.toList) ∧
        match src with
        | some s => c.outside name level ≠ none ∧ c'.sourceBinding level s = c.outside name level
        | none => c.outside name level = none ∧ c' = c
  | 0, c, c', src, hs, _, hidx, h => by
    obtain ⟨rfl, rfl⟩ := run_pure_ok h
    exact ⟨hs, rfl, fun _ _ => rfl, fun _ => rfl, fun _ => List.prefix_refl _,
      hs.outside_zero hidx, rfl⟩
  | level + 1, c, c', src, hs, hl, _, h => by
    have hlt : level < c.enclosing.size := hl
    have hparent : c.enclosing.getD level default = c.funcAt level := by
      rw [funcAt_lt hlt]
      simp [Array.getD_eq_getD_getElem?, Array.getElem?_eq_getElem hlt]
    simp only [capture] at h
    have h₁ := run_get_bind h
    rw [hparent] at h₁
    rcases hcap : (c.funcAt level).captureLocal name with _ | ⟨parent, slot⟩
    rotate_left
    · -- the parent declares the local: it is marked captured, nothing else changes
      rw [hcap] at h₁
      have h₂ := run_set_bind h₁
      obtain ⟨rfl, rfl⟩ := run_pure_ok h₂
      obtain ⟨hslot, hslots, hup, hpro⟩ := FuncState.captureLocal_ok hcap
      have hat := funcAt_setEnclosing (c := c) parent hlt
      have hsame : ∀ j, (({ c with enclosing := c.enclosing.set! level parent } : Compiler).funcAt j).slotOf
          = (c.funcAt j).slotOf ∧
          (({ c with enclosing := c.enclosing.set! level parent } : Compiler).funcAt j).upvalues
          = (c.funcAt j).upvalues ∧
          (({ c with enclosing := c.enclosing.set! level parent } : Compiler).funcAt j).protos
          = (c.funcAt j).protos := by
        intro j
        rw [hat j]
        split
        · subst_vars
          exact ⟨hslots, hup, hpro⟩
        · exact ⟨rfl, rfl, rfl⟩
      refine ⟨hs.extend (by simp) (fun j _ => (hsame j).1) (fun j _ => extension_of_upvalues_eq (hsame j).2.1)
        (fun j _ idx _ _ hidx hq => ?_) (fun j hj => by rw [(hsame j).2.1]; exact hs.distinct j hj)
        (hsame 0).2.1 (fun j hj p hmem => hs.protos j hj p (by rwa [← (hsame j).2.2])),
        by simp, fun j hj => by rw [hat j, if_neg (by omega)], fun j => (hsame j).1,
        fun j => extension_of_upvalues_eq (hsame j).2.1, ?_, ?_⟩
      · rw [(hsame j).2.1, Array.getElem?_eq_none hidx] at hq
        cases hq
      · show c.binding name level ≠ none
        rw [binding_eq, hslot]
        exact Option.some_ne_none _
      · show some (Binding.local level slot) = c.binding name level
        rw [binding_eq, hslot]
    · rw [hcap] at h₁
      have hno := FuncState.captureLocal_eq_none hcap
      rcases hidx : (c.funcAt level).upvalueIndex name with _ | idx
      rotate_left
      · -- the parent already has the upvalue
        rw [hidx] at h₁
        obtain ⟨rfl, rfl⟩ := run_pure_ok h₁
        obtain ⟨s, hq⟩ := FuncState.upvalueIndex_some hidx
        obtain ⟨hne, hsrc⟩ := hs.upvalues level (Nat.le_of_lt hlt) idx name s hq
        have ho : c.outside name (level + 1) = c.outside name level := by
          show c.binding name level = _
          rw [binding_eq, hno]
        refine ⟨hs, rfl, fun _ _ => rfl, fun _ => rfl, fun _ => List.prefix_refl _, ?_, ?_⟩
        · rw [ho]
          exact hne
        · rw [ho, sourceBinding, upvalueBinding_eq, hq]
          exact hsrc
      · -- the parent gets the upvalue from further out
        rw [hidx] at h₁
        have ho : c.outside name (level + 1) = c.outside name level := by
          show c.binding name level = _
          rw [binding_eq, hno]
        obtain ⟨src', c₂, hrec, h₂⟩ := run_bind_ok h₁
        obtain ⟨hs₂, hsize₂, hat₂, hslot₂, hpre₂, hres⟩ :=
          capture_lexical hs (Nat.le_of_lt hlt) hidx hrec
        split at h₂
        · rename_i s
          obtain ⟨hne, hsrc⟩ := hres
          have h₃ := run_get_bind h₂
          obtain ⟨p, c₅, hlift, h₄⟩ := run_bind_ok h₃
          obtain ⟨hadd, rfl⟩ := run_lift_ok hlift
          have h₅ := run_set_bind h₄
          obtain ⟨rfl, rfl⟩ := run_pure_ok h₅
          have hlt₂ : level < c₂.enclosing.size := hsize₂ ▸ hlt
          have hlevel₂ : c₂.funcAt level = c.funcAt level := hat₂ level (Nat.le_refl _)
          have hpar₂ : c₂.enclosing.getD level default = c₂.funcAt level := by
            rw [funcAt_lt hlt₂]
            simp [Array.getD_eq_getD_getElem?, Array.getElem?_eq_getElem hlt₂]
          rw [hpar₂] at hadd
          obtain ⟨hp, hidx'⟩ := FuncState.addUpvalue_ok hadd
          have ha := GainsUpvalue.setEnclosing hlt₂ hp
          have hout₂ : c₂.outside name level = c.outside name level :=
            outside_congr fun j _ => hslot₂ j
          -- the main function gains nothing: a name that is not its upvalue is no capture there
          have hl0 : level ≠ 0 := by
            rintro rfl
            exact hne (hs.outside_zero hidx)
          obtain ⟨b, hb⟩ := Option.ne_none_iff_exists'.mp hne
          refine ⟨hs₂.addUpvalue ha (Nat.le_of_lt hlt₂) hl0 (by rw [hlevel₂]; exact hidx)
              (by rw [hout₂]; exact hne) (by rw [hout₂]; exact hsrc), by simp [hsize₂],
            fun j hj => ?_, fun j => ?_, fun j => (hpre₂ j).trans (ha.upvalues_extension j), ?_, ?_⟩
          · rw [ha.other j (by omega)]
            exact hat₂ j (by omega)
          · rw [ha.slotOf j]
            exact hslot₂ j
          · rw [ho]
            exact hne
          · -- the new upvalue of the parent is where the source leads
            rw [ho, hb, sourceBinding, hidx']
            rw [hb] at hsrc
            exact ha.upvalueBinding_new hsrc
        · obtain ⟨hnone₂, rfl⟩ := hres
          obtain ⟨rfl, rfl⟩ := run_pure_ok h₂
          exact ⟨hs, rfl, fun _ _ => rfl, fun _ => rfl, fun _ => List.prefix_refl _,
            by rw [ho]; exact hnone₂, rfl⟩


/-- Looking an upvalue up for the function being written: one it has, or one captured now, leads
to what its name stands for outside the function; a name that stands for nothing there leaves
the state as it was. -/
theorem resolveUpvalue_lexical {x : Option Nat} (hs : Scoped c)
    (h : (resolveUpvalue name line).run c = .ok (x, c')) :
    Scoped c' ∧ c'.enclosing.size = c.enclosing.size ∧
      (∀ j, (c'.funcAt j).slotOf = (c.funcAt j).slotOf) ∧
      match x with
      | some idx => c'.fs.upvalues[idx]?.map Prod.fst = some name ∧
          c.outside name c.enclosing.size ≠ none ∧
          c'.upvalueBinding c.enclosing.size idx = c.outside name c.enclosing.size
      | none => c.outside name c.enclosing.size = none ∧ c' = c := by
  simp only [resolveUpvalue] at h
  have h₁ := run_get_bind h
  split at h₁
  · -- an upvalue the function already has
    rename_i idx hidx
    obtain ⟨rfl, rfl⟩ := run_pure_ok h₁
    obtain ⟨src, hq⟩ := FuncState.upvalueIndex_some hidx
    have hq' : (c.funcAt c.enclosing.size).upvalues[idx]? = some (name, src) := by
      rw [funcAt_size]
      exact hq
    obtain ⟨hne, hsrc⟩ := hs.upvalues _ (Nat.le_refl _) idx name src hq'
    refine ⟨hs, rfl, fun _ => rfl, by rw [hq]; rfl, hne, ?_⟩
    rw [upvalueBinding_eq, hq']
    exact hsrc
  · rename_i hidx
    have hidx' : (c.funcAt c.enclosing.size).upvalueIndex name = none := by
      rw [funcAt_size]
      exact hidx
    have h₂ := run_get_bind h₁
    obtain ⟨src, c₂, hcap, h₃⟩ := run_bind_ok h₂
    obtain ⟨hs₂, hsize₂, hat₂, hslot₂, -, hres⟩ := capture_lexical hs (Nat.le_refl _) hidx' hcap
    split at h₃
    · -- a new upvalue, captured from the enclosing functions
      rename_i s
      obtain ⟨hne, hsrc⟩ := hres
      obtain ⟨idx, h₄, rfl⟩ := run_map_ok h₃
      obtain ⟨fs', hadd, rfl⟩ := run_onFs h₄
      obtain ⟨hfs, rfl⟩ := FuncState.addUpvalue_ok hadd
      have ha := GainsUpvalue.setFs hfs
      rw [hsize₂] at ha
      have htop₂ : c₂.funcAt c.enclosing.size = c.fs := by
        rw [hat₂ _ (Nat.le_refl _), funcAt_size]
      have hout₂ : c₂.outside name c.enclosing.size = c.outside name c.enclosing.size :=
        outside_congr fun j _ => hslot₂ j
      have h0 : c.enclosing.size ≠ 0 := by
        intro h0
        apply hne
        rw [h0] at hidx' ⊢
        exact hs.outside_zero hidx'
      obtain ⟨b, hb⟩ := Option.ne_none_iff_exists'.mp hne
      refine ⟨hs₂.addUpvalue ha (by omega) h0 (by rw [htop₂]; exact hidx)
          (by rw [hout₂]; exact hne) (by rw [hout₂]; exact hsrc), by simp [hsize₂],
        fun j => (ha.slotOf j).trans (hslot₂ j), by simp [hfs], hne, ?_⟩
      rw [hb] at hsrc ⊢
      have hnew := ha.upvalueBinding_new hsrc
      rwa [← hsize₂, funcAt_size, hsize₂] at hnew
    · obtain ⟨hnone, rfl⟩ := hres
      obtain ⟨rfl, rfl⟩ := run_pure_ok h₃
      exact ⟨hs, rfl, fun _ => rfl, hnone, rfl⟩


/-! ## Looking a name up -/

/-- Upvalue `idx` of the function being written is named `name` and leads to what `name` stands
for there. -/
def UpvalueReaches (c : Compiler) (name : String) (idx : Nat) : Prop :=
  c.fs.upvalues[idx]?.map Prod.fst = some name ∧ c.binding name c.enclosing.size ≠ none ∧
    c.upvalueBinding c.enclosing.size idx = c.binding name c.enclosing.size

/-- The one way the compiler looks a name up: its innermost local in the function being written,
else an upvalue (found or captured now), else a global. -/
def byName {α : Type} (name : String) (line : Nat) (onLocal onUpval : Nat → CompileM α)
    (onGlobal : CompileM α) : CompileM α := do
  match (← get).fs.slotOf name with
  | some slot => onLocal slot
  | none =>
    match ← resolveUpvalue name line with
    | some idx => onUpval idx
    | none => onGlobal

theorem binding_size (c : Compiler) (name : String) :
    c.binding name c.enclosing.size = match c.fs.slotOf name with
      | some r => some (.local c.enclosing.size r)
      | none => c.outside name c.enclosing.size := by
  rw [binding_eq, funcAt_size]

/-- Each lookup takes the branch of what the name stands for: a local of the function being
written, something further out, reached through an upvalue that leads to it, or nothing. -/
theorem byName_lexical {α : Type} {onLocal onUpval : Nat → CompileM α} {onGlobal : CompileM α}
    {x : α} (hs : Scoped c) (h : (byName name line onLocal onUpval onGlobal).run c = .ok (x, c')) :
    (∃ r, c.binding name c.enclosing.size = some (.local c.enclosing.size r) ∧
        (onLocal r).run c = .ok (x, c')) ∨
      (∃ idx c₁, Scoped c₁ ∧ c₁.binding name c₁.enclosing.size = c.binding name c.enclosing.size ∧
        c₁.UpvalueReaches name idx ∧ (onUpval idx).run c₁ = .ok (x, c')) ∨
      (c.binding name c.enclosing.size = none ∧ onGlobal.run c = .ok (x, c')) := by
  have h₁ := run_get_bind h
  split at h₁
  · rename_i r hr
    exact .inl ⟨r, by rw [binding_size, hr], h₁⟩
  · rename_i hr
    have hb : c.binding name c.enclosing.size = c.outside name c.enclosing.size := by
      rw [binding_size, hr]
    obtain ⟨idx, c₁, hres, h₂⟩ := run_bind_ok h₁
    obtain ⟨hs₁, hsize₁, hslot₁, hidx⟩ := resolveUpvalue_lexical hs hres
    split at h₂
    · rename_i i
      obtain ⟨hname, hne, hup⟩ := hidx
      have hb₁ : c₁.binding name c₁.enclosing.size = c.binding name c.enclosing.size := by
        rw [hsize₁]
        exact binding_congr fun j _ => hslot₁ j
      refine .inr (.inl ⟨i, c₁, hs₁, hb₁, ⟨hname, ?_, ?_⟩, h₂⟩)
      · rw [hb₁, hb]
        exact hne
      · rw [hb₁, hb, hsize₁]
        exact hup
    · obtain ⟨hnone, rfl⟩ := hidx
      exact .inr (.inr ⟨hb.trans hnone, h₂⟩)

/-- `_ENV` always stands for something: a local of that name, or the chunk's environment. -/
theorem binding_env (c : Compiler) (k : Nat) : c.binding "_ENV" k ≠ none := by
  induction k with
  | zero =>
    simp only [binding]
    split <;> simp
  | succ k ih =>
    simp only [binding]
    split
    · simp
    · exact ih

theorem run_get_bind_eq {α : Type} (f : Compiler → CompileM α) : (get >>= f).run c = (f c).run c :=
  rfl

/-- A name that stands for nothing outside the function at level `level` is captured as nothing,
and nothing changes. -/
theorem capture_global : ∀ {level : Nat} {c : Compiler}, Scoped c → level ≤ c.enclosing.size →
    c.outside name level = none → (capture name line level).run c = .ok (none, c)
  | 0, _, _, _, _ => rfl
  | level + 1, c, hs, hl, hout => by
    have hlt : level < c.enclosing.size := hl
    have hparent : c.enclosing.getD level default = c.funcAt level := by
      rw [funcAt_lt hlt]
      simp [Array.getD_eq_getD_getElem?, Array.getElem?_eq_getElem hlt]
    have hbind : c.binding name level = none := hout
    rw [binding_eq] at hbind
    -- no local of the parent, and hence no capture there
    have hslot : (c.funcAt level).slotOf name = none := by
      revert hbind
      cases (c.funcAt level).slotOf name <;> simp
    rw [hslot] at hbind
    dsimp only at hbind
    have hcap : (c.funcAt level).captureLocal name = none := by
      rcases hc : (c.funcAt level).captureLocal name with _ | ⟨fs', slot⟩
      · rfl
      · rw [(FuncState.captureLocal_ok hc).1] at hslot
        cases hslot
    -- no upvalue of the parent either: it would lead to what the name stands for
    have hidx : (c.funcAt level).upvalueIndex name = none := by
      rcases hi : (c.funcAt level).upvalueIndex name with _ | idx
      · rfl
      · obtain ⟨src, hq⟩ := FuncState.upvalueIndex_some hi
        exact absurd hbind (hs.upvalues level (Nat.le_of_lt hlt) idx name src hq).1
    have ih : (capture name line level).run c = .ok (none, c) :=
      capture_global hs (Nat.le_of_lt hlt) hbind
    simp only [capture]
    rw [run_get_bind_eq]
    simp only [hparent, hcap, hidx]
    rw [run_bind_of_ok ih]
    rfl

/-- A lookup of a name that stands for nothing takes the global branch in the same state. -/
theorem byName_global {α : Type} {onLocal onUpval : Nat → CompileM α} {onGlobal : CompileM α}
    (hs : Scoped c) (hb : c.binding name c.enclosing.size = none) :
    (byName name line onLocal onUpval onGlobal).run c = onGlobal.run c := by
  rw [binding_size] at hb
  have hslot : c.fs.slotOf name = none := by
    revert hb
    cases c.fs.slotOf name <;> simp
  rw [hslot] at hb
  dsimp only at hb
  have hidx : c.fs.upvalueIndex name = none := by
    rcases hi : c.fs.upvalueIndex name with _ | idx
    · rfl
    · obtain ⟨src, hq⟩ := FuncState.upvalueIndex_some hi
      rw [← funcAt_size] at hq
      exact absurd hb (hs.upvalues _ (Nat.le_refl _) idx name src hq).1
  have hcap : (capture name line c.enclosing.size).run c = .ok (none, c) :=
    capture_global hs (Nat.le_refl _) hb
  have hres : (resolveUpvalue name line).run c = .ok (none, c) := by
    simp only [resolveUpvalue]
    rw [run_get_bind_eq]
    simp only [hidx]
    rw [run_get_bind_eq, run_bind_of_ok hcap]
    rfl
  simp only [byName]
  rw [run_get_bind_eq]
  simp only [hslot]
  rw [run_bind_of_ok hres]


/-- A name stands for a local of its own level or of one further out. -/
theorem binding_local_le {j k r : Nat} (h : c.binding name j = some (.local k r)) : k ≤ j := by
  induction j with
  | zero =>
    simp only [binding] at h
    split at h
    · cases h
      exact Nat.le_refl _
    · split at h <;> cases h
  | succ j ih =>
    simp only [binding] at h
    split at h
    · cases h
      exact Nat.le_refl _
    · exact Nat.le_succ_of_le (ih h)

/-- Outside a function no name stands for one of its own locals. -/
theorem outside_ne_local {k r : Nat} : c.outside name k ≠ some (.local k r) := by
  intro h
  cases k with
  | zero =>
    simp only [outside] at h
    split at h <;> cases h
  | succ k =>
    have h' : c.binding name k = some (.local (k + 1) r) := h
    have := binding_local_le h'
    omega

theorem binding_setFs {fs : FuncState} (h : fs.slotOf = c.fs.slotOf) (k : Nat) :
    ({ c with fs } : Compiler).binding name k = c.binding name k := by
  refine binding_congr fun j _ => ?_
  rw [funcAt_setFs]
  split
  · rename_i hj
    rw [hj, funcAt_size]
    exact h
  · rfl

end Compiler

/-- What an operand stands for, read in the function being written in state `c`: the register of
the innermost local of `name` there, an upvalue that leads to what `name` stands for, or a global
when `name` stands for nothing. -/
def Operand.Reaches (c : Compiler) (name : String) : Operand → Prop
  | .reg r => c.binding name c.enclosing.size = some (.local c.enclosing.size r)
  | .upval idx => c.UpvalueReaches name idx
  | .global => c.binding name c.enclosing.size = none
  | .const _ | .temp => False

namespace Compiler

/-- Where an assignment to `name` stores, in the function being written in state `c`: as for
operands, and a global keeps its name. -/
def Target.Reaches (c : Compiler) (name : String) : Target → Prop
  | .local slot => c.binding name c.enclosing.size = some (.local c.enclosing.size slot)
  | .upval idx => c.UpvalueReaches name idx
  | .global n => n = name ∧ c.binding name c.enclosing.size = none
  | .indexed _ _ => False

/-- In state `c` every way the compiler looks a name up reaches what the name stands for in the
function being written, and leaves what names stand for as it was. -/
structure LooksUpLexically (c : Compiler) : Prop where
  /-- A name read in place: its local's register, an upvalue leading to it, or a global. -/
  classify : ∀ name line op c', (classifyName name line).run c = .ok (op, c') →
    c'.binding name c'.enclosing.size = c.binding name c.enclosing.size ∧ op.Reaches c' name
  /-- A name assigned to: its local, an upvalue leading to it, or the global. -/
  target : ∀ name line t c', (nameTarget name line).run c = .ok (t, c') →
    c'.binding name c'.enclosing.size = c.binding name c.enclosing.size ∧ t.Reaches c' name
  /-- A local is read by a `move` from its register. -/
  readLocal : ∀ name a line r, c.binding name c.enclosing.size = some (.local c.enclosing.size r) →
    (compileName name a line).run c = (updateFs (·.emitMove a r line)).run c
  /-- What stands further out is read by `getupval` from an upvalue that leads to it. -/
  readUpvalue : ∀ name a line b c', c.binding name c.enclosing.size = some b →
    (∀ r, b ≠ .local c.enclosing.size r) → (compileName name a line).run c = .ok ((), c') →
    ∃ idx c₁, c₁.UpvalueReaches name idx ∧ (emitABC .getUpval a idx 0 line).run c₁ = .ok ((), c')
  /-- A global is read as the field of `_ENV`, itself looked up as a name. -/
  readGlobal : ∀ name a line, c.binding name c.enclosing.size = none →
    (compileName name a line).run c = (compileExpr (.field (.name "_ENV" line) name line) a 1).run c
  /-- A global is stored into the field of `_ENV`, reached as a name. -/
  storeGlobal : ∀ name v line c', (store (.global name) v line).run c = .ok ((), c') →
    (∃ r, c.binding "_ENV" c.enclosing.size = some (.local c.enclosing.size r) ∧
        (storeField .setTable r name v line).run c = .ok ((), c')) ∨
      (∃ idx c₁, c₁.UpvalueReaches "_ENV" idx ∧
        (storeField .setTabUp idx name v line).run c₁ = .ok ((), c'))

theorem classifyName_eq (name : String) (line : Nat) :
    classifyName name line = byName name line (fun r => pure (.reg r)) (fun idx => pure (.upval idx))
      (do let _ ← addConstant (.str name); pure .global) :=
  rfl

theorem nameTarget_eq (name : String) (line : Nat) :
    nameTarget name line = byName name line (fun r => pure (.local r)) (fun idx => pure (.upval idx))
      (pure (.global name)) :=
  rfl

theorem compileName_eq (name : String) (a line : Nat) :
    compileName name a line = byName name line (fun r => updateFs (·.emitMove a r line))
      (fun idx => emitABC .getUpval a idx 0 line)
      (if name == "_ENV" then throw (.internal "_ENV is not in scope")
        else indexWith (classifyName "_ENV" line) (fun r => compileEnv r line)
          (constOperand (.str name)) (fun r => updateFs (·.emitLoadK r (.str name) line)) a line) :=
  rfl

theorem store_global_eq (name : String) (v line : Nat) :
    store (.global name) v line = byName "_ENV" line (fun r => storeField .setTable r name v line)
      (fun idx => storeField .setTabUp idx name v line) (throw (.internal "_ENV is not in scope")) :=
  rfl

/-- `_ENV` is read as the name it is. -/
theorem compileName_env (a line : Nat) : compileName "_ENV" a line = compileEnv a line := by
  simp only [compileName, compileEnv]
  rfl

theorem compileExpr_envField (name : String) (a line : Nat) :
    compileExpr (.field (.name "_ENV" line) name line) a 1 =
      indexWith (classifyName "_ENV" line) (fun r => compileEnv r line) (constOperand (.str name))
        (fun r => updateFs (·.emitLoadK r (.str name) line)) a line := by
  simp only [compileExpr, classify, Expr.literal?, compileName_env]

theorem addConstant_slotOf (fs : FuncState) (k : Constant) :
    (fs.addConstant k).1.slotOf = fs.slotOf := by
  funext name
  simp [FuncState.slotOf]

/-- The invariant makes every lookup lexical. -/
theorem Scoped.looksUp (hs : Scoped c) : LooksUpLexically c where
  classify name line op c' h := by
    rw [classifyName_eq] at h
    rcases byName_lexical hs h with ⟨r, hr, h'⟩ | ⟨idx, c₁, -, hb, hup, h'⟩ | ⟨hnone, h'⟩
    · obtain ⟨rfl, rfl⟩ := run_pure_ok h'
      exact ⟨rfl, hr⟩
    · obtain ⟨rfl, rfl⟩ := run_pure_ok h'
      exact ⟨hb, hup⟩
    · obtain ⟨k, c₁, hk, h₁⟩ := run_bind_ok h'
      obtain ⟨rfl, rfl⟩ := run_pure_ok h₁
      obtain ⟨fs', hfs, rfl⟩ := run_onFs hk
      have hfs' : fs' = (c.fs.addConstant (.str name)).1 := by rw [Except.ok.inj hfs]
      subst hfs'
      have hb : ({ c with fs := (c.fs.addConstant (.str name)).1 } : Compiler).binding name
          c.enclosing.size = c.binding name c.enclosing.size :=
        binding_setFs (addConstant_slotOf c.fs (.str name)) _
      exact ⟨hb, hb.trans hnone⟩
  target name line t c' h := by
    rw [nameTarget_eq] at h
    rcases byName_lexical hs h with ⟨r, hr, h'⟩ | ⟨idx, c₁, -, hb, hup, h'⟩ | ⟨hnone, h'⟩
    · obtain ⟨rfl, rfl⟩ := run_pure_ok h'
      exact ⟨rfl, hr⟩
    · obtain ⟨rfl, rfl⟩ := run_pure_ok h'
      exact ⟨hb, hup⟩
    · obtain ⟨rfl, rfl⟩ := run_pure_ok h'
      exact ⟨rfl, rfl, hnone⟩
  readLocal name a line r hr := by
    have hslot : c.fs.slotOf name = some r := by
      rw [binding_size] at hr
      split at hr
      · rename_i r' hr'
        cases hr
        exact hr'
      · exact absurd hr outside_ne_local
    rw [compileName_eq]
    simp only [byName]
    rw [run_get_bind_eq]
    simp only [hslot]
  readUpvalue name a line b c' hb hnot h := by
    rw [compileName_eq] at h
    rcases byName_lexical hs h with ⟨r, hr, -⟩ | ⟨idx, c₁, -, -, hup, h'⟩ | ⟨hnone, -⟩
    · rw [hr] at hb
      exact absurd (Option.some.inj hb).symm (hnot r)
    · exact ⟨idx, c₁, hup, h'⟩
    · rw [hb] at hnone
      cases hnone
  readGlobal name a line hnone := by
    have hne : name ≠ "_ENV" := by
      rintro rfl
      exact binding_env c _ hnone
    rw [compileName_eq, byName_global hs hnone, compileExpr_envField]
    simp [hne]
  storeGlobal name v line c' h := by
    rw [store_global_eq] at h
    rcases byName_lexical hs h with ⟨r, hr, h'⟩ | ⟨idx, c₁, -, -, hup, h'⟩ | ⟨-, h'⟩
    · exact .inl ⟨r, hr, h'⟩
    · exact .inr ⟨idx, c₁, hup, h'⟩
    · exact absurd h' run_throw_ne

end Compiler

end LuaBytecode
