import LuaBytecode.Proofs.Machine.Calls
/-!
# Sound machines

A Lua function reaches the locals of the functions around it through cells open on their slots.
Cells are opened only on frames that run a Lua function, and each frame lists the cells open on
it, so that leaving the frame closes them. A machine is sound for a depth limit `d`
(`Machine.Sound d`) when

* its limit is `d` and at most `max 1 d` frames are in use;
* every open cell is open on a frame in use that runs a Lua function and lists the cell;
* the top of every frame lies within its slots.

No cell is then open on a frame that runs no Lua function (the host's frame, a library
function's), and such a frame below the running one changes only when it is left.

* `Frame.Steady g`: `g` changes a frame without changing the function it runs, the cells open on
  it, or its top's bound; most instructions change the running frame so;
* `Machine.Frozen L m`: the frames of `L` that run no Lua function are found in `m` as they were,
  at the same depths;
* `VM.Guards x`: from a sound machine, `x` ends in a sound machine, whether it succeeds or fails,
  and keeps frozen the frames below the running one; `VM.GuardsOn P x` the same from the sound
  machines satisfying `P`, and `VM.Keeps P x`: when `x` succeeds it keeps `P`.
-/

namespace LuaBytecode

/-- Partitioning an array is filtering it twice. -/
theorem Array.partition_eq_filter {α : Type} (p : α → Bool) (as : Array α) :
    as.partition p = (as.filter p, as.filter fun a => !p a) := by
  rcases as with ⟨l⟩
  simp only [Array.partition, Id.run, List.forIn_toArray]
  suffices h : ∀ b c : Array α, (forIn (m := Id) l (b, c) fun a s =>
      if p a = true then pure (ForInStep.yield (s.1.push a, s.2))
      else pure (ForInStep.yield (s.1, s.2.push a))) =
      (b ++ (l.filter p).toArray, c ++ (l.filter fun a => !p a).toArray) by
    rw [h]
    simp
  induction l with
  | nil => intro b c; rfl
  | cons a l ih =>
    intro b c
    rw [List.forIn_cons]
    by_cases ha : p a = true <;> simp [ha, ih]

namespace Frame

variable {f g : Frame}

/-- The frame runs a Lua function; only such frames have cells opened on them. -/
def runsLua (f : Frame) : Bool :=
  match f.running with
  | some (.closure _) => true
  | _ => false

theorem runsLua_congr (h : g.running = f.running) : g.runsLua = f.runsLua := by
  simp only [runsLua, h]

/-- A change of a frame that keeps the function it runs, the cells open on it, and its top within
its slots. -/
def Steady (h : Frame → Frame) : Prop :=
  ∀ f, (h f).running = f.running ∧ (h f).openCells = f.openCells ∧ (f.Sized → (h f).Sized)

namespace Steady

theorem comp {h₁ h₂ : Frame → Frame} (s₁ : Steady h₁) (s₂ : Steady h₂) :
    Steady (h₂ ∘ h₁) := fun f =>
  ⟨(s₂ _).1.trans (s₁ f).1, (s₂ _).2.1.trans (s₁ f).2.1,
    fun hf => (s₂ _).2.2 ((s₁ f).2.2 hf)⟩

theorem setTop (t : Nat) : Steady (·.setTop t) := fun f =>
  ⟨rfl, rfl, fun _ => sized_setTop f t⟩

theorem resetTop (t : Nat) : Steady (·.resetTop t) :=
  fun f => ⟨rfl, rfl, fun _ => sized_resetTop f t⟩

theorem setReg (r : Nat) (v : Value) : Steady (·.setReg r v) :=
  fun _ => ⟨rfl, rfl, fun hf => sized_setReg hf r v⟩

theorem setPc (pc : Frame → Nat) : Steady fun f => { f with pc := pc f } := fun _ =>
  ⟨rfl, rfl, id⟩

theorem push (v : Value) : Steady (·.push v) := fun f => by
  obtain ⟨slots, e⟩ := push_eq f v
  dsimp only
  exact ⟨by rw [e], by rw [e], fun hf => sized_push hf⟩

theorem pushN (vals : Array Value) (n : Int) : Steady (·.pushN vals n) := fun f => by
  obtain ⟨slots, top, e⟩ := pushN_eq f vals n
  dsimp only
  exact ⟨by rw [e], by rw [e], fun hf => (pushN_spec hf vals n).1⟩

theorem rotateUp (lo : Nat) : Steady (·.rotateUp lo) := fun f => by
  dsimp only
  refine ⟨?_, ?_, fun hf => ?_⟩
  · unfold Frame.rotateUp
    split <;> rfl
  · unfold Frame.rotateUp
    split <;> rfl
  · unfold Sized at hf ⊢
    rw [top_rotateUp, size_rotateUp]
    exact hf

/-- What a call through `__call` does to the called value's frame. -/
theorem metacall (s : Nat) (mm v : Value) : Steady fun f => (f.setReg s mm).insertAt (s + 1) v :=
  ((setReg s mm).comp (push v)).comp (rotateUp (s + 1))

theorem pop : Steady (·.pop.1) := fun f => by
  dsimp only
  unfold Frame.pop
  split
  · exact ⟨rfl, rfl, id⟩
  · refine ⟨rfl, rfl, fun hf => ?_⟩
    unfold Sized at hf ⊢
    simp only [Array.size_set!]
    omega

theorem popN (n : Nat) : Steady (·.popN n |>.1) := fun f => by
  dsimp only
  refine ⟨rfl, rfl, fun hf => ?_⟩
  unfold Sized at hf ⊢
  simp only [Frame.popN, size_clear]
  omega

end Steady

end Frame

namespace Machine

variable {m m' : Machine} {d i : Nat} {f c : Frame}

/-- A frame in use is at most as deep as the running one. -/
theorem le_of_frameAt? (h : m.frameAt? i = some f) : i ≤ m.callers.size := by
  unfold frameAt? at h
  split at h
  · rename_i heq
    simp only [beq_iff_eq] at heq
    omega
  · have := (Array.getElem?_eq_some_iff.mp h).1
    omega

/-- A machine in order for the depth limit `d`. -/
structure Sound (d : Nat) (m : Machine) : Prop where
  maxDepth : m.maxDepth = d
  depth : m.depth ≤ max 1 d
  /-- Every open cell is open on a frame in use that runs a Lua function and lists it. -/
  cells : ∀ (id fr slot : Nat), m.cells[id]? = some (.isOpen fr slot) →
    ∃ f, m.frameAt? fr = some f ∧ f.runsLua = true ∧ (slot, id) ∈ f.openCells
  running : m.frame.Sized
  callers : ∀ f ∈ m.callers, f.Sized

/-- The frames of `L` that run no Lua function are found in `m` as they were, at the same depths. -/
def Frozen (L : List Frame) (m : Machine) : Prop :=
  ∀ (i : Nat) (f : Frame), L[i]? = some f → f.runsLua = false → m.callers[i]? = some f

namespace Frozen

theorem of_callers (h : m'.callers = m.callers) : Frozen m.callers.toList m' := by
  intro i f hf _
  rwa [h, ← Array.getElem?_toList]

theorem refl (m : Machine) : Frozen m.callers.toList m := of_callers rfl

theorem trans {L : List Frame} (h₁ : Frozen L m) (h₂ : Frozen m.callers.toList m') :
    Frozen L m' :=
  fun i f hf hl => h₂ i f (by rw [Array.getElem?_toList]; exact h₁ i f hf hl) hl

theorem restrict {L L' : List Frame} (h : Frozen L' m) (hp : L <+: L') : Frozen L m := by
  intro i f hf hl
  obtain ⟨hi, rfl⟩ := List.getElem?_eq_some_iff.mp hf
  exact h i _ (List.prefix_iff_getElem?.mp hp i hi) hl

/-- Frames left above depth `k` take nothing frozen below it. -/
theorem take {L : List Frame} {k : Nat} (h : Frozen L m)
    (hm : m'.callers.toList = m.callers.toList.take k)
    (hk : L.length ≤ k) : Frozen L m' := by
  intro i f hf hl
  have hi : i < k := Nat.lt_of_lt_of_le (List.getElem?_eq_some_iff.mp hf).1 hk
  rw [← Array.getElem?_toList, hm, List.getElem?_take, if_pos hi, Array.getElem?_toList]
  exact h i f hf hl

end Frozen

namespace Sound

/-- A machine with the frames, cells and limit of a sound one, whose running frame runs the same
function with the same cells open on it and its top within its slots, is sound. -/
theorem congr (hs : m.Sound d) (hmax : m'.maxDepth = m.maxDepth) (hc : m'.callers = m.callers)
    (hcells : m'.cells = m.cells) (hr : m'.frame.running = m.frame.running)
    (ho : m'.frame.openCells = m.frame.openCells) (hf : m'.frame.Sized) : m'.Sound d where
  maxDepth := hmax.trans hs.maxDepth
  depth := by
    have := hs.depth
    simp only [Machine.depth, hc] at this ⊢
    exact this
  cells id fr slot h := by
    rw [hcells] at h
    obtain ⟨f, hf', hl, hmem⟩ := hs.cells id fr slot h
    unfold frameAt? at hf' ⊢
    rw [hc]
    split at hf'
    · cases hf'
      rename_i heq
      rw [if_pos heq]
      exact ⟨_, rfl, (Frame.runsLua_congr hr).trans hl, ho ▸ hmem⟩
    · rename_i hne
      rw [if_neg hne]
      exact ⟨f, hf', hl, hmem⟩
  running := hf
  callers := hc ▸ hs.callers

theorem withFrame (hs : m.Sound d) {g : Frame → Frame} (hg : Frame.Steady g) :
    ({ m with frame := g m.frame } : Machine).Sound d :=
  hs.congr rfl rfl rfl (hg _).1 (hg _).2.1 ((hg _).2.2 hs.running)

/-- Cells written so that no cell opens keep a machine sound. -/
theorem withCells (hs : m.Sound d) {cells : Array Cell}
    (h : ∀ (id fr slot : Nat), cells[id]? = some (.isOpen fr slot) →
      m.cells[id]? = some (.isOpen fr slot)) :
    ({ m with cells } : Machine).Sound d where
  maxDepth := hs.maxDepth
  depth := hs.depth
  cells id fr slot hc := hs.cells id fr slot (h id fr slot hc)
  running := hs.running
  callers := hs.callers

/-- Entering a frame within the limit. -/
theorem push (hs : m.Sound d) (hd : ¬ m.depth ≥ m.maxDepth) (hg : f.Sized) :
    ({ m with frame := f, callers := m.callers.push m.frame } : Machine).Sound d where
  maxDepth := hs.maxDepth
  depth := by
    have := hs.maxDepth
    simp only [Machine.depth, Array.size_push] at hd ⊢
    omega
  cells id fr slot h := by
    obtain ⟨g, hg', hl, hmem⟩ := hs.cells id fr slot h
    refine ⟨g, ?_, hl, hmem⟩
    have hle := le_of_frameAt? hg'
    unfold frameAt? at hg' ⊢
    simp only [Array.size_push]
    rw [if_neg (by simp only [beq_iff_eq]; omega), Array.getElem?_push]
    split at hg'
    · rename_i heq
      simp only [beq_iff_eq] at heq
      rw [if_pos heq]
      exact hg'
    · rename_i hne
      simp only [beq_iff_eq] at hne
      rw [if_neg hne]
      exact hg'
  running := hg
  callers g hg' := by
    rcases Array.mem_push.mp hg' with h | rfl
    · exact hs.callers g h
    · exact hs.running

/-- On a machine whose running frame lists no open cell, every open cell is open on a caller's
frame. -/
theorem below (hs : m.Sound d) (ho : ∀ p, p ∉ m.frame.openCells) {id fr slot : Nat}
    (h : m.cells[id]? = some (.isOpen fr slot)) :
    ∃ f, m.callers[fr]? = some f ∧ f.runsLua = true ∧ (slot, id) ∈ f.openCells := by
  obtain ⟨f, hf, hl, hmem⟩ := hs.cells id fr slot h
  unfold frameAt? at hf
  split at hf
  · cases hf
    exact absurd hmem (ho _)
  · exact ⟨f, hf, hl, hmem⟩

/-- Leaving a running frame that lists no open cell, for the last caller's. -/
theorem pop (hs : m.Sound d) (ho : ∀ p, p ∉ m.frame.openCells) (hc : m.callers.back? = some c) :
    ({ m with frame := c, callers := m.callers.pop } : Machine).Sound d where
  maxDepth := hs.maxDepth
  depth := by
    have := hs.depth
    simp only [Machine.depth, Array.size_pop] at this ⊢
    omega
  cells id fr slot h := by
    obtain ⟨f, hf, hl, hmem⟩ := hs.below ho h
    refine ⟨f, ?_, hl, hmem⟩
    have hlt := (Array.getElem?_eq_some_iff.mp hf).1
    rw [Array.back?_eq_getElem?] at hc
    unfold frameAt?
    simp only [Array.size_pop]
    split
    · rename_i heq
      simp only [beq_iff_eq] at heq
      rw [heq] at hf
      rw [← Option.some.inj (hc.symm.trans hf)]
    · rename_i hne
      simp only [beq_iff_eq] at hne
      rw [Array.getElem?_pop, if_pos (by omega)]
      exact hf
  running := hs.callers c (Array.mem_of_getElem? (Array.back?_eq_getElem? ▸ hc))
  callers g hg := by
    obtain ⟨j, hj⟩ := Array.mem_iff_getElem?.mp hg
    rw [Array.getElem?_pop] at hj
    split at hj
    · exact hs.callers g (Array.mem_of_getElem? hj)
    · cases hj

/-- Replacing a running frame that lists no open cell. -/
theorem replace (hs : m.Sound d) (ho : ∀ p, p ∉ m.frame.openCells) (hf : f.Sized) :
    ({ m with frame := f } : Machine).Sound d where
  maxDepth := hs.maxDepth
  depth := hs.depth
  cells id fr slot h := by
    obtain ⟨g, hg, hl, hmem⟩ := hs.below ho h
    have hlt := (Array.getElem?_eq_some_iff.mp hg).1
    refine ⟨g, ?_, hl, hmem⟩
    unfold frameAt?
    rw [if_neg (by simp only [beq_iff_eq]; omega)]
    exact hg
  running := hf
  callers := hs.callers

/-- Changing a frame in use steadily. -/
theorem modifyFrameAt (hs : m.Sound d) {g : Frame → Frame} (hg : Frame.Steady g) (i : Nat) :
    (m.modifyFrameAt i g).Sound d := by
  unfold Machine.modifyFrameAt
  split
  · exact hs.withFrame hg
  split
  · rename_i hne hlt
    refine ⟨hs.maxDepth, by simpa [Machine.depth] using hs.depth, fun id fr slot h => ?_,
      hs.running, fun f hf => ?_⟩
    · obtain ⟨f, hf, hl, hmem⟩ := hs.cells id fr slot h
      unfold frameAt? at hf ⊢
      simp only [Array.size_modify]
      split at hf
      · rename_i heq
        exact ⟨f, by rw [if_pos heq]; exact hf, hl, hmem⟩
      · rename_i hne'
        rw [if_neg hne', Array.getElem?_modify]
        split
        · rw [hf, Option.map_some]
          exact ⟨g f, rfl, (Frame.runsLua_congr (hg f).1).trans hl, (hg f).2.1 ▸ hmem⟩
        · exact ⟨f, hf, hl, hmem⟩
    · obtain ⟨j, hj⟩ := Array.mem_iff_getElem?.mp hf
      rw [Array.getElem?_modify] at hj
      split at hj
      · obtain ⟨f', hf', rfl⟩ := Option.map_eq_some_iff.mp hj
        exact (hg f').2.2 (hs.callers f' (Array.mem_of_getElem? hf'))
      · exact hs.callers f (Array.mem_of_getElem? hj)
  · exact hs

/-- Closing cells one by one leaves open only cells it did not close, as they were. -/
theorem isOpen_of_close (v : Nat × Nat → Value) : ∀ (l : List (Nat × Nat)) (cs : Array Cell)
    {id fr slot : Nat}, (l.foldl (fun cs p => cs.set! p.2 (.closed (v p))) cs)[id]? =
      some (.isOpen fr slot) → cs[id]? = some (.isOpen fr slot) ∧ ∀ p ∈ l, p.2 ≠ id
  | [], _, _, _, _, h => ⟨h, by simp⟩
  | p :: l, cs, id, fr, slot, h => by
    obtain ⟨h₁, h₂⟩ := isOpen_of_close v l _ h
    dsimp only at h₁
    rw [Array.set!_eq_setIfInBounds, Array.getElem?_setIfInBounds] at h₁
    split at h₁
    · split at h₁ <;> cases h₁
    · rename_i hne
      refine ⟨h₁, fun q hq => ?_⟩
      rcases List.mem_cons.mp hq with rfl | hq
      · exact hne
      · exact h₂ q hq

/-- Closing the running frame's cells on slots `lo` and up: each keeps its slot's value, and the
frame lists the others only. -/
theorem close (hs : m.Sound d) (lo : Nat) :
    ({ m with
        cells := (m.frame.openCells.filter (·.1 ≥ lo)).foldl
          (fun cs p => cs.set! p.2 (.closed (m.frame.reg p.1))) m.cells,
        frame := { m.frame with
          openCells := m.frame.openCells.filter fun p => !decide (p.1 ≥ lo) } } :
      Machine).Sound d where
  maxDepth := hs.maxDepth
  depth := hs.depth
  cells id fr slot h := by
    rw [← Array.foldl_toList] at h
    obtain ⟨h₁, h₂⟩ := isOpen_of_close (fun p => m.frame.reg p.1) _ _ h
    obtain ⟨f, hf, hl, hmem⟩ := hs.cells id fr slot h₁
    unfold frameAt? at hf ⊢
    split at hf
    · cases hf
      rename_i heq
      rw [if_pos heq]
      refine ⟨_, rfl, hl, Array.mem_filter.mpr ⟨hmem, ?_⟩⟩
      -- a cell on a slot from `lo` up was closed
      by_cases hlo : slot ≥ lo
      · have hin : (slot, id) ∈ (m.frame.openCells.filter (·.1 ≥ lo)).toList :=
          Array.mem_toList_iff.mpr (Array.mem_filter.mpr ⟨hmem, by simpa using hlo⟩)
        exact absurd rfl (h₂ (slot, id) hin)
      · simpa using hlo
    · rename_i hne
      rw [if_neg hne]
      exact ⟨f, hf, hl, hmem⟩
  running := hs.running
  callers := hs.callers

/-- Opening a cell on a slot of a running frame that runs a Lua function. -/
theorem openCell (hs : m.Sound d) (hl : m.frame.runsLua = true) (slot : Nat) :
    ({ m with
        cells := m.cells.push (.isOpen m.callers.size slot),
        frame := { m.frame with openCells := m.frame.openCells.push (slot, m.cells.size) } } :
      Machine).Sound d where
  maxDepth := hs.maxDepth
  depth := hs.depth
  cells id fr slot' h := by
    rw [Array.getElem?_push] at h
    split at h
    · rename_i hid
      cases h
      refine ⟨{ m.frame with openCells := m.frame.openCells.push (slot, m.cells.size) },
        by simp [frameAt?], hl, ?_⟩
      rw [hid]
      exact Array.mem_push_self
    · obtain ⟨f, hf, hl', hmem⟩ := hs.cells id fr slot' h
      unfold frameAt? at hf ⊢
      split at hf
      · cases hf
        rename_i heq
        rw [if_pos heq]
        exact ⟨_, rfl, hl', Array.mem_push_of_mem _ hmem⟩
      · rename_i hne
        rw [if_neg hne]
        exact ⟨f, hf, hl', hmem⟩
  running := hs.running
  callers := hs.callers

end Sound

/-- Changing a frame in use that runs a Lua function keeps frozen the frames below. -/
theorem frozen_modifyFrameAt {g : Frame → Frame} {i : Nat}
    (hl : ∀ f, m.callers[i]? = some f → f.runsLua = true) :
    Frozen m.callers.toList (m.modifyFrameAt i g) := by
  intro j f hf hnl
  rw [Array.getElem?_toList] at hf
  unfold Machine.modifyFrameAt
  split
  · exact hf
  split
  · rw [Array.getElem?_modify]
    split
    · rename_i heq
      subst heq
      rw [hl f hf] at hnl
      cases hnl
    · exact hf
  · exact hf

end Machine

namespace VM

open Machine

variable {α β γ : Type}

/-- The machine a run ends in, whether it succeeds or fails. -/
def final : EStateM.Result Fault Machine α → Machine
  | .ok _ m => m
  | .error _ m => m

@[simp] theorem final_ok (a : α) (m : Machine) :
    final (EStateM.Result.ok a m : EStateM.Result Fault Machine α) = m := rfl

@[simp] theorem final_error (e : Fault) (m : Machine) :
    final (EStateM.Result.error e m : EStateM.Result Fault Machine α) = m := rfl

@[simp] theorem run_throw (e : Fault) (m : Machine) :
    (MonadExcept.throw e : VM α).run m = .error e m := rfl

/-- From every sound machine satisfying `P`, `x` ends in a sound machine, whether it succeeds or
fails, and keeps frozen the frames below the running one. -/
def GuardsOn (P : Machine → Prop) (x : VM α) : Prop :=
  ∀ d m, m.Sound d → P m →
    (final (x.run m)).Sound d ∧ Frozen m.callers.toList (final (x.run m))

/-- From every sound machine, `x` ends in a sound machine and keeps frozen the frames below the
running one. -/
def Guards (x : VM α) : Prop := GuardsOn (fun _ => True) x

/-- When `x` succeeds from a machine satisfying `P`, it ends in one. -/
def Keeps (P : Machine → Prop) (x : VM α) : Prop :=
  ∀ m a m', P m → x.run m = .ok a m' → P m'

namespace GuardsOn

variable {P Q : Machine → Prop} {x : VM α} {f : α → VM β}

/-- `x` then `f`, where `x` leads from `P` to `Q` and `f` starts from `Q`. -/
theorem bind (hx : GuardsOn P x) (hq : ∀ m a m', P m → x.run m = .ok a m' → Q m')
    (hf : ∀ a, GuardsOn Q (f a)) : GuardsOn P (x >>= f) := by
  intro d m hs hp
  have h := hx d m hs hp
  rw [EStateM.run_bind]
  cases hr : x.run m with
  | ok a m₁ =>
    rw [hr] at h
    obtain ⟨hs₂, hz₂⟩ := hf a d m₁ h.1 (hq m a m₁ hp hr)
    exact ⟨hs₂, h.2.trans hz₂⟩
  | error e m₁ =>
    rw [hr] at h
    exact h

theorem bind_keeps (hx : GuardsOn P x) (hk : Keeps P x) (hf : ∀ a, GuardsOn P (f a)) :
    GuardsOn P (x >>= f) :=
  hx.bind hk hf

theorem bind_guards (hx : GuardsOn P x) (hf : ∀ a, Guards (f a)) : GuardsOn P (x >>= f) :=
  hx.bind (fun _ _ _ _ _ => trivial) hf

theorem of_guards (hx : Guards x) : GuardsOn P x := fun d m hs _ => hx d m hs trivial

theorem forIn {l : List γ} {b : β} {f : γ → β → VM (ForInStep β)}
    (hf : ∀ a b, GuardsOn P (f a b)) (hk : ∀ a b, Keeps P (f a b)) :
    GuardsOn P (ForIn.forIn l b f) := by
  induction l generalizing b with
  | nil => exact fun _ _ hs _ => ⟨hs, Frozen.refl _⟩
  | cons a l ih =>
    rw [List.forIn_cons]
    refine (hf a b).bind_keeps (hk a b) fun s => ?_
    split
    · exact fun _ _ hs _ => ⟨hs, Frozen.refl _⟩
    · exact ih

end GuardsOn

namespace Keeps

variable {P : Machine → Prop} {x : VM α} {f : α → VM β}

theorem pure (a : α) : Keeps P (Pure.pure a : VM α) := by
  intro m a' m' hp h
  cases h
  exact hp

theorem bind (hx : Keeps P x) (hf : ∀ a, Keeps P (f a)) : Keeps P (x >>= f) := by
  intro m b m' hp h
  rw [EStateM.run_bind] at h
  cases hr : x.run m with
  | ok a m₁ =>
    rw [hr] at h
    exact hf a m₁ b m' (hx m a m₁ hp hr) h
  | error e m₁ =>
    rw [hr] at h
    cases h

end Keeps

namespace Guards

variable {x : VM α} {f : α → VM β}

theorem bind (hx : Guards x) (hf : ∀ a, Guards (f a)) : Guards (x >>= f) :=
  GuardsOn.bind_guards hx hf

/-- `x` then `f`, where `f` may use what `x` returns. -/
theorem bind_of {Q : α → Prop} (hx : Guards x) (hq : ∀ m a m', x.run m = .ok a m' → Q a)
    (hf : ∀ a, Q a → Guards (f a)) : Guards (x >>= f) := by
  intro d m hs _
  have h := hx d m hs trivial
  rw [EStateM.run_bind]
  cases hr : x.run m with
  | ok a m₁ =>
    rw [hr] at h
    obtain ⟨hs₂, hz₂⟩ := hf a (hq m a m₁ hr) d m₁ h.1 trivial
    exact ⟨hs₂, h.2.trans hz₂⟩
  | error e m₁ =>
    rw [hr] at h
    exact h

theorem pure (a : α) : Guards (Pure.pure a : VM α) := fun _ _ hs _ => ⟨hs, Frozen.refl _⟩

theorem throw (e : Fault) : Guards (MonadExcept.throw e : VM α) := fun _ _ hs _ =>
  ⟨hs, Frozen.refl _⟩

theorem get : Guards (MonadState.get : VM Machine) := fun _ _ hs _ => ⟨hs, Frozen.refl _⟩

theorem map {f : α → β} (hx : Guards x) : Guards (f <$> x) := by
  rw [← bind_pure_comp]
  exact hx.bind fun _ => pure _

theorem forIn {l : List γ} {b : β} {f : γ → β → VM (ForInStep β)}
    (hf : ∀ a b, Guards (f a b)) : Guards (ForIn.forIn l b f) :=
  GuardsOn.forIn hf fun _ _ _ _ _ _ _ => trivial

theorem forIn_array {xs : Array γ} {b : β} {f : γ → β → VM (ForInStep β)}
    (hf : ∀ a b, Guards (f a b)) : Guards (ForIn.forIn xs b f) := by
  rw [← Array.forIn_toList]
  exact forIn hf

theorem foldlM {l : List γ} {b : β} {f : β → γ → VM β} (hf : ∀ b a, Guards (f b a)) :
    Guards (l.foldlM f b) := by
  induction l generalizing b with
  | nil => exact pure b
  | cons a l ih =>
    rw [List.foldlM_cons]
    exact (hf b a).bind fun _ => ih

end Guards

/-! ## Operations on the running frame and the heap -/

theorem modifyFrame_guards {g : Frame → Frame} (hg : Frame.Steady g) : Guards (modifyFrame g) :=
  fun _ _ hs _ => ⟨hs.withFrame hg, Frozen.of_callers rfl⟩

theorem frame_guards : Guards frame := fun _ _ hs _ => ⟨hs, Frozen.refl _⟩
theorem top_guards : Guards top := fun _ _ hs _ => ⟨hs, Frozen.refl _⟩
theorem getAt_guards (i : Int) : Guards (getAt i) := fun _ _ hs _ => ⟨hs, Frozen.refl _⟩
theorem reg_guards (r : Nat) : Guards (reg r) := fun _ _ hs _ => ⟨hs, Frozen.refl _⟩
theorem push_guards (v : Value) : Guards (push v) := modifyFrame_guards (Frame.Steady.push v)
theorem setReg_guards (r : Nat) (v : Value) : Guards (setReg r v) :=
  modifyFrame_guards (Frame.Steady.setReg r v)
theorem jump_guards (s : Int) : Guards (jump s) := modifyFrame_guards (Frame.Steady.setPc _)
theorem skip_guards : Guards skip := modifyFrame_guards (Frame.Steady.setPc _)

theorem pop_guards : Guards pop :=
  fun _ _ hs _ => ⟨hs.withFrame Frame.Steady.pop, Frozen.of_callers rfl⟩

theorem popN_guards (n : Nat) : Guards (popN n) :=
  fun _ _ hs _ => ⟨hs.withFrame (Frame.Steady.popN n), Frozen.of_callers rfl⟩

theorem newTable_guards (t : Table) : Guards (newTable t) :=
  fun _ _ hs _ => ⟨hs.congr rfl rfl rfl rfl rfl hs.running, Frozen.of_callers rfl⟩
theorem modifyTable_guards (id : Nat) (f : Table → Table) : Guards (modifyTable id f) :=
  fun _ _ hs _ => ⟨hs.congr rfl rfl rfl rfl rfl hs.running, Frozen.of_callers rfl⟩
theorem newBuiltin_guards (b : Builtin) : Guards (newBuiltin b) :=
  fun _ _ hs _ => ⟨hs.congr rfl rfl rfl rfl rfl hs.running, Frozen.of_callers rfl⟩
theorem newClosure_guards (c : Closure) : Guards (newClosure c) :=
  fun _ _ hs _ => ⟨hs.congr rfl rfl rfl rfl rfl hs.running, Frozen.of_callers rfl⟩
theorem write_guards (s : String) : Guards (write s) :=
  fun _ _ hs _ => ⟨hs.congr rfl rfl rfl rfl rfl hs.running, Frozen.of_callers rfl⟩

/-- A new cell that holds its own value. -/
theorem newCell_guards (v : Value) : Guards (newCell (.closed v)) := by
  refine fun _ _ hs _ => ⟨hs.withCells fun j fr slot h => ?_, Frozen.of_callers rfl⟩
  rw [Array.getElem?_push] at h
  split at h
  · cases h
  · exact h

/-- Closing the running frame's cells on slots `lo` and up: each keeps its slot's value, and the
frame lists the others only. -/
theorem closeCells_run (m : Machine) (lo : Nat) :
    (closeCells lo).run m = .ok () { m with
      cells := (m.frame.openCells.filter (·.1 ≥ lo)).foldl
        (fun cs p => cs.set! p.2 (.closed (m.frame.reg p.1))) m.cells,
      frame := { m.frame with
        openCells := m.frame.openCells.filter fun p => !decide (p.1 ≥ lo) } } := by
  simp only [closeCells, EStateM.run_bind, EStateM.run_get, Array.partition_eq_filter]
  rfl

theorem closeCells_guards (lo : Nat) : Guards (closeCells lo) := by
  intro d m hs _
  rw [closeCells_run]
  exact ⟨hs.close lo, Frozen.of_callers rfl⟩

/-- After closing from slot 0 the running frame lists no open cell. -/
theorem not_mem_closeAll (m : Machine) (p : Nat × Nat) :
    p ∉ m.frame.openCells.filter fun p => !decide (p.1 ≥ 0) := by
  simp

/-- Opening a cell on the running frame, which runs a Lua function. -/
theorem openCell_guards (slot : Nat) :
    GuardsOn (fun m => m.frame.runsLua = true) (openCell slot) := by
  intro d m hs hl
  simp only [openCell, EStateM.run_bind, EStateM.run_get]
  cases m.frame.openCells.find? (·.1 == slot) with
  | some p => exact ⟨hs, Frozen.refl _⟩
  | none => exact ⟨hs.openCell hl slot, Frozen.of_callers rfl⟩

theorem openCell_keeps (slot : Nat) : Keeps (fun m => m.frame.runsLua = true) (openCell slot) := by
  intro m a m' hl h
  simp only [openCell, EStateM.run_bind, EStateM.run_get] at h
  cases hf : m.frame.openCells.find? (·.1 == slot) with
  | some p =>
    rw [hf] at h
    cases h
    exact hl
  | none =>
    rw [hf] at h
    cases h
    exact hl

theorem newCell_keeps (c : Cell) : Keeps (fun m => m.frame.runsLua = true) (newCell c) := by
  intro m a m' hl h
  cases h
  exact hl

/-- Writing through a cell changes only a frame that runs a Lua function. -/
theorem writeCell_guards (id : Nat) (v : Value) : Guards (writeCell id v) := by
  intro d m hs _
  simp only [writeCell, EStateM.run_bind, EStateM.run_get]
  cases hc : m.cells[id]? with
  | none => exact ⟨hs, Frozen.refl _⟩
  | some c =>
    cases c with
    | isOpen fr slot =>
      obtain ⟨f, hf, hl, -⟩ := hs.cells id fr slot hc
      refine ⟨hs.modifyFrameAt (Frame.Steady.setReg slot v) fr,
        frozen_modifyFrameAt fun g hg => ?_⟩
      unfold frameAt? at hf
      split at hf
      · rename_i heq
        simp only [beq_iff_eq] at heq
        subst heq
        simp at hg
      · rw [hf] at hg
        cases hg
        exact hl
    | closed w =>
      refine ⟨hs.withCells fun j fr slot h => ?_, Frozen.of_callers rfl⟩
      rw [Array.set!_eq_setIfInBounds, Array.getElem?_setIfInBounds] at h
      split at h
      · split at h <;> cases h
      · exact h

theorem insert_guards (i : Int) : Guards (insert i) := by
  intro d m hs _
  simp only [insert, frame, EStateM.run_bind, EStateM.run_get, EStateM.run_pure]
  cases h : m.frame.insert i with
  | ok f =>
    simp only [Frame.insert] at h
    split at h
    · cases h
    · cases h
      have hs' := hs.withFrame (Frame.Steady.rotateUp (m.frame.absIndex i - 1).toNat)
      exact ⟨hs', Frozen.of_callers rfl⟩
  | error msg => exact ⟨hs, Frozen.refl _⟩

theorem rawSet_guards (id : Nat) (k v : Value) : Guards (rawSet id k v) := by
  unfold rawSet
  split
  · exact Guards.throw _
  · exact modifyTable_guards _ _

theorem readCell_guards (id : Nat) : Guards (readCell id) := by
  refine Guards.get.bind fun m => ?_
  split <;> exact Guards.pure _

theorem fetch_guards (p : Proto) : Guards (fetch p) := by
  refine frame_guards.bind fun f => ?_
  split
  · exact (modifyFrame_guards (Frame.Steady.setPc _)).bind fun _ => Guards.pure _
  · exact Guards.throw _

theorem fetch_keeps (p : Proto) : Keeps (fun m => m.frame.runsLua = true) (fetch p) := by
  intro m i m' hl h
  simp only [fetch, frame, EStateM.run_bind, EStateM.run_get, EStateM.run_pure] at h
  split at h
  · cases h
    exact hl
  · cases h

theorem constant_guards (p : Proto) (idx : Nat) : Guards (constant p idx) := by
  unfold constant
  split
  · exact Guards.pure _
  · exact Guards.throw _

theorem rk_guards (p : Proto) (x : Nat) : Guards (rk p x) := by
  unfold rk
  split
  · exact constant_guards _ _
  · exact reg_guards _

theorem lift_guards (x : Except Fault α) : Guards (lift x) := by
  unfold lift
  split
  · exact Guards.pure _
  · exact Guards.throw _

theorem getUpval_guards (c : Closure) (idx : Nat) : Guards (getUpval c idx) := by
  unfold getUpval
  split
  · exact readCell_guards _
  · exact Guards.pure _

theorem setUpval_guards (c : Closure) (idx : Nat) (v : Value) : Guards (setUpval c idx v) := by
  unfold setUpval
  split
  · exact writeCell_guards _ _
  · exact Guards.pure _

/-! The operations below are sequences of the ones above, with matches and conditions between
them; each proof takes its computation apart bind by bind, as for `Balanced`. -/

theorem callArgs_guards (a b : Nat) : Guards (callArgs a b) := by
  unfold callArgs
  repeat' first
    | with_reducible exact Guards.pure _
    | with_reducible exact modifyFrame_guards (Frame.Steady.setTop _)
    | with_reducible exact top_guards
    | with_reducible refine Guards.bind ?_ fun _ => ?_
    | split

theorem forPrep_guards (a : Nat) : Guards (forPrep a) := by
  unfold forPrep
  dsimp only
  repeat' first
    | with_reducible exact Guards.pure _
    | with_reducible exact Guards.throw _
    | with_reducible exact reg_guards _
    | with_reducible exact setReg_guards _ _
    | with_reducible refine Guards.bind ?_ fun _ => ?_
    | split

theorem forLoop_guards (a : Nat) : Guards (forLoop a) := by
  unfold forLoop
  dsimp only
  repeat' first
    | with_reducible exact Guards.pure _
    | with_reducible exact reg_guards _
    | with_reducible exact setReg_guards _ _
    | with_reducible refine Guards.bind ?_ fun _ => ?_
    | split

theorem setList_guards (a n batch : Nat) : Guards (setList a n batch) := by
  unfold setList
  dsimp only
  repeat' first
    | with_reducible exact Guards.pure _
    | with_reducible exact Guards.throw _
    | with_reducible exact reg_guards _
    | with_reducible exact rawSet_guards _ _ _
    | with_reducible refine Guards.forIn fun _ _ => ?_
    | with_reducible refine Guards.bind ?_ fun _ => ?_
    | split

theorem runningClosure_guards : Guards runningClosure := by
  unfold runningClosure
  repeat' first
    | with_reducible exact Guards.pure _
    | with_reducible exact Guards.throw _
    | with_reducible exact Guards.get
    | with_reducible exact frame_guards
    | with_reducible refine Guards.bind ?_ fun _ => ?_
    | split

/-- The closure running in the frame is found on a frame that runs a Lua function. -/
theorem runningClosure_runsLua {m m' : Machine} {lc : Closure}
    (h : runningClosure.run m = .ok lc m') : m'.frame.runsLua = true := by
  simp only [runningClosure, frame, EStateM.run_bind, EStateM.run_get, EStateM.run_pure] at h
  split at h
  · rename_i id hr
    simp only [EStateM.run_bind, EStateM.run_get] at h
    split at h
    · cases h
      simp [Frame.runsLua, hr]
    · cases h
  · cases h
  · cases h

theorem resolveCallee_guards (slot nArgs : Nat) : Guards (resolveCallee slot nArgs) := by
  unfold resolveCallee
  dsimp only
  repeat' first
    | with_reducible exact Guards.pure _
    | with_reducible exact Guards.throw _
    | with_reducible exact Guards.get
    | with_reducible exact modifyFrame_guards (Frame.Steady.metacall _ _ _)
    | with_reducible refine Guards.bind ?_ fun _ => ?_
    | split

theorem closureOf_guards (v : Value) : Guards (closureOf v) := by
  unfold closureOf
  repeat' first
    | with_reducible exact Guards.pure _
    | with_reducible exact Guards.throw _
    | with_reducible exact Guards.get
    | with_reducible refine Guards.bind ?_ fun _ => ?_
    | split

theorem enterLua_guards (callee : Value) (nArgs : Nat) : Guards (enterLua callee nArgs) :=
  (closureOf_guards _).bind fun _ => (popN_guards _).bind fun _ =>
    pop_guards.bind fun _ => Guards.pure _

/-- The frame a Lua function is entered on has its top within its slots. -/
theorem enterLua_sized {callee : Value} {nArgs : Nat} {m m' : Machine} {f : Frame}
    (h : (enterLua callee nArgs).run m = .ok f m') : f.Sized := by
  simp only [enterLua, EStateM.run_bind] at h
  split at h
  · split at h
    · split at h
      · cases h
        exact Frame.sized_resetTop _ _
      · cases h
    · cases h
  · cases h

/-- A tail call replaces the running frame once its cells are closed. -/
theorem replace_guards {f : Frame} (hf : f.Sized) {k : Unit → VM β} (hk : ∀ u, Guards (k u)) :
    Guards (closeCells 0 >>= fun _ => modifyFrame (fun _ => f) >>= k) := by
  intro d m hs _
  have hs₁ := (hs.close 0).replace (not_mem_closeAll m) hf
  have h := hk () d _ hs₁ trivial
  simp only [EStateM.run_bind, closeCells_run, modifyFrame, EStateM.run_modify]
  exact ⟨h.1, (Frozen.of_callers rfl).trans h.2⟩

/-- A closure made by the running Lua function opens its cells on the function's frame. -/
theorem makeClosure_guards (parent : Closure) (p : Proto) :
    GuardsOn (fun m => m.frame.runsLua = true) (makeClosure parent p) := by
  unfold makeClosure
  dsimp only
  rw [← Array.forIn_toList]
  refine (GuardsOn.forIn (fun src cells => ?_) fun src cells => ?_).bind_guards
    fun _ => newClosure_guards _
  · repeat' first
      | with_reducible exact GuardsOn.of_guards (Guards.pure _)
      | with_reducible exact openCell_guards _
      | with_reducible exact GuardsOn.of_guards (newCell_guards _)
      | with_reducible refine GuardsOn.bind_keeps ?_ ?_ fun _ => ?_
      | with_reducible exact Keeps.pure _
      | with_reducible exact openCell_keeps _
      | with_reducible exact newCell_keeps _
      | with_reducible refine Keeps.bind ?_ fun _ => ?_
      | split
  · repeat' first
      | with_reducible exact Keeps.pure _
      | with_reducible exact openCell_keeps _
      | with_reducible exact newCell_keeps _
      | with_reducible refine Keeps.bind ?_ fun _ => ?_
      | split

theorem errorObject_guards (err : Fault) : Guards (errorObject err) := by
  unfold errorObject
  split
  · exact Guards.get.bind fun _ => Guards.pure _
  all_goals exact Guards.pure _

theorem checkAny_guards (n : Nat) (fname : String) : Guards (checkAny n fname) := by
  unfold checkAny
  repeat' first
    | with_reducible exact Guards.pure _
    | with_reducible exact Guards.throw _
    | with_reducible exact top_guards
    | with_reducible exact getAt_guards _
    | with_reducible refine Guards.bind ?_ fun _ => ?_
    | split

theorem checkTable_guards (n : Nat) (fname : String) : Guards (checkTable n fname) := by
  unfold checkTable
  repeat' first
    | with_reducible exact Guards.pure _
    | with_reducible exact Guards.throw _
    | with_reducible exact top_guards
    | with_reducible exact getAt_guards _
    | with_reducible refine Guards.bind ?_ fun _ => ?_
    | split

theorem args_guards : Guards args := frame_guards.bind fun _ => Guards.pure _

theorem tonumber_guards : Guards tonumber := by
  unfold tonumber
  dsimp only
  repeat' first
    | with_reducible exact Guards.pure _
    | with_reducible exact Guards.throw _
    | with_reducible exact push_guards _
    | with_reducible exact getAt_guards _
    | with_reducible exact checkAny_guards _ _
    | with_reducible refine Guards.bind ?_ fun _ => ?_
    | split

theorem select_guards : Guards select := by
  unfold select
  dsimp only
  repeat' first
    | with_reducible exact Guards.pure _
    | with_reducible exact Guards.throw _
    | with_reducible exact top_guards
    | with_reducible exact push_guards _
    | with_reducible exact getAt_guards _
    | with_reducible refine Guards.bind ?_ fun _ => ?_
    | split

theorem next_guards : Guards next := by
  unfold next
  repeat' first
    | with_reducible exact Guards.pure _
    | with_reducible exact Guards.throw _
    | with_reducible exact Guards.get
    | with_reducible exact push_guards _
    | with_reducible exact getAt_guards _
    | with_reducible exact checkTable_guards _ _
    | with_reducible refine Guards.bind ?_ fun _ => ?_
    | split

/-! ## Operations that call -/

section Calls

variable {call : Call} (hc : ∀ n r, Guards (call n r))
include hc

theorem callMeta_guards (mm : Value) (args : List Value) : Guards (callMeta call mm args) :=
  (push_guards _).bind fun _ =>
    (Guards.forIn fun _ _ => (push_guards _).bind fun _ => Guards.pure _).bind fun _ =>
      (hc _ _).bind fun _ => pop_guards

theorem tryBinaryMeta_guards (a b : Value) (event : String) :
    Guards (tryBinaryMeta call a b event) := by
  have handled : ∀ mm : Value,
      Guards (if mm.isNil then Pure.pure none else some <$> callMeta call mm [a, b]) := by
    intro mm
    split
    · exact Guards.pure _
    · exact (callMeta_guards hc _ _).map
  exact Guards.get.bind fun _ => handled _

theorem index_go_guards (k : Value) : ∀ n cur, Guards (index.go call k n cur)
  | 0, _ => Guards.throw _
  | n + 1, cur => by
    unfold index.go
    refine Guards.get.bind fun m => ?_
    split
    · dsimp only
      split
      · exact Guards.pure _
      · split
        · exact Guards.pure _
        · split
          · exact callMeta_guards hc _ _
          · exact index_go_guards k n _
    · exact Guards.throw _

theorem index_guards (t k : Value) : Guards (index call t k) := index_go_guards hc k _ _

theorem setIndex_go_guards (k v : Value) : ∀ n cur, Guards (setIndex.go call k v n cur)
  | 0, _ => Guards.throw _
  | n + 1, cur => by
    unfold setIndex.go
    refine Guards.get.bind fun m => ?_
    split
    · dsimp only
      repeat' first
        | with_reducible exact Guards.pure _
        | with_reducible exact rawSet_guards _ _ _
        | with_reducible exact callMeta_guards hc _ _
        | with_reducible exact setIndex_go_guards k v n _
        | with_reducible refine Guards.bind ?_ fun _ => ?_
        | split
    · exact Guards.throw _

theorem setIndex_guards (t k v : Value) : Guards (setIndex call t k v) :=
  setIndex_go_guards hc k v _ _

theorem arith_guards (op : ArithOp) (a b : Value) : Guards (arith call op a b) := by
  unfold arith
  dsimp only
  repeat' first
    | with_reducible exact Guards.pure _
    | with_reducible exact Guards.throw _
    | with_reducible exact lift_guards _
    | with_reducible exact tryBinaryMeta_guards hc _ _ _
    | with_reducible refine Guards.bind ?_ fun _ => ?_
    | split

theorem concat_guards (values : Array Value) : Guards (concat call values) := by
  unfold concat
  split
  · exact Guards.pure _
  · refine Guards.foldlM fun acc lhs => ?_
    dsimp only
    repeat' first
      | with_reducible exact Guards.pure _
      | with_reducible exact Guards.throw _
      | with_reducible exact tryBinaryMeta_guards hc _ _ _
      | with_reducible refine Guards.bind ?_ fun _ => ?_
      | split

theorem len_guards (v : Value) : Guards (len call v) := by
  unfold len
  dsimp only
  repeat' first
    | with_reducible exact Guards.pure _
    | with_reducible exact Guards.throw _
    | with_reducible exact Guards.get
    | with_reducible exact callMeta_guards hc _ _
    | with_reducible refine Guards.bind ?_ fun _ => ?_
    | split

theorem equals_guards (a b : Value) : Guards (equals call a b) := by
  unfold equals
  repeat' first
    | with_reducible exact Guards.pure _
    | with_reducible exact tryBinaryMeta_guards hc _ _ _
    | with_reducible refine Guards.bind ?_ fun _ => ?_
    | split

theorem lessThan_guards (a b : Value) : Guards (lessThan call a b) := by
  unfold lessThan
  repeat' first
    | with_reducible exact Guards.pure _
    | with_reducible exact Guards.throw _
    | with_reducible exact tryBinaryMeta_guards hc _ _ _
    | with_reducible refine Guards.bind ?_ fun _ => ?_
    | split

theorem lessEqual_guards (a b : Value) : Guards (lessEqual call a b) := by
  unfold lessEqual
  repeat' first
    | with_reducible exact Guards.pure _
    | with_reducible exact Guards.throw _
    | with_reducible exact tryBinaryMeta_guards hc _ _ _
    | with_reducible refine Guards.bind ?_ fun _ => ?_
    | split

/-- Every instruction keeps machines sound, given that calls do; `closure`, the one instruction
that opens cells, runs on the frame of the Lua function that runs it. -/
theorem dispatch_guards (lc : Closure) (i : Instruction) :
    GuardsOn (fun m => m.frame.runsLua = true) (dispatch call lc i) := by
  by_cases ho : i.opcode = .closure
  · unfold dispatch
    simp only [ho]
    split
    · exact (makeClosure_guards lc _).bind_guards fun v =>
        (setReg_guards _ v).bind fun _ => Guards.pure _
    · exact GuardsOn.of_guards ((Guards.throw _).bind fun _ => Guards.pure _)
  · refine GuardsOn.of_guards ?_
    unfold dispatch
    dsimp only
    repeat' first
      | with_reducible exact Guards.pure _
      | with_reducible exact Guards.throw _
      | with_reducible exact hc _ _
      | with_reducible exact frame_guards
      | with_reducible exact top_guards
      | with_reducible exact modifyFrame_guards (Frame.Steady.resetTop _)
      | with_reducible exact push_guards _
      | with_reducible exact reg_guards _
      | with_reducible exact setReg_guards _ _
      | with_reducible exact jump_guards _
      | with_reducible exact skip_guards
      | with_reducible exact fetch_guards _
      | with_reducible exact constant_guards _ _
      | with_reducible exact rk_guards _ _
      | with_reducible exact getUpval_guards _ _
      | with_reducible exact setUpval_guards _ _ _
      | with_reducible exact newTable_guards _
      | with_reducible exact closeCells_guards _
      | with_reducible exact index_guards hc _ _
      | with_reducible exact setIndex_guards hc _ _ _
      | with_reducible exact arith_guards hc _ _ _
      | with_reducible exact len_guards hc _
      | with_reducible exact concat_guards hc _
      | with_reducible exact equals_guards hc _ _
      | with_reducible exact lessThan_guards hc _ _
      | with_reducible exact lessEqual_guards hc _ _
      | with_reducible exact callArgs_guards _ _
      | with_reducible exact resolveCallee_guards _ _
      | with_reducible refine (Guards.bind_of (enterLua_guards _ _)
          (fun _ _ _ h => enterLua_sized h) fun _ hf => ?_)
      | with_reducible refine replace_guards ‹_› fun _ => ?_
      | with_reducible exact forPrep_guards _
      | with_reducible exact forLoop_guards _
      | with_reducible exact setList_guards _ _ _
      | with_reducible refine Guards.forIn fun _ _ => ?_
      | with_reducible refine Guards.forIn_array fun _ _ => ?_
      | with_reducible refine Guards.bind ?_ fun _ => ?_
      | split
      | exact absurd ‹i.opcode = Opcode.closure› ho

theorem step_guards : Guards (step call) :=
  GuardsOn.bind runningClosure_guards (fun _ _ _ _ h => runningClosure_runsLua h) fun lc =>
    (GuardsOn.of_guards (fetch_guards _)).bind_keeps (fetch_keeps _) fun i =>
      dispatch_guards hc lc i

end Calls

/-! ## Leaving frames -/

/-- Leaving the running frame of a sound machine: the frames below it are found at the same
depths. -/
theorem popFrame_sound {d : Nat} {m m' : Machine} {u : Unit} (hs : m.Sound d)
    (h : popFrame.run m = .ok u m') :
    m'.Sound d ∧ m'.callers.size + 1 = m.callers.size ∧
      ∀ i ≤ m'.callers.size, m'.frameAt? i = m.frameAt? i := by
  simp only [popFrame, EStateM.run_bind, EStateM.run_get] at h
  cases hc : m.callers.back? with
  | none =>
    rw [hc] at h
    cases h
  | some c =>
    rw [hc] at h
    simp only [EStateM.run_bind, closeCells_run, EStateM.run_modify] at h
    cases h
    have hs' := (hs.close 0).pop (not_mem_closeAll m) hc
    rw [Array.back?_eq_getElem?] at hc
    have hlt := (Array.getElem?_eq_some_iff.mp hc).1
    refine ⟨hs', by simp only [Array.size_pop]; omega, fun i hi => ?_⟩
    simp only [Array.size_pop] at hi
    unfold frameAt?
    simp only [Array.size_pop]
    split
    · rename_i heq
      simp only [beq_iff_eq] at heq
      rw [if_neg (by simp only [beq_iff_eq]; omega), heq, hc]
    · rename_i hne
      simp only [beq_iff_eq] at hne
      rw [if_neg (by simp only [beq_iff_eq]; omega), Array.getElem?_pop, if_pos (by omega)]

/-- Leaving frames one by one keeps the machine sound and the frames left as they were. -/
theorem unwind_sound {d : Nat} : ∀ (l : List Nat) {m m' : Machine}, m.Sound d →
    (ForIn.forIn l PUnit.unit fun (_ : Nat) (_ : PUnit) => do
        popFrame
        pure (ForInStep.yield PUnit.unit) : VM PUnit).run m = .ok PUnit.unit m' →
    m'.Sound d ∧ m'.callers.size ≤ m.callers.size ∧
      ∀ i ≤ m'.callers.size, m'.frameAt? i = m.frameAt? i
  | [], m, m', hs, h => by
    cases h
    exact ⟨hs, Nat.le_refl _, fun _ _ => rfl⟩
  | _ :: l, m, m', hs, h => by
    simp only [List.forIn_cons, EStateM.run_bind] at h
    cases hp : popFrame.run m with
    | error e m₁ =>
      rw [hp] at h
      cases h
    | ok u m₁ =>
      rw [hp] at h
      obtain ⟨hs₁, hlt₁, hf₁⟩ := popFrame_sound hs hp
      obtain ⟨hs', hle', hf'⟩ := unwind_sound l hs₁ h
      exact ⟨hs', by omega, fun i hi => (hf' i hi).trans (hf₁ i (by omega))⟩

/-- Unwinding keeps the machine sound and the frames left as they were. -/
theorem unwindTo_sound {d k : Nat} {m m' : Machine} (hs : m.Sound d)
    (h : (unwindTo k).run m = .ok () m') :
    m'.Sound d ∧ ∀ i ≤ m'.callers.size, m'.frameAt? i = m.frameAt? i := by
  simp only [unwindTo, EStateM.run_bind, EStateM.run_get] at h
  split at h
  · rename_i hr
    cases h
    obtain ⟨hs', -, hf'⟩ := unwind_sound _ hs hr
    exact ⟨hs', hf'⟩
  · cases h

/-- Unwinding a sound machine to a depth in use leaves running the frame that was at that depth. -/
theorem unwindTo_lands {d k : Nat} {m : Machine} {f : Frame} (hs : m.Sound d)
    (hle : k ≤ m.callers.size) (hf : m.frameAt? k = some f) :
    ∃ m', (unwindTo k).run m = .ok () m' ∧ m'.callers.size = k ∧ m'.frame = f := by
  obtain ⟨m', hu, ht⟩ := unwindTo_run hle
  obtain ⟨-, hfa⟩ := unwindTo_sound hs hu
  have hsize : m'.callers.size = k := by
    have := congrArg List.length ht
    simp only [Array.length_toList, List.length_take] at this
    omega
  refine ⟨m', hu, hsize, ?_⟩
  have h' := (hfa k (by omega)).trans hf
  unfold frameAt? at h'
  rw [if_pos (by simp [hsize])] at h'
  exact Option.some.inj h'

/-- A failure caught after unwinding to the frames there were: the handler starts from a sound
machine in which the frames below are frozen. -/
theorem tryCatch_unwind_guards {x : VM α} {k : Fault → VM α} (hx : Guards x) (hb : Balanced x)
    (hk : ∀ e, Guards (k e)) (d : Nat) {m : Machine} (hs : m.Sound d) :
    (final ((tryCatch x fun e => do unwindTo m.callers.size; k e).run m)).Sound d ∧
      Frozen m.callers.toList
        (final ((tryCatch x fun e => do unwindTo m.callers.size; k e).run m)) := by
  have h := hx d m hs trivial
  have hb' := hb m
  rw [tryCatch_run]
  cases hr : x.run m with
  | ok a m₁ =>
    rw [hr] at h
    exact h
  | error e m₁ =>
    rw [hr] at h hb'
    obtain ⟨L₀, hk₀, hp⟩ := hb'
    have hd : m.callers.size ≤ m₁.callers.size := by
      have := hp.length_le
      rw [← hk₀.length_eq] at this
      simpa using this
    obtain ⟨m₂, hu, ht⟩ := unwindTo_run hd
    have hs₂ := (unwindTo_sound h.1 hu).1
    have hz₂ : Frozen m.callers.toList m₂ := h.2.take ht (by simp)
    have h₃ := hk e d m₂ hs₂ trivial
    simp only [EStateM.run_bind, hu]
    exact ⟨h₃.1, hz₂.trans h₃.2⟩

section Library

variable {call : Call} (hc : ∀ n r, Guards (call n r))
include hc

/-- A protected call leaves the frames its call entered: whatever fails inside, the machine it
ends in is sound. -/
theorem protectedCall_guards (hb : ∀ n r, Balanced (call n r)) (nArgs : Nat)
    (nResults msgh : Int) : Guards (protectedCall call nArgs nResults msgh) := by
  unfold protectedCall
  dsimp only
  split
  on_goal 1 => refine (Guards.throw _).bind fun _ => ?_
  -- past the check on the handler, the call runs under `tryCatch` from the machine it starts in
  all_goals
    intro d m hs _
    simp only [EStateM.run_bind, EStateM.run_get, top, frame, EStateM.run_pure]
    refine tryCatch_unwind_guards ((hc nArgs nResults).bind fun _ => Guards.pure true)
      ((hb nArgs nResults).bind fun _ => Balanced.pure true) (fun e => ?_) d hs
    refine (modifyFrame_guards (Frame.Steady.setTop _)).bind fun _ =>
      (errorObject_guards e).bind fun obj => ?_
    split
    · exact (Guards.throw _).bind fun _ => (push_guards _).bind fun _ => Guards.pure _
    · exact (push_guards _).bind fun _ => Guards.pure _

theorem tostring_guards (v : Value) : Guards (VM.tostring call v) := by
  unfold VM.tostring
  dsimp only
  repeat' first
    | with_reducible exact Guards.pure _
    | with_reducible exact Guards.throw _
    | with_reducible exact Guards.get
    | with_reducible exact push_guards _
    | with_reducible exact pop_guards
    | with_reducible exact hc _ _
    | with_reducible refine Guards.bind ?_ fun _ => ?_
    | split

theorem ipairsStep_guards : Guards (ipairsStep call) := by
  unfold ipairsStep
  dsimp only
  repeat' first
    | with_reducible exact Guards.pure _
    | with_reducible exact push_guards _
    | with_reducible exact getAt_guards _
    | with_reducible exact index_guards hc _ _
    | with_reducible refine Guards.bind ?_ fun _ => ?_
    | split

/-- Every library function keeps machines sound, given that calls do. -/
theorem run_guards (hb : ∀ n r, Balanced (call n r)) (b : Builtin) : Guards (b.run call) := by
  cases b <;> unfold Builtin.run <;> dsimp only
  all_goals repeat' first
    | with_reducible exact Guards.pure _
    | with_reducible exact Guards.throw _
    | with_reducible exact Guards.get
    | with_reducible exact hc _ _
    | with_reducible exact frame_guards
    | with_reducible exact top_guards
    | with_reducible exact push_guards _
    | with_reducible exact getAt_guards _
    | with_reducible exact insert_guards _
    | with_reducible exact write_guards _
    | with_reducible exact rawSet_guards _ _ _
    | with_reducible exact modifyTable_guards _ _
    | with_reducible exact newBuiltin_guards _
    | with_reducible exact checkAny_guards _ _
    | with_reducible exact checkTable_guards _ _
    | with_reducible exact args_guards
    | with_reducible exact tonumber_guards
    | with_reducible exact select_guards
    | with_reducible exact next_guards
    | with_reducible exact tostring_guards hc _
    | with_reducible exact ipairsStep_guards hc
    | with_reducible exact protectedCall_guards hc hb _ _ _
    | with_reducible refine Guards.forIn fun _ _ => ?_
    | with_reducible refine Guards.bind ?_ fun _ => ?_
    | split

end Library

/-! ## Calls -/

/-- `x` leaves the running frame for the frame of the last caller: run from a sound machine with
one frame more below than the caller has, it ends in a sound machine that keeps frozen the
caller's frames below. -/
def Leaves (x : VM α) : Prop :=
  ∀ d m L G, m.Sound d → m.callers.toList = L ++ [G] →
    (final (x.run m)).Sound d ∧ Frozen L (final (x.run m))

namespace Leaves

variable {x : VM α} {y : α → VM β}

theorem bind_left (hx : Guards x) (hb : Balanced x) (hy : ∀ a, Leaves (y a)) :
    Leaves (x >>= y) := by
  intro d m L G hs hm
  have h := hx d m hs trivial
  have hb' := hb m
  rw [EStateM.run_bind]
  cases hr : x.run m with
  | ok a m₁ =>
    rw [hr] at h hb'
    rw [hm] at hb'
    -- the callers' frames are kept, with one frame on top of them
    obtain ⟨L₁, G₁, e, hk, -⟩ := Frame.KeptAll.concat_inv hb'
    have h' := hy a d m₁ L₁ G₁ h.1 e
    refine ⟨h'.1, fun i f hf hl => h'.2 i f ?_ hl⟩
    have hi : i < L.length := (List.getElem?_eq_some_iff.mp hf).1
    have h₁ : m₁.callers[i]? = some f :=
      h.2 i f (by rw [hm, List.getElem?_append_left hi]; exact hf) hl
    rwa [← Array.getElem?_toList, e, List.getElem?_append_left (hk.length_eq ▸ hi)] at h₁
  | error e m₁ =>
    rw [hr] at h
    exact ⟨h.1, (hm ▸ h.2).restrict (List.prefix_append L [G])⟩

theorem bind_right (hx : Leaves x) (hy : ∀ a, Guards (y a)) : Leaves (x >>= y) := by
  intro d m L G hs hm
  have h := hx d m L G hs hm
  rw [EStateM.run_bind]
  cases hr : x.run m with
  | ok a m₁ =>
    rw [hr] at h
    have h' := hy a d m₁ h.1 trivial
    exact ⟨h'.1, h.2.trans h'.2⟩
  | error e m₁ =>
    rw [hr] at h
    exact h

end Leaves

theorem popFrame_leaves : Leaves popFrame := by
  intro d m L G hs hm
  cases hb : m.callers.back? with
  | none =>
    simp only [popFrame, EStateM.run_bind, EStateM.run_get, hb]
    exact ⟨hs, (hm ▸ Frozen.refl m).restrict (List.prefix_append L [G])⟩
  | some c =>
    obtain ⟨cells, hr⟩ := popFrame_run hb
    rw [hr]
    refine ⟨(popFrame_sound hs hr).1, fun i f hf _ => ?_⟩
    show m.callers.pop[i]? = some f
    rw [← Array.getElem?_toList, Array.toList_pop, hm, List.dropLast_concat]
    exact hf

/-- Entering a sized frame and leaving it again keeps machines sound. -/
theorem Guards.pushFrame {p : VM α} {g : Frame} (hg : g.Sized) (hp : Leaves p) :
    Guards (VM.pushFrame g >>= fun _ => p) := by
  intro d m hs _
  by_cases hd : m.depth ≥ m.maxDepth
  · simp only [VM.pushFrame, EStateM.run_bind, EStateM.run_get, hd, if_true]
    exact ⟨hs, Frozen.refl _⟩
  · simp only [VM.pushFrame, EStateM.run_bind, EStateM.run_get, hd, if_false]
    exact hp d _ m.callers.toList m.frame (hs.push hd hg) (by simp)

/-- Every call and every run of a function keeps machines sound, and keeps frozen the frames
below the running one that run no Lua function. -/
theorem call_guards : ∀ fuel, (∀ n r, Guards (callValue fuel n r)) ∧ Guards (runFunction fuel)
  | 0 => ⟨fun _ _ => Guards.throw _, Guards.throw _⟩
  | fuel + 1 => by
    obtain ⟨hcall, hrun⟩ := call_guards fuel
    obtain ⟨hbal, hbrun⟩ := call_balanced fuel
    refine ⟨fun n r => ?_, ?_⟩
    · unfold callValue
      refine top_guards.bind fun t => ?_
      dsimp only
      split
      on_goal 1 => refine (Guards.throw _).bind fun _ => ?_
      -- a library function runs on a frame of its arguments and a Lua function on the frame it
      -- enters; either frame is left before the results are pushed
      all_goals
        refine (resolveCallee_guards _ _).bind fun x => ?_
        split
        · refine (popN_guards _).bind fun args => pop_guards.bind fun _ => ?_
          refine Guards.pushFrame (Nat.le_refl _)
            (Leaves.bind_left (run_guards hcall hbal _) (run_balanced hbal _) fun k => ?_)
          exact Leaves.bind_left (popN_guards k) (popN_balanced k) fun _ =>
            Leaves.bind_right popFrame_leaves fun _ => modifyFrame_guards (Frame.Steady.pushN _ _)
        · refine Guards.bind_of (enterLua_guards _ _) (fun _ _ _ h => enterLua_sized h)
            fun f hf => ?_
          exact Guards.pushFrame hf (Leaves.bind_left hrun hbrun fun _ =>
            Leaves.bind_right popFrame_leaves fun _ => modifyFrame_guards (Frame.Steady.pushN _ _))
    · unfold runFunction
      refine (step_guards hcall).bind fun o => ?_
      split
      · exact Guards.pure _
      · exact hrun

end VM

end LuaBytecode
