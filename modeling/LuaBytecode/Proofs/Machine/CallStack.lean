import Mathlib.Data.List.Infix
import Mathlib.Data.List.Forall2
import LuaBytecode.Machine.Api
/-!
# The frames below the running one

A call enters a frame for the function it calls and leaves it when the function returns, so the
callers' frames are found again as they were left: with the same tops, and with no fewer slots
(a callee may write to a caller's registers through an upvalue cell, nothing else). A failure may
leave frames behind, above the callers' frames; a protected call leaves them again before it
goes on (`VM.tryCatch_unwind`).

* `Frame.Kept f g`: `g` is the frame `f` as a caller finds it again, `Frame.KeptAll` the same
  frame by frame, and `Frame.KeptBelow L L'`: the frames `L` are kept at the bottom of `L'`;
* `VM.Balanced x`: on success, `x` keeps the frames below the running one; on failure they are
  kept below the frames it entered;
* `VM.Pops x`: `x` leaves the running frame for the frame of the last caller;
* `VM.call_balanced`: every call and every run of a function is balanced. Each instruction and
  each library function is balanced once the calls it makes are (`dispatch_balanced`,
  `run_balanced`), so the induction is on the budget that `callValue` and `runFunction` share.
-/

namespace LuaBytecode

namespace Frame

/-- `g` is the frame `f` as a caller finds it again: the same top, and no fewer slots. -/
def Kept (f g : Frame) : Prop := g.top = f.top ∧ f.slots.size ≤ g.slots.size

theorem Kept.refl (f : Frame) : Kept f f := ⟨rfl, le_refl _⟩

theorem Kept.trans {f g h : Frame} (h₁ : Kept f g) (h₂ : Kept g h) : Kept f h :=
  ⟨h₂.1.trans h₁.1, h₁.2.trans h₂.2⟩

theorem kept_setReg (f : Frame) (r : Nat) (v : Value) : Kept f (f.setReg r v) := by
  refine ⟨rfl, ?_⟩
  simp only [setReg, Array.size_set!]
  unfold slotsUpTo
  split
  · simp only [Array.size_append, Array.size_replicate]
    omega
  · exact le_refl _

/-- The frames `L'` keep the frames `L`, one by one. -/
def KeptAll (L L' : List Frame) : Prop := List.Forall₂ Kept L L'

/-- The frames `L` are kept at the bottom of `L'`. -/
def KeptBelow (L L' : List Frame) : Prop := ∃ L₀, KeptAll L L₀ ∧ L₀ <+: L'

namespace KeptAll

theorem refl (L : List Frame) : KeptAll L L := List.forall₂_same.mpr fun f _ => Kept.refl f

theorem trans : ∀ {L₁ L₂ L₃ : List Frame}, KeptAll L₁ L₂ → KeptAll L₂ L₃ → KeptAll L₁ L₃
  | [], [], [], .nil, .nil => .nil
  | _ :: _, _ :: _, _ :: _, .cons h₁ t₁, .cons h₂ t₂ => .cons (h₁.trans h₂) (trans t₁ t₂)

theorem below {L L' : List Frame} (h : KeptAll L L') : KeptBelow L L' := ⟨L', h, List.prefix_refl _⟩

theorem take {L L' : List Frame} (h : KeptAll L L') (n : Nat) : KeptAll (L.take n) (L'.take n) :=
  List.forall₂_take n h

/-- Frames kept with one more on top: the one on top is kept too. -/
theorem concat_inv : ∀ {L L' : List Frame} {G : Frame}, KeptAll (L ++ [G]) L' →
    ∃ L₁ G', L' = L₁ ++ [G'] ∧ KeptAll L L₁ ∧ Kept G G'
  | [], _ :: _, _, .cons h .nil => ⟨[], _, rfl, .nil, h⟩
  | _ :: _, _ :: _, _, .cons h t =>
    let ⟨L₁, G', e, k, g⟩ := concat_inv t
    ⟨_ :: L₁, G', by rw [e]; rfl, .cons h k, g⟩

end KeptAll

namespace KeptBelow

theorem of_keptAll_left {L L₁ L₂ : List Frame} (h : KeptAll L L₁) (h' : KeptBelow L₁ L₂) :
    KeptBelow L L₂ := by
  obtain ⟨L₀, hk, hp⟩ := h'
  exact ⟨L₀, h.trans hk, hp⟩

theorem of_keptAll_right {L L₁ L₂ : List Frame} (h : KeptBelow L L₁) (h' : KeptAll L₁ L₂) :
    KeptBelow L L₂ := by
  obtain ⟨L₀, hk, ⟨R, rfl⟩⟩ := h
  refine ⟨L₂.take L₀.length, hk.trans ?_, List.take_prefix _ _⟩
  simpa only [List.take_left] using h'.take L₀.length

theorem trans {L L₁ L₂ : List Frame} (h : KeptBelow L L₁) (h' : KeptBelow L₁ L₂) :
    KeptBelow L L₂ := by
  obtain ⟨M, hk, hp⟩ := h'
  obtain ⟨L₀, hk₀, hp₀⟩ := of_keptAll_right h hk
  exact ⟨L₀, hk₀, hp₀.trans hp⟩

/-- Frames kept with one more on top are kept without it. -/
theorem of_concat {L L' : List Frame} {G : Frame} (h : KeptBelow (L ++ [G]) L') : KeptBelow L L' := by
  obtain ⟨L₀, hk, hp⟩ := h
  have := hk.take L.length
  rw [List.take_left] at this
  exact ⟨L₀.take L.length, this, (List.take_prefix _ _).trans hp⟩

end KeptBelow

end Frame

namespace Machine

/-- Changing a frame by a function that keeps frames keeps the callers' frames. -/
theorem keptAll_modifyFrameAt (m : Machine) (i : Nat) {g : Frame → Frame}
    (hg : ∀ f, Frame.Kept f (g f)) :
    Frame.KeptAll m.callers.toList (m.modifyFrameAt i g).callers.toList := by
  unfold modifyFrameAt
  split
  · exact Frame.KeptAll.refl _
  · split
    · rw [Array.toList_modify]
      refine List.forall₂_iff_get.mpr ⟨by simp, fun j h₁ h₂ => ?_⟩
      simp only [List.get_eq_getElem, List.getElem_modify]
      split
      · subst_vars
        exact hg _
      · exact Frame.Kept.refl _
    · exact Frame.KeptAll.refl _

end Machine

namespace VM

open LuaBytecode.Frame

variable {α β γ : Type}

/-- A computation keeps the frames below the running one: when it succeeds they are kept, and
when it fails they are kept below the frames it entered. -/
def Balanced (x : VM α) : Prop :=
  ∀ m, match x.run m with
    | .ok _ m' => KeptAll m.callers.toList m'.callers.toList
    | .error _ m' => KeptBelow m.callers.toList m'.callers.toList

namespace Balanced

variable {x : VM α} {f : α → VM β}

theorem bind (hx : Balanced x) (hf : ∀ a, Balanced (f a)) : Balanced (x >>= f) := by
  intro m
  have h := hx m
  rw [EStateM.run_bind]
  split at h
  · rename_i a m₁ hr
    rw [hr]
    have h' := hf a m₁
    split at h'
    · rename_i hr'
      simp only [hr']
      exact h.trans h'
    · rename_i hr'
      simp only [hr']
      exact h'.of_keptAll_left h
  · rename_i e m₁ hr
    rw [hr]
    exact h

theorem pure (a : α) : Balanced (Pure.pure a : VM α) := fun _ => KeptAll.refl _

theorem throw (e : Fault) : Balanced (MonadExcept.throw e : VM α) := fun _ => (KeptAll.refl _).below

theorem get : Balanced (MonadState.get : VM Machine) := fun _ => KeptAll.refl _

theorem map {f : α → β} (hx : Balanced x) : Balanced (f <$> x) := by
  rw [← bind_pure_comp]
  exact hx.bind fun _ => pure _

theorem forIn {l : List γ} {b : β} {f : γ → β → VM (ForInStep β)} (hf : ∀ a b, Balanced (f a b)) :
    Balanced (ForIn.forIn l b f) := by
  induction l generalizing b with
  | nil => exact pure b
  | cons a l ih =>
    rw [List.forIn_cons]
    refine (hf a b).bind fun s => ?_
    split
    · exact pure _
    · exact ih

theorem forIn_array {xs : Array γ} {b : β} {f : γ → β → VM (ForInStep β)}
    (hf : ∀ a b, Balanced (f a b)) : Balanced (ForIn.forIn xs b f) := by
  rw [← Array.forIn_toList]
  exact forIn hf

theorem foldlM {l : List γ} {b : β} {f : β → γ → VM β} (hf : ∀ b a, Balanced (f b a)) :
    Balanced (l.foldlM f b) := by
  induction l generalizing b with
  | nil => exact pure b
  | cons a l ih =>
    rw [List.foldlM_cons]
    exact (hf b a).bind fun _ => ih

end Balanced

/-! ## Operations on the running frame and the heap -/

theorem modifyFrame_balanced (f : Frame → Frame) : Balanced (modifyFrame f) := fun _ => KeptAll.refl _
theorem frame_balanced : Balanced frame := fun _ => KeptAll.refl _
theorem push_balanced (v : Value) : Balanced (push v) := fun _ => KeptAll.refl _
theorem pop_balanced : Balanced pop := fun _ => KeptAll.refl _
theorem popN_balanced (n : Nat) : Balanced (popN n) := fun _ => KeptAll.refl _
theorem getAt_balanced (i : Int) : Balanced (getAt i) := fun _ => KeptAll.refl _
theorem top_balanced : Balanced top := fun _ => KeptAll.refl _
theorem newTable_balanced (t : Table) : Balanced (newTable t) := fun _ => KeptAll.refl _
theorem modifyTable_balanced (id : Nat) (f : Table → Table) : Balanced (modifyTable id f) :=
  fun _ => KeptAll.refl _
theorem newBuiltin_balanced (b : Builtin) : Balanced (newBuiltin b) := fun _ => KeptAll.refl _
theorem newCell_balanced (c : Cell) : Balanced (newCell c) := fun _ => KeptAll.refl _
theorem newClosure_balanced (c : Closure) : Balanced (newClosure c) := fun _ => KeptAll.refl _
theorem closeCells_balanced (lo : Nat) : Balanced (closeCells lo) := fun _ => KeptAll.refl _
theorem write_balanced (s : String) : Balanced (write s) := fun _ => KeptAll.refl _
theorem reg_balanced (r : Nat) : Balanced (reg r) := fun _ => KeptAll.refl _
theorem setReg_balanced (r : Nat) (v : Value) : Balanced (setReg r v) := fun _ => KeptAll.refl _
theorem jump_balanced (s : Int) : Balanced (jump s) := fun _ => KeptAll.refl _
theorem skip_balanced : Balanced skip := fun _ => KeptAll.refl _

theorem insert_balanced (i : Int) : Balanced (insert i) := by
  refine frame_balanced.bind fun f => ?_
  split
  · exact modifyFrame_balanced _
  · exact Balanced.throw _

theorem rawSet_balanced (id : Nat) (k v : Value) : Balanced (rawSet id k v) := by
  unfold rawSet
  split
  · exact Balanced.throw _
  · exact modifyTable_balanced _ _

theorem readCell_balanced (id : Nat) : Balanced (readCell id) := by
  refine Balanced.get.bind fun m => ?_
  split <;> exact Balanced.pure _

/-- Writing through a cell open on a caller's slot changes that slot only. -/
theorem writeCell_balanced (id : Nat) (v : Value) : Balanced (writeCell id v) := by
  intro m
  simp only [writeCell, EStateM.run_bind, EStateM.run_get]
  cases h : m.cells[id]? with
  | none => exact KeptAll.refl _
  | some c =>
    cases c with
    | isOpen fr slot => exact m.keptAll_modifyFrameAt _ fun f => kept_setReg f _ _
    | closed _ => exact KeptAll.refl _

theorem openCell_balanced (slot : Nat) : Balanced (openCell slot) := by
  refine Balanced.get.bind fun m => ?_
  split
  · exact Balanced.pure _
  · exact (newCell_balanced _).bind fun _ =>
      (modifyFrame_balanced _).bind fun _ => Balanced.pure _

theorem fetch_balanced (p : Proto) : Balanced (fetch p) := by
  refine frame_balanced.bind fun f => ?_
  split
  · exact (modifyFrame_balanced _).bind fun _ => Balanced.pure _
  · exact Balanced.throw _

theorem constant_balanced (p : Proto) (idx : Nat) : Balanced (constant p idx) := by
  unfold constant
  split
  · exact Balanced.pure _
  · exact Balanced.throw _

theorem rk_balanced (p : Proto) (x : Nat) : Balanced (rk p x) := by
  unfold rk
  split
  · exact constant_balanced _ _
  · exact reg_balanced _

theorem lift_balanced (x : Except Fault α) : Balanced (lift x) := by
  unfold lift
  split
  · exact Balanced.pure _
  · exact Balanced.throw _

theorem getUpval_balanced (c : Closure) (idx : Nat) : Balanced (getUpval c idx) := by
  unfold getUpval
  split
  · exact readCell_balanced _
  · exact Balanced.pure _

theorem setUpval_balanced (c : Closure) (idx : Nat) (v : Value) : Balanced (setUpval c idx v) := by
  unfold setUpval
  split
  · exact writeCell_balanced _ _
  · exact Balanced.pure _

/-! The operations below are sequences of the ones above, with matches and conditions between
them; each proof takes its computation apart bind by bind. -/

theorem callArgs_balanced (a b : Nat) : Balanced (callArgs a b) := by
  unfold callArgs
  repeat' first
    | with_reducible exact Balanced.pure _
    | with_reducible exact modifyFrame_balanced _
    | with_reducible exact top_balanced
    | with_reducible refine Balanced.bind ?_ fun _ => ?_
    | split

theorem forPrep_balanced (a : Nat) : Balanced (forPrep a) := by
  unfold forPrep
  dsimp only
  repeat' first
    | with_reducible exact Balanced.pure _
    | with_reducible exact Balanced.throw _
    | with_reducible exact reg_balanced _
    | with_reducible exact setReg_balanced _ _
    | with_reducible refine Balanced.bind ?_ fun _ => ?_
    | split

theorem forLoop_balanced (a : Nat) : Balanced (forLoop a) := by
  unfold forLoop
  dsimp only
  repeat' first
    | with_reducible exact Balanced.pure _
    | with_reducible exact reg_balanced _
    | with_reducible exact setReg_balanced _ _
    | with_reducible refine Balanced.bind ?_ fun _ => ?_
    | split

theorem setList_balanced (a n batch : Nat) : Balanced (setList a n batch) := by
  unfold setList
  dsimp only
  repeat' first
    | with_reducible exact Balanced.pure _
    | with_reducible exact Balanced.throw _
    | with_reducible exact reg_balanced _
    | with_reducible exact rawSet_balanced _ _ _
    | with_reducible refine Balanced.forIn fun _ _ => ?_
    | with_reducible refine Balanced.bind ?_ fun _ => ?_
    | split

theorem runningClosure_balanced : Balanced runningClosure := by
  unfold runningClosure
  repeat' first
    | with_reducible exact Balanced.pure _
    | with_reducible exact Balanced.throw _
    | with_reducible exact Balanced.get
    | with_reducible exact frame_balanced
    | with_reducible refine Balanced.bind ?_ fun _ => ?_
    | split

theorem resolveCallee_balanced (slot nArgs : Nat) : Balanced (resolveCallee slot nArgs) := by
  unfold resolveCallee
  dsimp only
  repeat' first
    | with_reducible exact Balanced.pure _
    | with_reducible exact Balanced.throw _
    | with_reducible exact Balanced.get
    | with_reducible exact modifyFrame_balanced _
    | with_reducible refine Balanced.bind ?_ fun _ => ?_
    | split

theorem closureOf_balanced (v : Value) : Balanced (closureOf v) := by
  unfold closureOf
  repeat' first
    | with_reducible exact Balanced.pure _
    | with_reducible exact Balanced.throw _
    | with_reducible exact Balanced.get
    | with_reducible refine Balanced.bind ?_ fun _ => ?_
    | split

theorem enterLua_balanced (callee : Value) (nArgs : Nat) : Balanced (enterLua callee nArgs) :=
  (closureOf_balanced _).bind fun _ => (popN_balanced _).bind fun _ =>
    pop_balanced.bind fun _ => Balanced.pure _

theorem makeClosure_balanced (parent : Closure) (p : Proto) : Balanced (makeClosure parent p) := by
  unfold makeClosure
  dsimp only
  refine (Balanced.forIn_array fun src cells => ?_).bind fun _ => newClosure_balanced _
  repeat' first
    | with_reducible exact Balanced.pure _
    | with_reducible exact openCell_balanced _
    | with_reducible exact newCell_balanced _
    | with_reducible refine Balanced.bind ?_ fun _ => ?_
    | split

theorem errorObject_balanced (err : Fault) : Balanced (errorObject err) := by
  unfold errorObject
  split
  · exact Balanced.get.bind fun _ => Balanced.pure _
  all_goals exact Balanced.pure _

theorem checkAny_balanced (n : Nat) (fname : String) : Balanced (checkAny n fname) := by
  unfold checkAny
  repeat' first
    | with_reducible exact Balanced.pure _
    | with_reducible exact Balanced.throw _
    | with_reducible exact top_balanced
    | with_reducible exact getAt_balanced _
    | with_reducible refine Balanced.bind ?_ fun _ => ?_
    | split

theorem checkTable_balanced (n : Nat) (fname : String) : Balanced (checkTable n fname) := by
  unfold checkTable
  repeat' first
    | with_reducible exact Balanced.pure _
    | with_reducible exact Balanced.throw _
    | with_reducible exact top_balanced
    | with_reducible exact getAt_balanced _
    | with_reducible refine Balanced.bind ?_ fun _ => ?_
    | split

theorem args_balanced : Balanced args := frame_balanced.bind fun _ => Balanced.pure _

theorem tonumber_balanced : Balanced tonumber := by
  unfold tonumber
  dsimp only
  repeat' first
    | with_reducible exact Balanced.pure _
    | with_reducible exact Balanced.throw _
    | with_reducible exact push_balanced _
    | with_reducible exact getAt_balanced _
    | with_reducible exact checkAny_balanced _ _
    | with_reducible refine Balanced.bind ?_ fun _ => ?_
    | split

theorem select_balanced : Balanced select := by
  unfold select
  dsimp only
  repeat' first
    | with_reducible exact Balanced.pure _
    | with_reducible exact Balanced.throw _
    | with_reducible exact top_balanced
    | with_reducible exact push_balanced _
    | with_reducible exact getAt_balanced _
    | with_reducible refine Balanced.bind ?_ fun _ => ?_
    | split

theorem next_balanced : Balanced next := by
  unfold next
  repeat' first
    | with_reducible exact Balanced.pure _
    | with_reducible exact Balanced.throw _
    | with_reducible exact Balanced.get
    | with_reducible exact push_balanced _
    | with_reducible exact getAt_balanced _
    | with_reducible exact checkTable_balanced _ _
    | with_reducible refine Balanced.bind ?_ fun _ => ?_
    | split


/-! ## Operations that call -/

section Calls

variable {call : Call} (hc : ∀ n r, Balanced (call n r))
include hc

theorem callMeta_balanced (mm : Value) (args : List Value) : Balanced (callMeta call mm args) :=
  (push_balanced _).bind fun _ =>
    (Balanced.forIn fun _ _ => (push_balanced _).bind fun _ => Balanced.pure _).bind fun _ =>
      (hc _ _).bind fun _ => pop_balanced

theorem tryBinaryMeta_balanced (a b : Value) (event : String) :
    Balanced (tryBinaryMeta call a b event) := by
  -- whichever operand supplies the handler, it is called once or not at all
  have handled : ∀ mm : Value,
      Balanced (if mm.isNil then Pure.pure none else some <$> callMeta call mm [a, b]) := by
    intro mm
    split
    · exact Balanced.pure _
    · exact (callMeta_balanced hc _ _).map
  exact Balanced.get.bind fun _ => handled _

theorem index_go_balanced (k : Value) : ∀ n cur, Balanced (index.go call k n cur)
  | 0, _ => Balanced.throw _
  | n + 1, cur => by
    unfold index.go
    refine Balanced.get.bind fun m => ?_
    split
    · dsimp only
      split
      · exact Balanced.pure _
      · split
        · exact Balanced.pure _
        · split
          · exact callMeta_balanced hc _ _
          · exact index_go_balanced k n _
    · exact Balanced.throw _

theorem index_balanced (t k : Value) : Balanced (index call t k) := index_go_balanced hc k _ _

theorem setIndex_go_balanced (k v : Value) : ∀ n cur, Balanced (setIndex.go call k v n cur)
  | 0, _ => Balanced.throw _
  | n + 1, cur => by
    unfold setIndex.go
    refine Balanced.get.bind fun m => ?_
    split
    · dsimp only
      repeat' first
        | with_reducible exact Balanced.pure _
        | with_reducible exact rawSet_balanced _ _ _
        | with_reducible exact callMeta_balanced hc _ _
        | with_reducible exact setIndex_go_balanced k v n _
        | with_reducible refine Balanced.bind ?_ fun _ => ?_
        | split
    · exact Balanced.throw _

theorem setIndex_balanced (t k v : Value) : Balanced (setIndex call t k v) :=
  setIndex_go_balanced hc k v _ _

theorem arith_balanced (op : ArithOp) (a b : Value) : Balanced (arith call op a b) := by
  unfold arith
  dsimp only
  repeat' first
    | with_reducible exact Balanced.pure _
    | with_reducible exact Balanced.throw _
    | with_reducible exact lift_balanced _
    | with_reducible exact tryBinaryMeta_balanced hc _ _ _
    | with_reducible refine Balanced.bind ?_ fun _ => ?_
    | split

theorem concat_balanced (values : Array Value) : Balanced (concat call values) := by
  unfold concat
  split
  · exact Balanced.pure _
  · refine Balanced.foldlM fun acc lhs => ?_
    dsimp only
    repeat' first
      | with_reducible exact Balanced.pure _
      | with_reducible exact Balanced.throw _
      | with_reducible exact tryBinaryMeta_balanced hc _ _ _
      | with_reducible refine Balanced.bind ?_ fun _ => ?_
      | split

theorem len_balanced (v : Value) : Balanced (len call v) := by
  unfold len
  dsimp only
  repeat' first
    | with_reducible exact Balanced.pure _
    | with_reducible exact Balanced.throw _
    | with_reducible exact Balanced.get
    | with_reducible exact callMeta_balanced hc _ _
    | with_reducible refine Balanced.bind ?_ fun _ => ?_
    | split

theorem equals_balanced (a b : Value) : Balanced (equals call a b) := by
  unfold equals
  repeat' first
    | with_reducible exact Balanced.pure _
    | with_reducible exact tryBinaryMeta_balanced hc _ _ _
    | with_reducible refine Balanced.bind ?_ fun _ => ?_
    | split

theorem lessThan_balanced (a b : Value) : Balanced (lessThan call a b) := by
  unfold lessThan
  repeat' first
    | with_reducible exact Balanced.pure _
    | with_reducible exact Balanced.throw _
    | with_reducible exact tryBinaryMeta_balanced hc _ _ _
    | with_reducible refine Balanced.bind ?_ fun _ => ?_
    | split

theorem lessEqual_balanced (a b : Value) : Balanced (lessEqual call a b) := by
  unfold lessEqual
  repeat' first
    | with_reducible exact Balanced.pure _
    | with_reducible exact Balanced.throw _
    | with_reducible exact tryBinaryMeta_balanced hc _ _ _
    | with_reducible refine Balanced.bind ?_ fun _ => ?_
    | split

/-- Every instruction keeps the frames below the running one, given that calls do. -/
theorem dispatch_balanced (lc : Closure) (i : Instruction) : Balanced (dispatch call lc i) := by
  unfold dispatch
  dsimp only
  repeat' first
    | with_reducible exact Balanced.pure _
    | with_reducible exact Balanced.throw _
    | with_reducible exact hc _ _
    | with_reducible exact frame_balanced
    | with_reducible exact top_balanced
    | with_reducible exact modifyFrame_balanced _
    | with_reducible exact push_balanced _
    | with_reducible exact reg_balanced _
    | with_reducible exact setReg_balanced _ _
    | with_reducible exact jump_balanced _
    | with_reducible exact skip_balanced
    | with_reducible exact fetch_balanced _
    | with_reducible exact constant_balanced _ _
    | with_reducible exact rk_balanced _ _
    | with_reducible exact getUpval_balanced _ _
    | with_reducible exact setUpval_balanced _ _ _
    | with_reducible exact newTable_balanced _
    | with_reducible exact closeCells_balanced _
    | with_reducible exact index_balanced hc _ _
    | with_reducible exact setIndex_balanced hc _ _ _
    | with_reducible exact arith_balanced hc _ _ _
    | with_reducible exact len_balanced hc _
    | with_reducible exact concat_balanced hc _
    | with_reducible exact equals_balanced hc _ _
    | with_reducible exact lessThan_balanced hc _ _
    | with_reducible exact lessEqual_balanced hc _ _
    | with_reducible exact callArgs_balanced _ _
    | with_reducible exact resolveCallee_balanced _ _
    | with_reducible exact enterLua_balanced _ _
    | with_reducible exact forPrep_balanced _
    | with_reducible exact forLoop_balanced _
    | with_reducible exact setList_balanced _ _ _
    | with_reducible exact makeClosure_balanced _ _
    | with_reducible refine Balanced.forIn fun _ _ => ?_
    | with_reducible refine Balanced.forIn_array fun _ _ => ?_
    | with_reducible refine Balanced.bind ?_ fun _ => ?_
    | split

theorem step_balanced : Balanced (step call) :=
  runningClosure_balanced.bind fun lc => (fetch_balanced _).bind fun i => dispatch_balanced hc lc i

end Calls

/-! ## Leaving frames -/

/-- Leaving the running frame returns to the last caller; the cells open on the frame left are
closed. -/
theorem popFrame_run {m : Machine} {c : Frame} (h : m.callers.back? = some c) :
    ∃ cells, popFrame.run m = .ok () { m with frame := c, callers := m.callers.pop, cells } := by
  simp only [popFrame, EStateM.run_bind, EStateM.run_get, h]
  exact ⟨_, rfl⟩

/-- Leaving frames one by one: `l` is only counted. -/
theorem unwind_run : ∀ (l : List Nat) (m : Machine), l.length ≤ m.callers.size →
    ∃ m', (ForIn.forIn l PUnit.unit fun (_ : Nat) (_ : PUnit) => do
        popFrame
        pure (ForInStep.yield PUnit.unit) : VM PUnit).run m = .ok PUnit.unit m' ∧
      m'.callers.toList = m.callers.toList.take (m.callers.size - l.length)
  | [], m, _ => ⟨m, rfl, by simp⟩
  | _ :: l, m, hl => by
    have hne : m.callers ≠ #[] := by
      intro he
      simp [he] at hl
    obtain ⟨c, hc⟩ : ∃ c, m.callers.back? = some c :=
      Option.ne_none_iff_exists'.mp (mt Array.back?_eq_none_iff.mp hne)
    obtain ⟨cells, hr⟩ := popFrame_run hc
    obtain ⟨m', hr', ht⟩ := unwind_run l { m with frame := c, callers := m.callers.pop, cells }
      (by simp at hl ⊢; omega)
    refine ⟨m', ?_, ?_⟩
    · simp only [List.forIn_cons, EStateM.run_bind, hr]
      exact hr'
    · have hl' : l.length + 1 ≤ m.callers.size := by simpa using hl
      rw [ht]
      simp only [Array.toList_pop, Array.size_pop, List.dropLast_eq_take, List.take_take,
        Array.length_toList, List.length_cons]
      congr 1
      omega

/-- Unwinding to `d` callers leaves the bottom `d` of them. -/
theorem unwindTo_run {m : Machine} {d : Nat} (hd : d ≤ m.callers.size) :
    ∃ m', (unwindTo d).run m = .ok () m' ∧ m'.callers.toList = m.callers.toList.take d := by
  obtain ⟨m', hr, ht⟩ := unwind_run (List.range (m.callers.size - d)) m (by simp)
  refine ⟨m', ?_, ?_⟩
  · simp only [unwindTo, EStateM.run_bind, EStateM.run_get]
    rw [hr]
    rfl
  · rw [ht, List.length_range]
    congr 1
    omega

/-- The machine keeps no backup to go back to: a handler starts where the failure left it. -/
theorem tryCatch_run (x : VM α) (k : Fault → VM α) (m : Machine) :
    (tryCatch x k).run m = match x.run m with
      | .ok a m' => .ok a m'
      | .error e m' => (k e).run m' := by
  show (EStateM.tryCatch _ _).run _ = _
  unfold EStateM.tryCatch
  simp only [EStateM.run]
  cases x m <;> rfl

/-- A failure caught after unwinding to the frames there were: whatever the computation entered
before it failed, the frames below are kept. -/
theorem tryCatch_unwind {x : VM α} {k : Fault → VM α} (hx : Balanced x) (hk : ∀ e, Balanced (k e))
    (m : Machine) :
    match (tryCatch x fun e => do unwindTo m.callers.size; k e).run m with
    | .ok _ m' => KeptAll m.callers.toList m'.callers.toList
    | .error _ m' => KeptBelow m.callers.toList m'.callers.toList := by
  have h := hx m
  rw [tryCatch_run]
  split at h
  · exact h
  · rename_i e m₁ hr
    obtain ⟨L₀, hk₀, hp⟩ := h
    have hlen : L₀.length = m.callers.size := by simpa using hk₀.length_eq.symm
    have hd : m.callers.size ≤ m₁.callers.size := by
      have := hp.length_le
      simpa [hlen] using this
    obtain ⟨m₂, hu, ht⟩ := unwindTo_run hd
    -- the frames left are exactly the kept ones
    have ht' : m₂.callers.toList = L₀ := by
      rw [ht, ← hlen]
      obtain ⟨R, hR⟩ := hp
      rw [← hR, List.take_left]
    have hb := hk e m₂
    simp only [EStateM.run_bind, hu]
    split at hb
    · rename_i hr₂
      simp only [hr₂]
      exact hk₀.trans (ht' ▸ hb)
    · rename_i hr₂
      simp only [hr₂]
      exact (ht' ▸ hb).of_keptAll_left hk₀

section Library

variable {call : Call} (hc : ∀ n r, Balanced (call n r))
include hc

/-- A protected call leaves the frames its call entered: whatever fails inside, the frames
below it are kept. -/
theorem protectedCall_balanced (nArgs : Nat) (nResults msgh : Int) :
    Balanced (protectedCall call nArgs nResults msgh) := by
  unfold protectedCall
  dsimp only
  split
  on_goal 1 => refine (Balanced.throw _).bind fun _ => ?_
  -- past the check on the handler, the call runs under `tryCatch` from the machine it starts in
  all_goals
    intro m
    simp only [EStateM.run_bind, EStateM.run_get, top, frame, EStateM.run_pure]
    refine tryCatch_unwind ((hc nArgs nResults).bind fun _ => Balanced.pure true) (fun e => ?_) m
    refine (modifyFrame_balanced _).bind fun _ => (errorObject_balanced e).bind fun obj => ?_
    split
    · exact (Balanced.throw _).bind fun _ => (push_balanced _).bind fun _ => Balanced.pure _
    · exact (push_balanced _).bind fun _ => Balanced.pure _

theorem tostring_balanced (v : Value) : Balanced (VM.tostring call v) := by
  unfold VM.tostring
  dsimp only
  repeat' first
    | with_reducible exact Balanced.pure _
    | with_reducible exact Balanced.throw _
    | with_reducible exact Balanced.get
    | with_reducible exact push_balanced _
    | with_reducible exact pop_balanced
    | with_reducible exact hc _ _
    | with_reducible refine Balanced.bind ?_ fun _ => ?_
    | split

theorem ipairsStep_balanced : Balanced (ipairsStep call) := by
  unfold ipairsStep
  dsimp only
  repeat' first
    | with_reducible exact Balanced.pure _
    | with_reducible exact push_balanced _
    | with_reducible exact getAt_balanced _
    | with_reducible exact index_balanced hc _ _
    | with_reducible refine Balanced.bind ?_ fun _ => ?_
    | split

/-- Every library function keeps the frames below the running one, given that calls do. -/
theorem run_balanced (b : Builtin) : Balanced (b.run call) := by
  cases b <;> unfold Builtin.run <;> dsimp only
  all_goals repeat' first
    | with_reducible exact Balanced.pure _
    | with_reducible exact Balanced.throw _
    | with_reducible exact Balanced.get
    | with_reducible exact hc _ _
    | with_reducible exact frame_balanced
    | with_reducible exact top_balanced
    | with_reducible exact push_balanced _
    | with_reducible exact getAt_balanced _
    | with_reducible exact insert_balanced _
    | with_reducible exact write_balanced _
    | with_reducible exact rawSet_balanced _ _ _
    | with_reducible exact modifyTable_balanced _ _
    | with_reducible exact newBuiltin_balanced _
    | with_reducible exact checkAny_balanced _ _
    | with_reducible exact checkTable_balanced _ _
    | with_reducible exact args_balanced
    | with_reducible exact tonumber_balanced
    | with_reducible exact select_balanced
    | with_reducible exact next_balanced
    | with_reducible exact tostring_balanced hc _
    | with_reducible exact ipairsStep_balanced hc
    | with_reducible exact protectedCall_balanced hc _ _ _
    | with_reducible refine Balanced.forIn fun _ _ => ?_
    | with_reducible refine Balanced.bind ?_ fun _ => ?_
    | split

end Library

/-! ## Calls -/

/-- A computation that leaves the running frame for the frame of the last caller: run with one
more frame below than a caller has, it ends with the caller's frames. -/
def Pops (x : VM α) : Prop :=
  ∀ m L G, m.callers.toList = L ++ [G] → match x.run m with
    | .ok _ m' => KeptAll L m'.callers.toList
    | .error _ m' => KeptBelow L m'.callers.toList

namespace Pops

variable {x : VM α} {y : α → VM β}

theorem bind_left (hx : Balanced x) (hy : ∀ a, Pops (y a)) : Pops (x >>= y) := by
  intro m L G hm
  have h := hx m
  rw [EStateM.run_bind]
  split at h
  · rename_i a m₁ hr
    rw [hr]
    rw [hm] at h
    obtain ⟨L₁, G₁, e, hk, -⟩ := h.concat_inv
    have h' := hy a m₁ L₁ G₁ e
    split at h'
    · rename_i hr'
      simp only [hr']
      exact hk.trans h'
    · rename_i hr'
      simp only [hr']
      exact h'.of_keptAll_left hk
  · rename_i hr
    rw [hr]
    rw [hm] at h
    exact h.of_concat

theorem bind_right (hx : Pops x) (hy : ∀ a, Balanced (y a)) : Pops (x >>= y) := by
  intro m L G hm
  have h := hx m L G hm
  rw [EStateM.run_bind]
  split at h
  · rename_i a m₁ hr
    rw [hr]
    have h' := hy a m₁
    split at h'
    · rename_i hr'
      simp only [hr']
      exact h.trans h'
    · rename_i hr'
      simp only [hr']
      exact h'.of_keptAll_left h
  · rename_i hr
    rw [hr]
    exact h

end Pops

theorem popFrame_pops : Pops popFrame := by
  intro m L G hm
  cases hb : m.callers.back? with
  | none =>
    simp only [popFrame, EStateM.run_bind, EStateM.run_get, hb]
    show KeptBelow L m.callers.toList
    rw [hm]
    exact ⟨L, KeptAll.refl L, List.prefix_append L [G]⟩
  | some f =>
    obtain ⟨cells, hr⟩ := popFrame_run hb
    rw [hr]
    show KeptAll L m.callers.pop.toList
    rw [Array.toList_pop, hm, List.dropLast_concat]
    exact KeptAll.refl L

/-- Entering a frame and leaving it again keeps the frames below. -/
theorem Balanced.pushFrame {p : VM α} (g : Frame) (hp : Pops p) :
    Balanced (VM.pushFrame g >>= fun _ => p) := by
  intro m
  by_cases hd : m.depth ≥ m.maxDepth
  · simp only [VM.pushFrame, EStateM.run_bind, EStateM.run_get, hd, if_true]
    exact (KeptAll.refl _).below
  · simp only [VM.pushFrame, EStateM.run_bind, EStateM.run_get, hd, if_false]
    exact hp _ m.callers.toList m.frame (by simp)

/-- Every call and every run of a function keeps the frames below the running one. -/
theorem call_balanced : ∀ fuel, (∀ n r, Balanced (callValue fuel n r)) ∧ Balanced (runFunction fuel)
  | 0 => ⟨fun _ _ => Balanced.throw _, Balanced.throw _⟩
  | fuel + 1 => by
    obtain ⟨hcall, hrun⟩ := call_balanced fuel
    refine ⟨fun n r => ?_, ?_⟩
    · unfold callValue
      refine top_balanced.bind fun t => ?_
      dsimp only
      split
      on_goal 1 => refine (Balanced.throw _).bind fun _ => ?_
      -- the callee found, a library function runs on a frame of its arguments and a Lua
      -- function on the frame it enters; either frame is left before the results are pushed
      all_goals
        refine (resolveCallee_balanced _ _).bind fun x => ?_
        split
        · refine (popN_balanced _).bind fun args => pop_balanced.bind fun _ => ?_
          refine Balanced.pushFrame _ (Pops.bind_left (run_balanced hcall _) fun k => ?_)
          exact Pops.bind_left (popN_balanced k) fun _ =>
            Pops.bind_right popFrame_pops fun _ => modifyFrame_balanced _
        · refine (enterLua_balanced _ _).bind fun f => ?_
          exact Balanced.pushFrame f (Pops.bind_left hrun fun _ =>
            Pops.bind_right popFrame_pops fun _ => modifyFrame_balanced _)
    · unfold runFunction
      refine (step_balanced hcall).bind fun o => ?_
      split
      · exact Balanced.pure _
      · exact hrun

end VM

end LuaBytecode
