import LuaBytecode.Proofs.Machine.Execution
/-!
# What the frame operations do to registers

The machine keeps the top of every frame within its slots (`Frame.Sized`); on such a frame,

* `push` writes its value at the top (`reg_push`), and `pushN` writes the values adjusted to the
  wanted count from the top up (`reg_pushN`, `top_pushN`);
* `setTop t` clears the registers between the old and the new top (`reg_setTop`), and taking
  `k` values and then one more off the top (as a call takes its arguments and the called
  function) is `setTop` to the slot below them (`pop_popN`);
* `resetTop` moves the top and keeps every register (`reg_resetTop`).
-/

namespace LuaBytecode

namespace Frame

variable {f : Frame} {v : Value}

/-- The top of the frame lies within its slots. -/
def Sized (f : Frame) : Prop := f.top ≤ f.slots.size

theorem size_writes (g : Nat → Value) (a : Array Value) (lo n : Nat) :
    ((List.range n).foldl (fun s i => s.set! (lo + i) (g i)) a).size = a.size := by
  induction n with
  | zero => rfl
  | succ n ih =>
    rw [List.range_succ, List.foldl_append, List.foldl_cons, List.foldl_nil, Array.size_set!, ih]

/-- Writing `g i` into slot `lo + i` for each `i < n`: slots past the end stay unwritten. -/
theorem getElem?_writes (g : Nat → Value) (a : Array Value) (lo n j : Nat) :
    ((List.range n).foldl (fun s i => s.set! (lo + i) (g i)) a)[j]? =
      if lo ≤ j ∧ j < lo + n then a[j]?.map fun _ => g (j - lo) else a[j]? := by
  induction n with
  | zero => simp
  | succ n ih =>
    rw [List.range_succ, List.foldl_append, List.foldl_cons, List.foldl_nil,
      Array.set!_eq_setIfInBounds, Array.getElem?_setIfInBounds, ih, size_writes]
    by_cases hj : lo + n = j
    · subst hj
      by_cases hs : lo + n < a.size <;> simp [hs]
    · rw [if_neg hj]
      by_cases hin : lo ≤ j ∧ j < lo + n
      · rw [if_pos hin, if_pos (by omega)]
      · rw [if_neg hin, if_neg (by omega)]

theorem size_clear (a : Array Value) (lo n : Nat) :
    ((List.range n).foldl (fun s i => s.set! (lo + i) .nil) a).size = a.size :=
  size_writes (fun _ => .nil) a lo n

/-- Writing `nil` into the slots from `lo`, `n` of them. -/
theorem getElem?_clear (a : Array Value) (lo n j : Nat) :
    ((List.range n).foldl (fun s i => s.set! (lo + i) .nil) a)[j]? =
      if lo ≤ j ∧ j < lo + n then a[j]?.map fun _ => .nil else a[j]? :=
  getElem?_writes (fun _ => .nil) a lo n j

theorem top_push (f : Frame) (v : Value) : (f.push v).top = f.top + 1 := by
  unfold push
  split <;> rfl

theorem reg_push (hf : f.Sized) (j : Nat) :
    (f.push v).reg j = if j = f.top then v else f.reg j := by
  unfold push reg
  split
  · rename_i hlt
    simp only [Array.set!_eq_setIfInBounds, Array.getD_eq_getD_getElem?,
      Array.getElem?_setIfInBounds, hlt, if_true]
    by_cases hj : j = f.top
    · simp [hj]
    · simp [Ne.symm hj, hj]
  · have he : f.top = f.slots.size := by
      unfold Sized at hf
      omega
    simp only [Array.getD_eq_getD_getElem?, Array.getElem?_push, he]
    split <;> rfl

theorem sized_push (hf : f.Sized) : (f.push v).Sized := by
  unfold Sized at hf ⊢
  unfold push
  split
  · simp only [Array.size_set!]
    omega
  · simp only [Array.size_push]
    omega

/-- Pushing changes the slots and the top only. -/
theorem push_eq (f : Frame) (v : Value) : ∃ slots, f.push v = { f with slots, top := f.top + 1 } := by
  unfold push
  split
  · exact ⟨_, rfl⟩
  · exact ⟨_, rfl⟩

theorem pushes_eq (g : Nat → Value) : ∀ (n : Nat) (f : Frame), ∃ slots top,
    (List.range n).foldl (fun f i => f.push (g i)) f = { f with slots, top }
  | 0, f => ⟨f.slots, f.top, rfl⟩
  | n + 1, f => by
    obtain ⟨slots, top, h⟩ := pushes_eq g n f
    obtain ⟨slots', h'⟩ := push_eq { f with slots, top } (g n)
    rw [List.range_succ, List.foldl_append, List.foldl_cons, List.foldl_nil, h, h']
    exact ⟨_, _, rfl⟩

/-- How many values a result count asks for: all of them for a negative count. -/
def wanted (n : Int) (vals : Array Value) : Nat := if n < 0 then vals.size else n.toNat

/-- Pushing `n` values, the `i`-th given by `g i`. -/
theorem pushes_spec (g : Nat → Value) : ∀ (n : Nat) (f : Frame), f.Sized →
    let f' := (List.range n).foldl (fun f i => f.push (g i)) f
    f'.Sized ∧ f'.top = f.top + n ∧ ∀ j, f'.reg j = if f.top ≤ j ∧ j < f.top + n then g (j - f.top) else f.reg j
  | 0, f, hf => ⟨hf, rfl, fun j => by simp⟩
  | n + 1, f, hf => by
    obtain ⟨hs, ht, hr⟩ := pushes_spec g n f hf
    rw [List.range_succ, List.foldl_append, List.foldl_cons, List.foldl_nil]
    refine ⟨sized_push hs, by rw [top_push, ht]; omega, fun j => ?_⟩
    rw [reg_push hs, ht, hr]
    by_cases hj : j = f.top + n
    · rw [if_pos hj, if_pos (by omega)]
      congr 1
      omega
    · rw [if_neg hj]
      by_cases hin : f.top ≤ j ∧ j < f.top + n
      · rw [if_pos hin, if_pos (by omega)]
      · rw [if_neg hin, if_neg (by omega)]

theorem pushN_spec (hf : f.Sized) (vals : Array Value) (n : Int) :
    (f.pushN vals n).Sized ∧ (f.pushN vals n).top = f.top + wanted n vals ∧
      ∀ j, (f.pushN vals n).reg j =
        if f.top ≤ j ∧ j < f.top + wanted n vals then vals.getD (j - f.top) .nil else f.reg j :=
  pushes_spec (fun i => vals.getD i .nil) _ f hf

theorem pushN_eq (f : Frame) (vals : Array Value) (n : Int) :
    ∃ slots top, f.pushN vals n = { f with slots, top } :=
  pushes_eq _ _ f

/-- The slots with `nil` written from the lower to the higher of the old and the new top. -/
theorem reg_setTop (f : Frame) (t j : Nat) :
    (f.setTop t).reg j = if min f.top t ≤ j ∧ j < max f.top t then .nil else f.reg j := by
  unfold setTop reg
  simp only [Array.getD_eq_getD_getElem?]
  rw [getElem?_clear]
  have hpad := slotsUpTo_getD f t j
  simp only [Array.getD_eq_getD_getElem?] at hpad
  split
  · rename_i hin
    rw [if_pos (by omega)]
    cases (f.slotsUpTo t)[j]? <;> rfl
  · rename_i hin
    rw [if_neg (by omega)]
    exact hpad

theorem top_setTop (f : Frame) (t : Nat) : (f.setTop t).top = t := rfl

theorem sized_setTop (f : Frame) (t : Nat) : (f.setTop t).Sized := by
  unfold Sized setTop
  dsimp only
  rw [size_clear]
  exact f.size_slotsUpTo t

/-- Taking `k` values and then one more off the top is moving the top down to the slot below
them, with their slots cleared. -/
theorem pop_popN {s k : Nat} (htop : f.top = s + 1 + k) (hf : f.Sized) :
    ((f.popN k).1.pop).1 = f.setTop s := by
  have hpad : f.slotsUpTo s = f.slots := by
    unfold slotsUpTo Sized at *
    rw [if_neg (by omega)]
  have hk : min k (s + 1 + k) = k := by omega
  simp only [popN, pop, setTop, hpad, htop, hk, Nat.min_eq_right (by omega : s ≤ s + 1 + k),
    Nat.max_eq_left (by omega : s ≤ s + 1 + k)]
  simp only [show s + 1 + k - k = s + 1 by omega, show s + 1 + k - s = k + 1 by omega,
    Nat.add_sub_cancel]
  rw [if_neg (by simp)]
  dsimp only
  congr 1
  refine Array.ext_getElem? fun j => ?_
  rw [Array.set!_eq_setIfInBounds, Array.getElem?_setIfInBounds, size_clear, getElem?_clear,
    getElem?_clear]
  by_cases hj : s = j
  · subst hj
    rw [if_pos rfl, if_pos (by unfold Sized at hf; omega), if_pos (by omega),
      Array.getElem?_eq_getElem (by unfold Sized at hf; omega)]
    rfl
  · rw [if_neg hj]
    by_cases hin : s + 1 ≤ j ∧ j < s + 1 + k
    · rw [if_pos hin, if_pos (by omega)]
    · rw [if_neg hin, if_neg (by omega)]

/-- The values `popN` takes, bottom first. -/
theorem popN_values (f : Frame) (k : Nat) (hk : k ≤ f.top) :
    (f.popN k).2 = f.slots.extract (f.top - k) f.top := by
  simp only [popN, Nat.min_eq_left hk]

theorem reg_resetTop (f : Frame) (t j : Nat) : (f.resetTop t).reg j = f.reg j :=
  slotsUpTo_getD f t j

theorem top_resetTop (f : Frame) (t : Nat) : (f.resetTop t).top = t := rfl

theorem sized_resetTop (f : Frame) (t : Nat) : (f.resetTop t).Sized := f.size_slotsUpTo t

theorem top_rotateUp (f : Frame) (lo : Nat) : (f.rotateUp lo).top = f.top := by
  unfold rotateUp
  split <;> rfl

theorem size_rotateUp (f : Frame) (lo : Nat) : (f.rotateUp lo).slots.size = f.slots.size := by
  unfold rotateUp
  split
  · exact size_writes _ _ _ _
  · rfl

/-- The values of `P` rotated one step up: the last one comes first. -/
theorem size_rotated (P : Array Value) (hP : 0 < P.size) :
    (#[P.getD (P.size - 1) .nil] ++ P.extract 0 (P.size - 1)).size = P.size := by
  rw [Array.size_append, Array.size_extract]
  simp only [List.size_toArray, List.length_cons, List.length_nil]
  omega

theorem getD_rotated (P : Array Value) (i : Nat) (hi : i < P.size) :
    (#[P.getD (P.size - 1) .nil] ++ P.extract 0 (P.size - 1)).getD i .nil =
      if i = 0 then P.getD (P.size - 1) .nil else P.getD (i - 1) .nil := by
  rw [Array.getD_eq_getD_getElem?, Array.getElem?_append]
  simp only [List.size_toArray, List.length_cons, List.length_nil, Nat.zero_add]
  by_cases h0 : i = 0
  · subst h0
    simp [Array.getD_eq_getD_getElem?]
  · rw [if_neg (by omega), if_neg h0, Array.getElem?_extract, if_pos (by omega), Nat.zero_add,
      Array.getD_eq_getD_getElem?]

/-- Rotating the values from `lo` up to the top one step up: the top value comes down to `lo`
and the others move up one slot. -/
theorem reg_rotateUp (hf : f.Sized) {lo : Nat} (hlo : lo < f.top) (j : Nat) :
    (f.rotateUp lo).reg j =
      if j = lo then f.reg (f.top - 1) else if lo < j ∧ j < f.top then f.reg (j - 1) else f.reg j := by
  unfold Sized at hf
  unfold rotateUp reg
  rw [if_pos hlo]
  dsimp only
  generalize hP : f.slots.extract lo f.top = P
  have hsize : P.size = f.top - lo := by
    rw [← hP, Array.size_extract]
    omega
  have hget : ∀ d < P.size, P.getD d .nil = f.slots.getD (lo + d) .nil := by
    intro d hd
    rw [← hP, Array.getD_eq_getD_getElem?, Array.getElem?_extract, if_pos (by omega),
      Array.getD_eq_getD_getElem?]
  rw [Array.getD_eq_getD_getElem?, getElem?_writes, size_rotated P (by omega)]
  by_cases hin : lo ≤ j ∧ j < lo + P.size
  · rw [if_pos hin, Array.getElem?_eq_getElem (by omega : j < f.slots.size), Option.map_some,
      Option.getD_some, getD_rotated P _ (by omega)]
    by_cases hj : j = lo
    · subst hj
      rw [if_pos (Nat.sub_self j), if_pos rfl, hget _ (by omega)]
      congr 1
      omega
    · rw [if_neg (by omega), if_neg hj, if_pos ⟨by omega, by omega⟩, hget _ (by omega)]
      congr 1
      omega
  · rw [if_neg hin, if_neg (by omega), if_neg (by omega), Array.getD_eq_getD_getElem?]

theorem top_insertAt (f : Frame) (s : Nat) (v : Value) : (f.insertAt s v).top = f.top + 1 := by
  rw [insertAt, top_rotateUp, top_push]

theorem sized_insertAt (hf : f.Sized) (s : Nat) : (f.insertAt s v).Sized := by
  unfold Sized
  rw [insertAt, top_rotateUp, size_rotateUp]
  exact sized_push hf

/-- Inserting a value at slot `s` shifts the values from there up to the top one slot up. -/
theorem reg_insertAt (hf : f.Sized) {s : Nat} (hs : s ≤ f.top) (j : Nat) :
    (f.insertAt s v).reg j =
      if j = s then v else if s < j ∧ j ≤ f.top then f.reg (j - 1) else f.reg j := by
  rw [insertAt, reg_rotateUp (sized_push hf) (by rw [top_push]; omega), top_push, reg_push hf,
    reg_push hf, reg_push hf, Nat.add_sub_cancel, if_pos rfl]
  by_cases hj : j = s
  · rw [if_pos hj, if_pos hj]
  · rw [if_neg hj, if_neg hj]
    by_cases hin : s < j ∧ j < f.top + 1
    · rw [if_pos hin, if_neg (show ¬ j - 1 = f.top by omega),
        if_pos (show s < j ∧ j ≤ f.top by omega)]
    · rw [if_neg hin, if_neg (show ¬ j = f.top by omega),
        if_neg (show ¬ (s < j ∧ j ≤ f.top) by omega)]

theorem top_setReg (f : Frame) (r : Nat) (v : Value) : (f.setReg r v).top = f.top := rfl

theorem sized_setReg (hf : f.Sized) (r : Nat) (v : Value) : (f.setReg r v).Sized := by
  unfold Sized setReg slotsUpTo at *
  rw [Array.size_set!]
  split
  · simp only [Array.size_append, Array.size_replicate]
    omega
  · exact hf

/-- Pushing all of the values is pushing them one by one. -/
theorem pushN_all (f : Frame) (vals : Array Value) :
    f.pushN vals (-1) = vals.toList.foldl Frame.push f := by
  have hl : (List.range vals.size).map (fun i => vals.getD i .nil) = vals.toList := by
    apply List.ext_getElem (by simp)
    intro i h₁ h₂
    simp [Array.getD_eq_getD_getElem?, Array.getElem?_eq_getElem (by simpa using h₂)]
  rw [← hl, List.foldl_map]
  rfl

end Frame

end LuaBytecode
