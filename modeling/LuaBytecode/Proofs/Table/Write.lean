import LuaBytecode.Proofs.Table.Normal
/-!
# A write is a map update

On a table in normal form every write changes the value of the key written and of no other key,
and keeps the normal form. `Table.write` does one of five things (`write_cases`), and each is
settled by a lemma of `Normal` or `Hash`:

* overwrite an array slot (`valueAt_setArray`);
* extend the array part and pull the following keys over from the hash part (`valueAt_absorb`);
* overwrite a hash slot, live or dead (`hashGet_set`);
* clear a key that has no entry, which changes nothing;
* append a new key (`valueAt_pushHash`), after sweeping the dead slots when the hash part is full.

The tables a program builds are `Table.Reachable`: the empty table, and whatever a write makes of
a reachable table, with any room reserved for the hash part. The room decides when dead slots are
swept, so `Reachable` covers every sweep schedule. `Table.set_is_map_update` gathers the law.
-/

namespace LuaBytecode

namespace Table

variable {t t' : Table} {k k' : Value} {hk : Key} {v : Value} {n : Nat}

/-! ## Appending a new key -/

/-- The hash part a new key is appended to: the table's own, or that without its dead slots. -/
def SweptFrom (t t' : Table) : Prop :=
  t'.hash = t.hash ∨ t'.hash = t.hash.filter fun e => !e.2.isNil

theorem SweptFrom.sublist (h : SweptFrom t t') : t'.hashKeys.Sublist t.hashKeys := by
  rcases h with h | h
  · rw [hashKeys_congr h]
  · exact hashKeys_sweep_sublist h

theorem SweptFrom.hashGet (h : SweptFrom t t') (hn : t.hashKeys.Nodup) : t'.hashGet = t.hashGet := by
  rcases h with h | h
  · exact hashGet_congr h
  · funext hk'
    exact hashGet_sweep h hn

/-- Appending keeps the array part and appends the entry to a hash part swept from the table's. -/
theorem pushHash_eq (t : Table) (hk : Key) (v : Value) :
    ∃ t₀ : Table, SweptFrom t t₀ ∧ t₀.array = t.array ∧
      (t.pushHash hk v).array = t.array ∧ (t.pushHash hk v).hash = t₀.hash.push (hk, v) := by
  unfold pushHash
  split
  · exact ⟨{ t with hash := t.hash.filter fun e => !e.2.isNil }, .inr rfl, rfl, rfl, rfl⟩
  · exact ⟨t, .inl rfl, rfl, rfl, rfl⟩

/-- A new key with no array slot is appended: its value becomes `v`, and every other key keeps
its value, also when the dead slots are swept first. -/
theorem valueAt_pushHash (hn : t.hashKeys.Nodup) (hs : t.keySlot? hk = none)
    (hnew : hk ∉ t.hashKeys) : (t.pushHash hk v).valueAt = Function.update t.valueAt hk v := by
  obtain ⟨t₀, hsw, -, harr, hhash⟩ := pushHash_eq t hk v
  refine valueAt_of_hashGet harr hs fun hk' => ?_
  have hnew₀ : hk ∉ t₀.hashKeys := fun hm => hnew (hsw.sublist.subset hm)
  rw [hashGet_push hnew₀ hhash (hn.sublist hsw.sublist), hsw.hashGet hn]

/-- Appending a key keeps the hash part sound for `n` when the key is no integer from 1 to `n`
and no float other than its own key. -/
theorem HashSound.pushHash (hs : t.HashSound n) (hnew : hk ∉ t.hashKeys)
    (hint : ∀ m : Int64, hk = .int m → ¬(1 ≤ m.toInt ∧ m.toInt ≤ n))
    (hfl : ∀ bits, hk = .float bits → Key.FloatKey bits) : (t.pushHash hk v).HashSound n := by
  obtain ⟨t₀, hsw, -, -, hhash⟩ := pushHash_eq t hk v
  have hs₀ := hs.of_sublist hsw.sublist
  have hnew₀ : hk ∉ t₀.hashKeys := fun hm => hnew (hsw.sublist.subset hm)
  have hkeys := hashKeys_push hhash
  refine ⟨hashKeys_push_nodup hnew₀ hhash hs₀.nodup, fun m hm => ?_, fun bits hb => ?_⟩
  · rw [hkeys, List.mem_append, List.mem_singleton] at hm
    rcases hm with hm | hm
    · exact hs₀.int_out m hm
    · exact hint m hm.symm
  · rw [hkeys, List.mem_append, List.mem_singleton] at hb
    rcases hb with hb | hb
    · exact hs₀.float_key bits hb
    · exact hfl bits hb.symm

/-! ## The five things a write does -/

/-- The key one past the array part is not in a normal hash part. -/
theorem Normal.int_not_mem (hN : t.Normal) {m : Int64} (hm : m.toInt = t.array.size + 1) :
    Key.int m ∉ t.hashKeys :=
  fun hmem => hN.int_out m hmem ⟨by omega, by omega⟩

/-- A write that stays in the hash part overwrites the key's slot, or, when the key has none,
changes nothing for nil and appends the key otherwise. -/
theorem hash_write_cases {w : Table}
    (hw : (match t.hashSlot? hk with
      | some j => { t with hash := t.hash.set! j (hk, v) }
      | none => if v.isNil then t else t.pushHash hk v) = w) :
    (∃ j, t.hashSlot? hk = some j ∧ w = { t with hash := t.hash.set! j (hk, v) }) ∨
    (hk ∉ t.hashKeys ∧ v.isNil = true ∧ w = t) ∨
    (hk ∉ t.hashKeys ∧ v.isNil = false ∧ w = t.pushHash hk v) := by
  split at hw
  · rename_i j hj
    exact .inl ⟨j, hj, hw.symm⟩
  · rename_i hj
    have hnew := hashSlot?_eq_none_iff.mp hj
    split at hw
    · exact .inr (.inl ⟨hnew, ‹_›, hw.symm⟩)
    · rename_i hv
      exact .inr (.inr ⟨hnew, Bool.eq_false_iff.mpr hv, hw.symm⟩)

/-- What a write does to a normal table: overwrite an array slot, extend the array part and pull
the following keys over, overwrite a hash slot, clear a key that has no entry, or append a new
key. -/
theorem write_cases (hN : t.Normal) (h : Key.ofValue? k = some hk) :
    (∃ i, t.keySlot? hk = some i ∧ t.write k hk v = { t with array := t.array.set! i v }) ∨
    (hk = t.pastKey ∧ v.isNil = false ∧
      t.write k hk v = ({ t with array := t.array.push v } : Table).absorb t.hash.size) ∨
    (t.keySlot? hk = none ∧ ∃ j, t.hashSlot? hk = some j ∧
      t.write k hk v = { t with hash := t.hash.set! j (hk, v) }) ∨
    (t.keySlot? hk = none ∧ hk ∉ t.hashKeys ∧ v.isNil = true ∧ t.write k hk v = t) ∨
    (t.keySlot? hk = none ∧ hk ∉ t.hashKeys ∧ v.isNil = false ∧
      (∀ m : Int64, hk = .int m → m.toInt ≠ t.array.size + 1) ∧
      t.write k hk v = t.pushHash hk v) := by
  generalize hw : t.write k hk v = w
  unfold write at hw
  rw [arraySlot?_eq h] at hw
  split at hw
  · rename_i i hi
    exact .inl ⟨i, hi, hw.symm⟩
  rename_i hi
  dsimp only at hw
  -- the write extends the array part, or stays in the hash part
  obtain ⟨m, rfl, hm, hv, hw⟩ | ⟨hg, hw⟩ :
      (∃ m : Int64, hk = .int m ∧ m.toInt = t.array.size + 1 ∧ v.isNil = false ∧
        ({ t with array := t.array.push v } : Table).absorb t.hash.size = w) ∨
      ((∀ m : Int64, hk = .int m → v.isNil = false → m.toInt ≠ t.array.size + 1) ∧
        (match t.hashSlot? hk with
          | some j => { t with hash := t.hash.set! j (hk, v) }
          | none => if v.isNil then t else t.pushHash hk v) = w) := by
    split at hw
    · rename_i m
      split at hw
      · rename_i hg
        obtain ⟨hv, hm⟩ : v.isNil = false ∧ m.toInt = t.array.size + 1 := by simpa using hg
        -- a normal hash part does not hold the key past the array part
        have hnone : t.hashSlot? (.int m) = none := hashSlot?_eq_none_iff.mpr (hN.int_not_mem hm)
        simp only [hashSlot?] at hnone hw
        simp only [hnone] at hw
        exact .inl ⟨m, rfl, hm, hv, hw⟩
      · rename_i hg
        exact .inr ⟨fun m' hm' hv => by cases hm'; simpa [hv] using hg, hw⟩
    · rename_i hne
      rw [if_neg Bool.false_ne_true] at hw
      exact .inr ⟨fun m hm => absurd hm (hne m), hw⟩
  · exact .inr (.inl ⟨by rw [pastKey, ← hm, Int64.ofInt_toInt], hv, hw.symm⟩)
  · rcases hash_write_cases hw with ⟨j, hj, rfl⟩ | ⟨hnew, hv, rfl⟩ | ⟨hnew, hv, rfl⟩
    · exact .inr (.inr (.inl ⟨hi, j, hj, rfl⟩))
    · exact .inr (.inr (.inr (.inl ⟨hi, hnew, hv, rfl⟩)))
    · exact .inr (.inr (.inr (.inr ⟨hi, hnew, hv, fun m hm => hg m hm hv, rfl⟩)))

/-! ## The map law and the normal form after a write -/

theorem keySlot?_int_eq_none {m : Int64} (h : t.keySlot? (.int m) = none) :
    ¬(1 ≤ m.toInt ∧ m.toInt ≤ t.array.size) := by
  simp only [keySlot?] at h
  split at h
  · cases h
  · assumption

/-- On a normal table, writing `v` under a key gives that key the value `v` and keeps the value
of every other key. -/
theorem valueAt_write (hN : t.Normal) (hF : t.Fits) (h : Key.ofValue? k = some hk) :
    (t.write k hk v).valueAt = Function.update t.valueAt hk v := by
  rcases write_cases (v := v) hN h with ⟨i, hi, hw⟩ | ⟨rfl, -, hw⟩ | ⟨hi, j, hj, hw⟩ |
    ⟨hi, hnew, hv, hw⟩ | ⟨hi, hnew, -, -, hw⟩
  case inl => exact valueAt_setArray hi hw
  case inr.inl =>
    -- the array part grows by the written value, then pulls over the keys after it
    have hF' : t.array.size + 1 + t.hash.size < 2 ^ 63 := by unfold Fits at hF; omega
    have hs : ({ t with array := t.array.push v } : Table).HashSound (t.array.push v).size := by
      rw [Array.size_push]
      exact hN.of_hash rfl
    rw [hw, valueAt_absorb hs (Nat.le_refl _) (by simpa using hF'), valueAt_push (by omega)]
  case inr.inr.inl =>
    exact valueAt_of_hashGet (by rw [hw]) hi fun hk' => hashGet_set hj (by rw [hw]) hN.nodup
  case inr.inr.inr.inl =>
    -- a key with no entry reads nil, which is what was written
    have hnil : t.valueAt hk = v := by
      rw [valueAt_of_keySlot_none hi, hashGet_of_not_mem hnew, Value.isNil_iff.mp hv]
    rw [hw, ← hnil, Function.update_eq_self]
  case inr.inr.inr.inr =>
    rw [hw]
    exact valueAt_pushHash hN.nodup hi hnew

/-- Every write keeps a table normal. -/
theorem normal_write (hN : t.Normal) (h : Key.ofValue? k = some hk) : (t.write k hk v).Normal := by
  rcases write_cases (v := v) hN h with ⟨i, hi, hw⟩ | ⟨rfl, -, hw⟩ | ⟨hi, j, hj, hw⟩ |
    ⟨hi, hnew, hv, hw⟩ | ⟨hi, hnew, -, hne, hw⟩
  case inl =>
    have hsize : (t.array.set! i v).size = t.array.size := by simp
    rw [hw, Normal]
    show HashSound ((t.array.set! i v).size + 1) _
    rw [hsize]
    exact hN.of_hash rfl
  case inr.inl =>
    have hs : ({ t with array := t.array.push v } : Table).HashSound (t.array.push v).size := by
      rw [Array.size_push]
      exact hN.of_hash rfl
    rw [hw]
    exact absorb_normal hs (Nat.le_refl _)
  case inr.inr.inl =>
    rw [hw]
    exact hN.of_sublist (by rw [hashKeys_set hj rfl])
  case inr.inr.inr.inl => rwa [hw]
  case inr.inr.inr.inr =>
    obtain ⟨-, -, -, harr, -⟩ := pushHash_eq t hk v
    rw [hw, Normal, harr]
    -- the new key is no integer from 1 to one past the array part, and its own key if a float
    refine hN.pushHash hnew (fun m hm hin => ?_) fun bits hb => Key.floatKey_of_ofValue? (hb ▸ h)
    subst hm
    exact keySlot?_int_eq_none hi ⟨hin.1, by have := hne m rfl; omega⟩

/-- Reading after a write: the keys that normalise like the written key read `v`, and every other
key reads what it read before. -/
theorem get_write (hN : t.Normal) (hF : t.Fits) (h : Key.ofValue? k = some hk) (k' : Value) :
    (t.write k hk v).get k' = if Key.ofValue? k' = some hk then v else t.get k' := by
  rw [get_eq_valueAt, get_eq_valueAt, valueAt_write hN hF h]
  cases Key.ofValue? k' with
  | none => simp
  | some hk' => simp [Function.update_apply]

/-! ## Tables a program builds -/

theorem set_eq_ok : t.set k v = .ok t' ↔ ∃ hk, Key.ofValue? k = some hk ∧ t' = t.write k hk v := by
  unfold set
  cases Key.ofValue? k with
  | none => simp
  | some hk => simp [eq_comm]

/-- The tables built from the empty one by writes. The room reserved for the hash part may be
changed at any moment: it decides only when the dead slots are swept, so every sweep schedule
is one of these. -/
inductive Reachable : Table → Prop
  | empty : Reachable Table.empty
  | set {t t' : Table} {k v : Value} : Reachable t → t.set k v = .ok t' → Reachable t'
  | reserve {t : Table} (indexRoom entryRoom : Nat) :
      Reachable t → Reachable { t with indexRoom := indexRoom, entryRoom := entryRoom }

theorem normal_empty : Table.empty.Normal :=
  ⟨List.nodup_nil, fun _ h => by simp [hashKeys, empty] at h, fun _ h => by simp [hashKeys, empty] at h⟩

/-- Every table a program builds is normal: the invariant holds of the empty table and every
write keeps it; the reserved room does not enter it. -/
theorem Reachable.normal (ht : t.Reachable) : t.Normal := by
  induction ht with
  | empty => exact normal_empty
  | set _ hset ih =>
    obtain ⟨hk, h, rfl⟩ := set_eq_ok.mp hset
    exact normal_write ih h
  | reserve _ _ _ ih => exact ih.of_hash rfl

/-- A table is a finite map with normalised keys. Every table a program builds is normal; a write
under nil or a NaN is refused with its message; any other write succeeds, and on a table that
fits in memory every key that normalises like the written one then reads the written value, and
every other key what it read before. -/
theorem set_is_map_update (ht : t.Reachable) (k v : Value) :
    t.Normal ∧
    (k = .nil → t.set k v = .error .nilKey ∧ TableError.nilKey.message = "index is nil") ∧
    (∀ x, k = .float x → Binary64.isNaN x = true →
      t.set k v = .error .nanKey ∧ TableError.nanKey.message = "index is NaN") ∧
    (k ≠ .nil → (∀ x, k = .float x → Binary64.isNaN x = false) →
      ∃ t', t.set k v = .ok t' ∧
        (t.Fits → ∀ k', t'.get k' = if Key.ofValue? k' = Key.ofValue? k then v else t.get k')) := by
  refine ⟨ht.normal, ?_, ?_, fun hnil hnan => ?_⟩
  · rintro rfl
    exact ⟨rfl, rfl⟩
  · rintro x rfl hx
    simp [set, Key.ofValue?, hx, keyError, Value.isNil, TableError.message]
  · obtain ⟨hk, h⟩ : ∃ hk, Key.ofValue? k = some hk := by
      refine Option.ne_none_iff_exists'.mp fun hn => ?_
      rcases Key.ofValue?_eq_none_iff.mp hn with hn | ⟨x, rfl, hx⟩
      · exact hnil hn
      · simp [hnan x rfl] at hx
    refine ⟨t.write k hk v, set_eq_ok.mpr ⟨hk, h, rfl⟩, fun hF k' => ?_⟩
    rw [h]
    exact get_write ht.normal hF h k'

/-- A table built by writes that leave a dead slot, sweep it and leave another: the write of
`"z"` sweeps the dead slot of `"x"`, and the write of `1` extends the array part, moves `2` out
of the hash part and drops the dead slot of `3`, each a map update; a nil key is refused. -/
theorem set_is_map_update_sweeps_and_absorbs :
    ({ hash := #[(.int 2, .str "b"), (.str "x", .nil), (.int 3, .str "c")]
       indexRoom := 3, entryRoom := 3 } : Table).Reachable ∧
    (∃ t', ({ hash := #[(.int 2, .str "b"), (.str "x", .nil), (.int 3, .str "c")]
              indexRoom := 3, entryRoom := 3 } : Table).set (.str "z") (.str "w") = .ok t' ∧
      t'.hash.size = 3 ∧ t'.get (.str "z") = .str "w" ∧ t'.get (.str "x") = .nil ∧
      t'.get (.int 3) = .str "c") ∧
    ({ hash := #[(.int 2, .str "b"), (.int 3, .nil), (.str "z", .str "w")]
       indexRoom := 3, entryRoom := 3 } : Table).Reachable ∧
    (∃ t', ({ hash := #[(.int 2, .str "b"), (.int 3, .nil), (.str "z", .str "w")]
              indexRoom := 3, entryRoom := 3 } : Table).set (.int 1) (.str "a") = .ok t' ∧
      t'.array.size = 2 ∧ t'.get (.int 1) = .str "a" ∧ t'.get (.int 2) = .str "b" ∧
      t'.get (.int 3) = .nil ∧ t'.get (.str "z") = .str "w") ∧
    ({ hash := #[(.int 2, .str "b"), (.int 3, .nil), (.str "z", .str "w")]
       indexRoom := 3, entryRoom := 3 } : Table).set .nil (.str "a") = .error .nilKey := by
  -- the writes from the empty table: a dead slot for `"x"`, swept by `"z"`, then one for `3`
  have h₄ : ({ hash := #[(.int 2, .str "b"), (.str "x", .nil), (.int 3, .str "c")]
               indexRoom := 3, entryRoom := 3 } : Table).Reachable :=
    .set (.set (.set (.set .empty (k := .int 2) (v := .str "b") (by with_unfolding_all rfl))
      (k := .str "x") (v := .str "y") (by with_unfolding_all rfl))
      (k := .str "x") (v := .nil) (by with_unfolding_all rfl))
      (k := .int 3) (v := .str "c") (by with_unfolding_all rfl)
  have hz : ({ hash := #[(.int 2, .str "b"), (.str "x", .nil), (.int 3, .str "c")]
               indexRoom := 3, entryRoom := 3 } : Table).set (.str "z") (.str "w") =
      .ok { hash := #[(.int 2, .str "b"), (.int 3, .str "c"), (.str "z", .str "w")]
            indexRoom := 3, entryRoom := 3 } := by with_unfolding_all rfl
  have h₆ : ({ hash := #[(.int 2, .str "b"), (.int 3, .nil), (.str "z", .str "w")]
               indexRoom := 3, entryRoom := 3 } : Table).Reachable :=
    .set (.set h₄ hz) (k := .int 3) (v := .nil) (by with_unfolding_all rfl)
  have hF₄ : ({ hash := #[(.int 2, .str "b"), (.str "x", .nil), (.int 3, .str "c")]
                indexRoom := 3, entryRoom := 3 } : Table).Fits := by unfold Fits; decide
  have hF₆ : ({ hash := #[(.int 2, .str "b"), (.int 3, .nil), (.str "z", .str "w")]
                indexRoom := 3, entryRoom := 3 } : Table).Fits := by unfold Fits; decide
  refine ⟨h₄, ?_, h₆, ?_, (set_is_map_update h₆ .nil (.str "a")).2.1 rfl |>.1⟩
  · -- the sweep: `"z"` reads its value, the swept `"x"` nil, `3` what it held
    obtain ⟨t', hok, hget⟩ := (set_is_map_update h₄ (.str "z") (.str "w")).2.2.2
      (fun h => by cases h) fun _ h => by cases h
    obtain rfl := Except.ok.inj (hok.symm.trans hz)
    refine ⟨_, hz, rfl, ?_, ?_, ?_⟩
    · rw [hget hF₄, if_pos rfl]
    · rw [hget hF₄, if_neg (by decide)]
      with_unfolding_all rfl
    · rw [hget hF₄, if_neg (by decide)]
      with_unfolding_all rfl
  · -- the array part grows by `1` and `2`; the dead slot of `3` ends the move and is dropped
    obtain ⟨t', hok, hget⟩ := (set_is_map_update h₆ (.int 1) (.str "a")).2.2.2
      (fun h => by cases h) fun _ h => by cases h
    refine ⟨t', hok, ?_, ?_, ?_, ?_, ?_⟩
    · have h₇ : ({ hash := #[(.int 2, .str "b"), (.int 3, .nil), (.str "z", .str "w")]
                   indexRoom := 3, entryRoom := 3 } : Table).set (.int 1) (.str "a") =
          .ok { array := #[.str "a", .str "b"], hash := #[(.str "z", .str "w")]
                indexRoom := 3, entryRoom := 3 } := by with_unfolding_all rfl
      obtain rfl := Except.ok.inj (hok.symm.trans h₇)
      rfl
    · rw [hget hF₆, if_pos rfl]
    · rw [hget hF₆, if_neg (by decide)]
      with_unfolding_all rfl
    · rw [hget hF₆, if_neg (by decide)]
      with_unfolding_all rfl
    · rw [hget hF₆, if_neg (by decide)]
      with_unfolding_all rfl

end Table

end LuaBytecode
