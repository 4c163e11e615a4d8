import LuaBytecode.Proofs.Table.Write
/-!
# The slots a traversal walks

`Table.next` walks the slots of a table in one order: the array part by position, then the hash
part by slot, dead slots included. Laid out as one list (`Table.slots`), every call of `next`
reports the first live slot after a position:

* `next_nil`: from nil, the first live slot of all;
* `next_slot`: from the key of slot `q`, the first live slot after `q`, on a normal table;
* `entries_eq`: the live slots, in order, are `Table.entries`;
* `get_slot`, `slotKeys_nodup`, `mem_liveKeys`: on a normal table each slot holds a distinct
  normalised key and its value, and the live slots hold exactly the keys with a non-nil value.

The keys of the slots depend only on the size of the array part and the keys of the hash part
(`slotKeys_congr`), which a write to a key that has a slot does not change (`write_layout`).
-/

namespace LuaBytecode

namespace Key

/-- The value a traversal reports for a key is that key, for every key but the floats that are
not their own key. -/
theorem ofValue?_toValue {hk : Key} (h : ∀ bits, hk = .float bits → FloatKey bits) :
    Key.ofValue? hk.toValue = some hk := by
  cases hk with
  | float bits =>
    obtain ⟨hbits, hnan, hint⟩ := h bits rfl
    simp [toValue, ofValue?, hnan, hint, hbits]
  | _ => rfl

theorem toValue_isNil (hk : Key) : hk.toValue.isNil = false := by
  cases hk <;> rfl

end Key

namespace Table

variable {t t' : Table} {k : Value} {hk : Key} {v : Value} {p q : Nat}

/-- A slot is live when its value is not nil. -/
def live (e : Key × Value) : Bool := !e.2.isNil

theorem live_iff {e : Key × Value} : live e = true ↔ e.2 ≠ .nil := by
  obtain ⟨k, v⟩ := e
  cases v <;> simp [live, Value.isNil]

/-- What a traversal reports for a slot: the key as a value, and the value. -/
def report (e : Key × Value) : Value × Value := (e.1.toValue, e.2)

/-- The array part as slots: position `j` holds the key `j + 1`. -/
def arraySlots (t : Table) : List (Key × Value) :=
  (List.range t.array.size).map fun j : Nat => (.int (Int64.ofInt (j + 1)), t.array.getD j .nil)

/-- Every slot in traversal order: the array part, then the hash part with its dead slots. -/
def slots (t : Table) : List (Key × Value) := t.arraySlots ++ t.hash.toList

/-- The keys of the slots. -/
def slotKeys (t : Table) : List Key := t.slots.map Prod.fst

/-- What a traversal reports from position `p` of the slots: the first live slot there or
after. -/
def reportFrom (t : Table) (p : Nat) : Option (Value × Value) :=
  ((t.slots.drop p).find? live).map report

@[simp] theorem length_arraySlots : t.arraySlots.length = t.array.size := by
  simp [arraySlots]

theorem length_slots : t.slots.length = t.array.size + t.hash.size := by
  simp [slots]

theorem getElem_arraySlots (h : q < t.arraySlots.length) :
    t.arraySlots[q] = (.int (Int64.ofInt (q + 1)), t.array.getD q .nil) := by
  simp [arraySlots]

theorem slotKeys_eq :
    t.slotKeys = (List.range t.array.size).map (fun j : Nat => .int (Int64.ofInt (j + 1))) ++ t.hashKeys := by
  simp [slotKeys, slots, arraySlots, hashKeys, Function.comp_def]

/-- The keys of the slots are fixed by the size of the array part and the keys of the hash
part. -/
theorem slotKeys_congr (ha : t'.array.size = t.array.size) (hh : t'.hashKeys = t.hashKeys) :
    t'.slotKeys = t.slotKeys := by
  rw [slotKeys_eq, slotKeys_eq, ha, hh]

/-! ## `next` reports the first live slot after a position -/

theorem arrayFrom_eq (i : Nat) : t.arrayFrom i = ((t.arraySlots.drop i).find? live).map report := by
  fun_induction t.arrayFrom i with
  | case1 i h v hnil ih =>
    have hi : i < t.arraySlots.length := by simpa using h
    rw [ih, List.drop_eq_getElem_cons (i := i) hi, getElem_arraySlots, List.find?_cons]
    simp [live, v, Array.getD_eq_getD_getElem?, h, hnil]
  | case2 i h v hnil =>
    have hi : i < t.arraySlots.length := by simpa using h
    rw [List.drop_eq_getElem_cons hi, getElem_arraySlots, List.find?_cons]
    simp [live, report, Key.toValue, v, Array.getD_eq_getD_getElem?, h, hnil]
  | case3 i h =>
    rw [List.drop_eq_nil_of_le (by simpa using h)]
    rfl

theorem hashFrom_eq (j : Nat) : t.hashFrom j = ((t.hash.toList.drop j).find? live).map report := by
  fun_induction t.hashFrom j with
  | case1 j h e hnil ih =>
    rw [ih, List.drop_eq_getElem_cons (i := j) (by simpa using h), List.find?_cons]
    simp [live, e, hnil]
  | case2 j h e hnil =>
    rw [List.drop_eq_getElem_cons (by simpa using h), List.find?_cons]
    simp [live, report, e, hnil]
  | case3 j h =>
    rw [List.drop_eq_nil_of_le (by simpa using h)]
    rfl

/-- From a position in the array part, the traversal goes on in the array part and then in the
hash part. -/
theorem reportFrom_of_le (hp : p ≤ t.array.size) :
    t.reportFrom p = (t.arrayFrom p).or (t.hashFrom 0) := by
  rw [reportFrom, slots, List.drop_append_of_le_length (by simpa using hp), List.find?_append,
    arrayFrom_eq, hashFrom_eq, List.drop_zero]
  cases (t.arraySlots.drop p).find? live <;> rfl

/-- From a position in the hash part, the traversal goes on in the hash part. -/
theorem reportFrom_hash (j : Nat) : t.reportFrom (t.array.size + j) = t.hashFrom j := by
  rw [reportFrom, slots, hashFrom_eq, List.drop_append, List.drop_eq_nil_of_le (by simp)]
  simp

/-- What `reportFrom` finds: a live slot at or after the position, with only dead slots between. -/
theorem reportFrom_eq_some {r : Value × Value} (h : t.reportFrom p = some r) :
    ∃ q, p ≤ q ∧ ∃ hq : q < t.slots.length, report t.slots[q] = r ∧ t.slots[q].2 ≠ .nil ∧
      ∀ q' (hq' : q' < q), p ≤ q' → t.slots[q'].2 = .nil := by
  obtain ⟨e, hfind, rfl⟩ := Option.map_eq_some_iff.mp h
  obtain ⟨hlive, i, hi, he, hbefore⟩ := List.find?_eq_some_iff_getElem.mp hfind
  have hq : p + i < t.slots.length := by simp only [List.length_drop] at hi; omega
  refine ⟨p + i, by omega, hq, by rw [← he, List.getElem_drop], ?_, fun q' hq' hp => ?_⟩
  · rw [← he, List.getElem_drop] at hlive
    exact live_iff.mp hlive
  · have hdead := hbefore (q' - p) (by omega)
    simp only [List.getElem_drop, Nat.add_sub_cancel' hp, Bool.not_eq_eq_eq_not, Bool.not_true] at hdead
    by_contra hne
    rw [live_iff.mpr hne] at hdead
    cases hdead

/-- When `reportFrom` finds nothing, every slot there or after is dead. -/
theorem reportFrom_eq_none (h : t.reportFrom p = none) (q : Nat) (hq : q < t.slots.length)
    (hp : p ≤ q) : t.slots[q].2 = .nil := by
  have hnone := List.find?_eq_none.mp (Option.map_eq_none_iff.mp h)
  obtain ⟨i, rfl⟩ : ∃ i, q = p + i := ⟨q - p, by omega⟩
  have hmem : t.slots[p + i] ∈ t.slots.drop p := by
    have hi : i < (t.slots.drop p).length := by simp only [List.length_drop]; omega
    simpa only [List.getElem_drop] using List.getElem_mem hi
  by_contra hne
  exact hnone _ hmem (live_iff.mpr hne)

/-- From nil, `next` reports the first live slot. -/
theorem next_nil : t.next .nil = .ok (t.reportFrom 0) := by
  rw [reportFrom_of_le (Nat.zero_le _)]
  simp only [next, Value.isNil, if_true]
  cases t.arrayFrom 0 <;> rfl

theorem keySlot?_arrayKey (hF : t.Fits) {i : Nat} (hi : i < t.array.size) :
    t.keySlot? (.int (Int64.ofInt (i + 1))) = some i := by
  have hto : (Int64.ofInt (i + 1)).toInt = i + 1 :=
    Int64.toInt_ofInt_of_le (by omega) (by unfold Fits at hF; omega)
  simp only [keySlot?, hto]
  rw [if_pos ⟨by omega, by omega⟩]
  congr 1
  omega

/-- A key of a sound hash part has no array slot. -/
theorem keySlot?_of_mem {n : Nat} (hs : t.HashSound n) (hn : t.array.size ≤ n)
    (hm : hk ∈ t.hashKeys) : t.keySlot? hk = none := by
  cases hk with
  | int m =>
    have hout := hs.int_out m hm
    simp only [keySlot?]
    rw [if_neg fun hin => hout ⟨hin.1, by omega⟩]
  | _ => rfl

theorem getElem_mem_hashKeys {j : Nat} (hj : j < t.hash.size) : t.hash[j].1 ∈ t.hashKeys :=
  mem_hashKeys.mpr ⟨t.hash[j].2, by simp⟩

theorem ofValue?_hashKey (hN : t.Normal) (hm : hk ∈ t.hashKeys) : Key.ofValue? hk.toValue = some hk :=
  Key.ofValue?_toValue fun bits h => hN.float_key bits (h ▸ hm)

/-- From the key of array position `i`, `next` reports the first live slot after it. -/
theorem next_arrayKey (hF : t.Fits) {i : Nat} (hi : i < t.array.size) :
    t.next (.int (Int64.ofInt (i + 1))) = .ok (t.reportFrom (i + 1)) := by
  have hslot : t.arraySlot? (.int (Int64.ofInt (i + 1))) = some i := by
    rw [arraySlot?_eq rfl, keySlot?_arrayKey hF hi]
  rw [reportFrom_of_le (by omega)]
  simp only [next, Value.isNil, hslot, Bool.false_eq_true, if_false]
  cases t.arrayFrom (i + 1) <;> rfl

/-- From the key of hash slot `j`, `next` reports the first live slot after it: the key finds
its slot again, live or dead. -/
theorem next_hashKey (hN : t.Normal) {j : Nat} (hj : j < t.hash.size) :
    t.next t.hash[j].1.toValue = .ok (t.reportFrom (t.array.size + (j + 1))) := by
  have hm := getElem_mem_hashKeys hj
  have hkey := ofValue?_hashKey hN hm
  have hslot : t.arraySlot? t.hash[j].1.toValue = none := by
    rw [arraySlot?_eq hkey, keySlot?_of_mem hN (Nat.le_succ _) hm]
  rw [reportFrom_hash]
  simp only [next, Key.toValue_isNil, hslot, hkey, hashSlot?_getElem hN.nodup hj,
    Bool.false_eq_true, if_false]

theorem getElem_slots_of_lt (hq : q < t.array.size) {h : q < t.slots.length} :
    t.slots[q] = (.int (Int64.ofInt (q + 1)), t.array.getD q .nil) := by
  simp only [slots]
  rw [List.getElem_append_left (by simpa using hq), getElem_arraySlots]

theorem getElem_slots_of_le (hq : t.array.size ≤ q) {h : q < t.slots.length} :
    ∃ hj : q - t.array.size < t.hash.size, t.slots[q] = t.hash[q - t.array.size] := by
  refine ⟨by rw [length_slots] at h; omega, ?_⟩
  simp only [slots]
  rw [List.getElem_append_right (by simpa using hq)]
  simp

/-- From the key of any slot, `next` reports the first live slot after it. -/
theorem next_slot (hN : t.Normal) (hF : t.Fits) (hq : q < t.slots.length) :
    t.next t.slots[q].1.toValue = .ok (t.reportFrom (q + 1)) := by
  by_cases ha : q < t.array.size
  · rw [getElem_slots_of_lt ha]
    exact next_arrayKey hF ha
  · obtain ⟨hj, he⟩ := getElem_slots_of_le (h := hq) (by omega)
    rw [he, next_hashKey hN hj]
    congr 2
    omega

/-! ## What the slots hold -/

/-- The key of a slot is its own normalised key. -/
theorem ofValue?_slot (hN : t.Normal) (hq : q < t.slots.length) :
    Key.ofValue? t.slots[q].1.toValue = some t.slots[q].1 := by
  by_cases ha : q < t.array.size
  · rw [getElem_slots_of_lt ha]
    rfl
  · obtain ⟨hj, he⟩ := getElem_slots_of_le (h := hq) (by omega)
    rw [he]
    exact ofValue?_hashKey hN (getElem_mem_hashKeys hj)

/-- A slot holds the value of its key. -/
theorem valueAt_slot (hN : t.Normal) (hF : t.Fits) (hq : q < t.slots.length) :
    t.valueAt t.slots[q].1 = t.slots[q].2 := by
  by_cases ha : q < t.array.size
  · rw [getElem_slots_of_lt ha]
    simp only [valueAt, keySlot?_arrayKey hF ha]
  · obtain ⟨hj, he⟩ := getElem_slots_of_le (h := hq) (by omega)
    have hm := getElem_mem_hashKeys hj
    rw [he, valueAt_of_keySlot_none (keySlot?_of_mem hN (Nat.le_succ _) hm),
      hashGet_of_mem (v := t.hash[q - t.array.size].2) hN.nodup (by simp)]

theorem get_slot (hN : t.Normal) (hF : t.Fits) (hq : q < t.slots.length) :
    t.get t.slots[q].1.toValue = t.slots[q].2 := by
  rw [get_eq_valueAt, ofValue?_slot hN hq, Option.map_some, Option.getD_some, valueAt_slot hN hF hq]

/-- The keys `1 … n` of an array part of size `n` are told apart, below `2 ^ 63`. -/
theorem arrayKey_inj (hF : t.Fits) {i j : Nat} (hi : i < t.array.size) (hj : j < t.array.size)
    (h : Int64.ofInt (i + 1) = Int64.ofInt (j + 1)) : i = j := by
  have hti : (Int64.ofInt (i + 1)).toInt = i + 1 :=
    Int64.toInt_ofInt_of_le (by omega) (by unfold Fits at hF; omega)
  have htj : (Int64.ofInt (j + 1)).toInt = j + 1 :=
    Int64.toInt_ofInt_of_le (by omega) (by unfold Fits at hF; omega)
  have := congrArg Int64.toInt h
  omega

theorem mem_slotKeys : hk ∈ t.slotKeys ↔
    (∃ i < t.array.size, hk = .int (Int64.ofInt (i + 1))) ∨ hk ∈ t.hashKeys := by
  simp [slotKeys_eq, eq_comm]

/-- A key that has a slot has an array slot, or is a key of the hash part. -/
theorem keySlot?_of_mem_slotKeys (hF : t.Fits) (hm : hk ∈ t.slotKeys) :
    (∃ i, t.keySlot? hk = some i) ∨ hk ∈ t.hashKeys := by
  rcases mem_slotKeys.mp hm with ⟨i, hi, rfl⟩ | hm
  · exact .inl ⟨i, keySlot?_arrayKey hF hi⟩
  · exact .inr hm

/-- On a normal table the slots hold distinct keys: the array keys are distinct integers from 1
to the size of the array part, the hash keys are distinct and none of those integers. -/
theorem slotKeys_nodup (hN : t.Normal) (hF : t.Fits) : t.slotKeys.Nodup := by
  rw [slotKeys_eq, List.nodup_append]
  refine ⟨List.Nodup.map_on (fun i hi j hj h => ?_) List.nodup_range, hN.nodup, ?_⟩
  · simp only [List.mem_range] at hi hj
    exact arrayKey_inj hF hi hj (Key.int.inj h)
  · simp only [List.mem_map, List.mem_range]
    rintro _ ⟨i, hi, rfl⟩ b hb rfl
    have hti : (Int64.ofInt (i + 1)).toInt = i + 1 :=
      Int64.toInt_ofInt_of_le (by omega) (by unfold Fits at hF; omega)
    exact hN.int_out _ hb ⟨by omega, by omega⟩

/-! ## The live slots are the entries -/

/-- The keys of the live slots. -/
def liveKeys (t : Table) : List Key := (t.slots.filter live).map Prod.fst

theorem filterMap_report (l : List (Key × Value)) :
    l.filterMap (fun e => if e.2.isNil then none else some (report e)) =
      (l.filter live).map report := by
  induction l with
  | nil => rfl
  | cons e l ih =>
    by_cases h : e.2.isNil <;> simp [h, ih, live]

/-- The entries of a table are its live slots, in traversal order. -/
theorem entries_eq : t.entries = (t.slots.filter live).map report := by
  rw [slots, List.filter_append, List.map_append, ← filterMap_report, ← filterMap_report,
    arraySlots, List.filterMap_map]
  rfl

theorem mem_liveKeys_of {e : Key × Value} (he : e ∈ t.slots) (hl : e.2 ≠ .nil) :
    e.1 ∈ t.liveKeys :=
  List.mem_map_of_mem (List.mem_filter.mpr ⟨he, live_iff.mpr hl⟩)

/-- The live slots hold exactly the keys with a value. -/
theorem mem_liveKeys (hN : t.Normal) (hF : t.Fits) : hk ∈ t.liveKeys ↔ t.valueAt hk ≠ .nil := by
  constructor
  · intro hm
    obtain ⟨e, he, rfl⟩ := List.mem_map.mp hm
    obtain ⟨he, hl⟩ := List.mem_filter.mp he
    obtain ⟨q, hq, rfl⟩ := List.mem_iff_getElem.mp he
    rw [valueAt_slot hN hF hq]
    exact live_iff.mp hl
  · intro hv
    cases hs : t.keySlot? hk with
    | some i =>
      -- an array key: its slot is its array position
      obtain ⟨rfl, hi⟩ := keySlot?_eq_some hs
      have hq : i < t.slots.length := by rw [length_slots]; omega
      have he : t.slots[i] = (.int (Int64.ofInt (i + 1)), t.array.getD i .nil) :=
        getElem_slots_of_lt hi
      have hval : t.valueAt (.int (Int64.ofInt (i + 1))) = t.array.getD i .nil := by
        simp only [valueAt, hs]
      have hmem := mem_liveKeys_of (List.getElem_mem hq) (by rw [he]; rwa [← hval])
      rwa [he] at hmem
    | none =>
      -- a hash key: it has a hash slot, since its value is not nil
      rw [valueAt_of_keySlot_none hs] at hv
      cases hj : t.hashSlot? hk with
      | none => exact absurd (hashGet_eq_nil hj) hv
      | some j =>
        obtain ⟨hj', hkey, -⟩ := hashSlot?_eq_some_iff.mp hj
        have hmem : t.hash[j] ∈ t.slots := List.mem_append_right _ (by simp)
        have hval : t.hash[j].2 = t.hashGet hk := by
          rw [hashGet_of_slot hj, Array.getD_eq_getD_getElem?, Array.getElem?_eq_getElem hj']
          rfl
        rw [← hkey]
        exact mem_liveKeys_of hmem (by rwa [hval])

/-! ## Writes to keys that have a slot keep the slots -/

/-- A write to a key that has a slot overwrites that slot: the size of the array part and the
keys of the hash part stay as they are. -/
theorem write_layout (hN : t.Normal) (hF : t.Fits) (h : Key.ofValue? k = some hk)
    (hm : hk ∈ t.slotKeys) :
    (t.write k hk v).array.size = t.array.size ∧ (t.write k hk v).hashKeys = t.hashKeys := by
  have hslot := keySlot?_of_mem_slotKeys hF hm
  rcases write_cases (v := v) hN h with ⟨i, -, hw⟩ | ⟨rfl, -, -⟩ | ⟨-, j, hj, hw⟩ |
    ⟨hi, hnew, -, -⟩ | ⟨hi, hnew, -, -, -⟩
  · rw [hw]
    exact ⟨by simp, hashKeys_congr rfl⟩
  · -- the key past the array part has no slot
    have hb : t.array.size + 1 < 2 ^ 63 := by unfold Fits at hF; omega
    rcases hslot with ⟨i, hi⟩ | hmem
    · rw [keySlot?_pastKey hb] at hi
      cases hi
    · exact absurd hmem (hN.int_not_mem (pastKey_toInt hb))
  · rw [hw]
    exact ⟨rfl, hashKeys_set hj rfl⟩
  all_goals
    rcases hslot with ⟨i, hs⟩ | hmem
    · rw [hi] at hs
      cases hs
    · exact absurd hmem hnew

end Table

end LuaBytecode
