import LuaBytecode.Proofs.Table.Hash
import LuaBytecode.Proofs.Number.Encoding
/-!
# Tables are finite maps with normalised keys

A table holds a value for each normalised key (`Key.ofValue?`): `Table.valueAt` reads it from
the array part for the keys `1 … n` of an array part of size `n`, and from the hash part for
every other key. `Table.get` is `valueAt` of the normalised key (`get_eq_valueAt`).

The hash part of every table a program builds is `Table.Normal`: it holds each key once, no
integer key from 1 to one past the array part, and no float key whose value is a NaN or an
integer in the 64-bit range. On a normal table each change a write can make to the two parts
is a map update of `valueAt`:

* `valueAt_setArray`: overwriting an array slot;
* `valueAt_of_hashGet`: a change of the hash part that updates one key without an array slot;
* `valueAt_push`: extending the array part by one value;
* `absorb_normal`, `valueAt_absorb`: pulling the keys after the array part over from the hash
  part keeps the normal form and every key's value.

The last needs the key just past the array part to be a 64-bit integer, which holds for tables
with fewer entries than there are positive 64-bit integers (`Table.Fits`), as every table in
memory has.
-/

namespace LuaBytecode

theorem Binary64.toInt?_of_isNaN {x : Float} (h : Binary64.isNaN x = true) :
    Binary64.toInt? x = none := by
  have he : (decode x).2.1 = 2047 := by
    simp only [isNaN, Bool.and_eq_true, beq_iff_eq] at h
    exact h.1
  simp [toInt?, isFinite, he]

theorem floatToInt64?_of_isNaN {x : Float} (h : Binary64.isNaN x = true) :
    floatToInt64? x = none := by
  simp [floatToInt64?, Binary64.toInt?_of_isNaN h]

theorem Value.isNil_iff {v : Value} : v.isNil = true ↔ v = .nil := by
  cases v <;> simp [Value.isNil]

namespace Key

/-- Only nil and NaN have no key. -/
theorem ofValue?_eq_none_iff {k : Value} :
    Key.ofValue? k = none ↔ k = .nil ∨ ∃ x, k = .float x ∧ Binary64.isNaN x = true := by
  cases k with
  | float x =>
    simp only [ofValue?, reduceCtorEq, false_or, Value.float.injEq, exists_eq_left']
    split
    · simp_all
    · split <;> simp_all
  | _ => simp [ofValue?]

/-- A float key holds the bits of a float that is neither a NaN nor an integer in the 64-bit
range: the floats that are their own key. -/
def FloatKey (bits : UInt64) : Prop :=
  (Float.ofBits bits).toBits = bits ∧ Binary64.isNaN (Float.ofBits bits) = false ∧
    floatToInt64? (Float.ofBits bits) = none

theorem floatKey_of_ofValue? {v : Value} {bits : UInt64} (h : Key.ofValue? v = some (.float bits)) :
    FloatKey bits := by
  cases v with
  | float x =>
    simp only [ofValue?] at h
    split at h
    · cases h
    · rename_i hnan
      split at h
      · cases h
      · rename_i hint
        cases h
        rw [FloatKey, Binary64.ofBits_toBits]
        simp_all
  | _ => simp [ofValue?] at h

end Key

namespace Table

variable {t t' : Table} {k k' : Value} {hk hk' : Key} {v w : Value} {i j : Nat}

/-! ## The value under a normalised key -/

/-- The array slot of a normalised key: position `n - 1` for an integer key `n` from 1 to the
size of the array part. -/
def keySlot? (t : Table) : Key → Option Nat
  | .int n => if 1 ≤ n.toInt ∧ n.toInt ≤ t.array.size then some (n.toInt - 1).toNat else none
  | _ => none

/-- The value a table holds under a normalised key. -/
def valueAt (t : Table) (hk : Key) : Value :=
  match t.keySlot? hk with
  | some i => t.array.getD i .nil
  | none => t.hashGet hk

theorem keySlot?_eq_some (h : t.keySlot? hk = some i) :
    hk = .int (Int64.ofInt (i + 1)) ∧ i < t.array.size := by
  unfold keySlot? at h
  split at h
  · rename_i n
    split at h
    · cases h
      refine ⟨?_, by omega⟩
      rw [show ((n.toInt - 1).toNat : Int) + 1 = n.toInt by omega, Int64.ofInt_toInt]
    · cases h
  · cases h

theorem keySlot?_congr (h : t'.array.size = t.array.size) : t'.keySlot? = t.keySlot? := by
  funext hk
  cases hk <;> simp [keySlot?, h]

/-- A key with an array slot is looked up there, whatever the value it stands for. -/
theorem arraySlot?_eq (h : Key.ofValue? k = some hk) : t.arraySlot? k = t.keySlot? hk := by
  cases k with
  | int n =>
    cases h
    simp [arraySlot?, intKey?, keySlot?]
  | float x =>
    simp only [Key.ofValue?] at h
    split at h
    · cases h
    · split at h <;> cases h <;> simp_all [arraySlot?, intKey?, keySlot?]
  | nil => cases h
  | _ => cases h; rfl

theorem arraySlot?_of_none (h : Key.ofValue? k = none) : t.arraySlot? k = none := by
  rcases Key.ofValue?_eq_none_iff.mp h with rfl | ⟨x, rfl, hx⟩
  · rfl
  · simp [arraySlot?, intKey?, floatToInt64?_of_isNaN hx]

/-- `get` is the value under the normalised key; nil and NaN read nil. -/
theorem get_eq_valueAt : t.get k = ((Key.ofValue? k).map t.valueAt).getD .nil := by
  cases h : Key.ofValue? k with
  | none => simp [get, arraySlot?_of_none h, h]
  | some hk =>
    show t.get k = t.valueAt hk
    unfold get
    rw [arraySlot?_eq h, h]
    rfl

/-! ## How the writes of one key change the map -/

/-- Overwriting the array slot of a key changes that key only. -/
theorem valueAt_setArray (hs : t.keySlot? hk = some i) (ht : t' = { t with array := t.array.set! i v }) :
    t'.valueAt = Function.update t.valueAt hk v := by
  subst ht
  have hi := (keySlot?_eq_some hs).2
  have hslot : ({ t with array := t.array.set! i v } : Table).keySlot? = t.keySlot? :=
    keySlot?_congr (by simp)
  funext hk'
  simp only [valueAt, hslot, Function.update_apply]
  by_cases he : hk' = hk
  · subst he
    simp [hs, hi]
  · rw [if_neg he]
    cases hs' : t.keySlot? hk' with
    | some i' =>
      have hii : i ≠ i' := fun h =>
        he (by rw [(keySlot?_eq_some hs').1, (keySlot?_eq_some hs).1, h])
      simp [hii]
    | none => rfl

/-- A change of the hash part that gives a key without an array slot the value `v` and keeps
every other key is the map update of that key. -/
theorem valueAt_of_hashGet (harr : t'.array = t.array) (hs : t.keySlot? hk = none)
    (h : ∀ hk', t'.hashGet hk' = if hk' = hk then v else t.hashGet hk') :
    t'.valueAt = Function.update t.valueAt hk v := by
  have hslot : t'.keySlot? = t.keySlot? := keySlot?_congr (by rw [harr])
  funext hk'
  simp only [valueAt, hslot, harr, Function.update_apply]
  cases hs' : t.keySlot? hk' with
  | some i' =>
    have hne : hk' ≠ hk := by rintro rfl; simp_all
    simp [hne]
  | none => exact h hk'

/-- The key just past the array part. -/
def pastKey (t : Table) : Key := .int (Int64.ofInt (t.array.size + 1))

theorem pastKey_toInt (hb : t.array.size + 1 < 2 ^ 63) :
    (Int64.ofInt (t.array.size + 1)).toInt = t.array.size + 1 :=
  Int64.toInt_ofInt_of_le (by omega) (by omega)

/-- Extending the array part by `w` gives the key just past it the value `w`. -/
theorem valueAt_push (hb : t.array.size + 1 < 2 ^ 63) :
    ({ t with array := t.array.push w } : Table).valueAt = Function.update t.valueAt t.pastKey w := by
  have hto := pastKey_toInt hb
  funext hk'
  simp only [Function.update_apply, pastKey]
  split
  · subst hk'
    have hslot : ({ t with array := t.array.push w } : Table).keySlot?
        (.int (Int64.ofInt (t.array.size + 1))) = some t.array.size := by
      simp only [keySlot?, hto, Array.size_push]
      rw [if_pos (by omega)]
      congr 1
      omega
    simp only [valueAt, hslot, Array.getD_eq_getD_getElem?, Array.getElem?_push_size,
      Option.getD_some]
  · rename_i hne
    cases hk' with
    | int m =>
      have hm : m.toInt ≠ t.array.size + 1 := fun he =>
        hne (by rw [← Int64.ofInt_toInt m, he])
      simp only [valueAt, keySlot?, Array.size_push]
      by_cases hin : 1 ≤ m.toInt ∧ m.toInt ≤ t.array.size
      · rw [if_pos ⟨hin.1, by omega⟩, if_pos hin]
        have hlt : (m.toInt - 1).toNat < t.array.size := by omega
        simp only [Array.getD_eq_getD_getElem?, Array.getElem?_push_lt hlt, Array.getElem?_eq_getElem hlt]
      · rw [if_neg (by omega), if_neg hin]
        rfl
    | _ => rfl

/-! ## The normal form of the hash part -/

/-- The hash part holds each key once, no integer key from 1 to `n`, and float keys only for the
floats that are their own key. -/
structure HashSound (n : Nat) (t : Table) : Prop where
  nodup : t.hashKeys.Nodup
  int_out : ∀ m : Int64, Key.int m ∈ t.hashKeys → ¬(1 ≤ m.toInt ∧ m.toInt ≤ n)
  float_key : ∀ bits, Key.float bits ∈ t.hashKeys → Key.FloatKey bits

/-- A table in normal form: its hash part holds each key once, no integer key from 1 to one past
its array part (those keys belong to the array part or would extend it), and no float key whose
value is a NaN or an integer in the 64-bit range (those are no keys, or integer keys). -/
def Normal (t : Table) : Prop := t.HashSound (t.array.size + 1)

/-- A table with fewer entries than there are positive 64-bit integers, as every table in
memory is: the key just past its array part is then a 64-bit integer. -/
def Fits (t : Table) : Prop := t.array.size + t.hash.size < 2 ^ 63 - 1

theorem HashSound.of_sublist {n : Nat} (hs : t.HashSound n) (h : t'.hashKeys.Sublist t.hashKeys) :
    t'.HashSound n :=
  ⟨hs.nodup.sublist h, fun m hm => hs.int_out m (h.subset hm),
    fun bits hb => hs.float_key bits (h.subset hb)⟩

theorem HashSound.of_hash {n : Nat} (hs : t.HashSound n) (h : t'.hash = t.hash) : t'.HashSound n :=
  hs.of_sublist (by rw [hashKeys_congr h])

theorem HashSound.mono {n n' : Nat} (hs : t.HashSound n) (h : n' ≤ n) : t.HashSound n' :=
  ⟨hs.nodup, fun m hm hin => hs.int_out m hm ⟨hin.1, by omega⟩, hs.float_key⟩

/-- With the key `n + 1` absent, a hash part without integer keys up to `n` has none up to
`n + 1`. -/
theorem HashSound.succ {n : Nat} (hs : t.HashSound n)
    (hK : Key.int (Int64.ofInt (n + 1)) ∉ t.hashKeys) : t.HashSound (n + 1) := by
  refine ⟨hs.nodup, fun m hm hin => ?_, hs.float_key⟩
  by_cases he : m.toInt = n + 1
  · exact hK (by rwa [← he, Int64.ofInt_toInt])
  · exact hs.int_out m hm ⟨hin.1, by omega⟩

/-- A key without an array slot keeps its value in a hash part that holds it once. -/
theorem valueAt_of_keySlot_none (hs : t.keySlot? hk = none) : t.valueAt hk = t.hashGet hk := by
  simp [valueAt, hs]

theorem hashGet_eq_nil (hs : t.hashSlot? hk = none) : t.hashGet hk = .nil :=
  hashGet_of_not_mem (hashSlot?_eq_none_iff.mp hs)

/-! ## Pulling the following keys over from the hash part -/

theorem keySlot?_pastKey (hb : t.array.size + 1 < 2 ^ 63) : t.keySlot? t.pastKey = none := by
  simp only [pastKey, keySlot?, pastKey_toInt hb]
  rw [if_neg (by omega)]

theorem absorb_of_none {fuel : Nat} (hj : t.hashSlot? t.pastKey = none) : t.absorb (fuel + 1) = t := by
  simp only [pastKey] at hj
  simp only [absorb, hj]

theorem absorb_of_slot {fuel : Nat} (hj : t.hashSlot? t.pastKey = some j) :
    t.absorb (fuel + 1) =
      if (t.hash.getD j default).2.isNil then { t with hash := t.hash.eraseIdxIfInBounds j }
      else Table.absorb
        { t with hash := t.hash.eraseIdxIfInBounds j, array := t.array.push (t.hash.getD j default).2 }
        fuel := by
  simp only [pastKey] at hj
  simp only [absorb, hj]

theorem size_erase (hj : t.hashSlot? hk = some j) :
    (t.hash.eraseIdxIfInBounds j).size = t.hash.size - 1 := by
  obtain ⟨hlt, -, -⟩ := hashSlot?_eq_some_iff.mp hj
  rw [← Array.length_toList, Array.toList_eraseIdxIfInBounds, List.length_eraseIdx_of_lt (by simpa using hlt)]
  simp

/-- Pulling keys over keeps the hash part normal: the loop stops at a key past the array part
that the hash part does not hold, removes it when it holds nil, or moves it and goes on. The
induction is on the fuel, which bounds the size of the hash part. -/
theorem absorb_normal {fuel : Nat} (hs : t.HashSound t.array.size) (hfuel : t.hash.size ≤ fuel) :
    (t.absorb fuel).Normal := by
  induction fuel generalizing t with
  | zero =>
    have hnil : t.hashKeys = [] := by
      simpa [hashKeys, Array.size_eq_zero_iff] using hfuel
    simp only [absorb]
    exact ⟨by simp [hnil], by simp [hnil], by simp [hnil]⟩
  | succ fuel ih =>
    cases hj : t.hashSlot? t.pastKey with
    | none =>
      rw [absorb_of_none hj]
      exact hs.succ (hashSlot?_eq_none_iff.mp hj)
    | some j =>
      rw [absorb_of_slot hj]
      let te : Table := { t with hash := t.hash.eraseIdxIfInBounds j }
      have hsub : te.hashKeys.Sublist t.hashKeys := hashKeys_erase_sublist rfl
      -- the erased slot was the only one holding the key past the array part
      have hgone : t.pastKey ∉ te.hashKeys := fun hm => by
        obtain ⟨w, hw⟩ := mem_hashKeys.mp hm
        exact ((mem_erase hj rfl hs.nodup).mp hw).2 rfl
      split
      · exact (hs.of_sublist hsub).succ hgone
      · refine ih ?_ ?_
        · rw [Array.size_push]
          exact ((hs.of_sublist hsub).succ hgone).of_hash rfl
        · simp only [size_erase hj]
          omega

/-- Pulling keys over keeps the value of every key: a moved key reads the same value from the
array part, and a removed key held nil. -/
theorem valueAt_absorb {fuel : Nat} (hs : t.HashSound t.array.size) (hfuel : t.hash.size ≤ fuel)
    (hb : t.array.size + t.hash.size < 2 ^ 63) : (t.absorb fuel).valueAt = t.valueAt := by
  induction fuel generalizing t with
  | zero => rfl
  | succ fuel ih =>
    cases hj : t.hashSlot? t.pastKey with
    | none => rw [absorb_of_none hj]
    | some j =>
      rw [absorb_of_slot hj]
      have hpos : 0 < t.hash.size := Nat.lt_of_le_of_lt (Nat.zero_le j) (hashSlot?_eq_some_iff.mp hj).1
      have hb' : t.array.size + 1 < 2 ^ 63 := by omega
      let te : Table := { t with hash := t.hash.eraseIdxIfInBounds j }
      -- the key past the array part reads nil once its slot is removed
      have hte : te.valueAt = Function.update t.valueAt t.pastKey .nil :=
        valueAt_of_hashGet rfl (keySlot?_pastKey hb') fun _ => hashGet_erase hj rfl hs.nodup
      have hw : t.valueAt t.pastKey = (t.hash.getD j default).2 := by
        rw [valueAt_of_keySlot_none (keySlot?_pastKey hb'), hashGet_of_slot hj]
      split
      · rename_i hnil
        rw [hte, Function.update_eq_self_iff, hw]
        exact (Value.isNil_iff.mp hnil).symm
      · have hsub : te.hashKeys.Sublist t.hashKeys := hashKeys_erase_sublist rfl
        have hgone : t.pastKey ∉ te.hashKeys := fun hm => by
          obtain ⟨w, hw⟩ := mem_hashKeys.mp hm
          exact ((mem_erase hj rfl hs.nodup).mp hw).2 rfl
        have hsize := size_erase (t := t) hj
        rw [ih ?_ (by simp only [hsize]; omega) (by simp only [Array.size_push, hsize]; omega)]
        swap
        · rw [Array.size_push]
          exact ((hs.of_sublist hsub).succ hgone).of_hash rfl
        -- the moved key reads from the array part what it held in the hash part
        have hpush : ({ te with array := t.array.push (t.hash.getD j default).2 } : Table).valueAt =
            Function.update te.valueAt t.pastKey (t.hash.getD j default).2 := valueAt_push (t := te) hb'
        rw [hpush, hte, Function.update_idem, ← hw, Function.update_eq_self]

end Table

end LuaBytecode
