import LuaBytecode.Table.Basic
import Mathlib
/-!
# The hash part of a table as a keyed list

The hash part of a table is a list of entries in insertion order, and `Table.hashGet` reads the
value of the first entry holding a key. While each key is held at most once (`hashKeys` has no
duplicates, which every table a program builds keeps), the value of a key is simply the value
of the entry holding it (`hashGet_of_mem`), nil when none does (`hashGet_of_not_mem`), and so is
read off membership in the list.

The writes of `Table.write` change the hash part in four ways, each with its lemma on the value
of every key and on the keys staying distinct:

* `hashGet_set`: a slot found for a key is overwritten; that key reads the new value;
* `hashGet_erase`: a slot found for a key is removed; that key reads nil;
* `hashGet_push`: a new key is appended; it reads its value;
* `hashGet_sweep`: the slots holding nil are dropped; no key reads differently.
-/

namespace LuaBytecode

namespace Table

variable {t t' : Table} {k k' : Key} {v w : Value} {j : Nat}

/-- The keys of the hash part, in slot order. -/
def hashKeys (t : Table) : List Key := t.hash.toList.map Prod.fst

theorem mem_hashKeys : k ∈ t.hashKeys ↔ ∃ v, (k, v) ∈ t.hash.toList := by
  simp [hashKeys]

theorem hashKeys_congr (h : t'.hash = t.hash) : t'.hashKeys = t.hashKeys := by
  simp [hashKeys, h]

theorem hashGet_congr (h : t'.hash = t.hash) : t'.hashGet = t.hashGet := by
  funext k
  simp [hashGet, hashSlot?, h]

/-- The slot of a key is the first one holding it. -/
theorem hashSlot?_eq_some_iff : t.hashSlot? k = some j ↔
    ∃ h : j < t.hash.size, t.hash[j].1 = k ∧ ∀ i (hi : i < j), t.hash[i].1 ≠ k := by
  simp [hashSlot?, Array.findIdx?_eq_some_iff_getElem]

theorem hashSlot?_eq_none_iff : t.hashSlot? k = none ↔ k ∉ t.hashKeys := by
  simp only [hashSlot?, Array.findIdx?_eq_none_iff, beq_eq_false_iff_ne, mem_hashKeys, not_exists]
  constructor
  · intro h w hw
    exact h (k, w) (Array.mem_def.mpr hw) rfl
  · rintro h ⟨k', w⟩ hw rfl
    exact h w (Array.mem_def.mp hw)

theorem hashGet_of_slot (h : t.hashSlot? k = some j) : t.hashGet k = (t.hash.getD j default).2 := by
  simp [hashGet, h]

theorem hashGet_of_not_mem (h : k ∉ t.hashKeys) : t.hashGet k = .nil := by
  simp [hashGet, hashSlot?_eq_none_iff.mpr h]

/-- While each key is held once, an entry's key has that entry's slot. -/
theorem hashSlot?_getElem (hn : t.hashKeys.Nodup) (h : j < t.hash.size) :
    t.hashSlot? t.hash[j].1 = some j := by
  refine hashSlot?_eq_some_iff.mpr ⟨h, rfl, fun i hi he => ?_⟩
  have hl : t.hashKeys.length = t.hash.size := by simp [hashKeys]
  have hi' : i < t.hashKeys.length := by omega
  have hj' : j < t.hashKeys.length := by omega
  have hkeys : t.hashKeys[i] = t.hashKeys[j] := by
    simpa [hashKeys] using he
  have := (List.Nodup.getElem_inj_iff hn).mp hkeys
  omega

/-- While each key is held once, the value of a key is the value of the entry holding it. -/
theorem hashGet_of_mem (hn : t.hashKeys.Nodup) (h : (k, v) ∈ t.hash.toList) : t.hashGet k = v := by
  obtain ⟨j, hj, he⟩ := List.mem_iff_getElem.mp h
  have hj' : j < t.hash.size := by simpa using hj
  have he' : t.hash[j] = (k, v) := by simpa using he
  rw [hashGet_of_slot (by simpa [he'] using hashSlot?_getElem hn hj'), Array.getD_eq_getD_getElem?,
    Array.getElem?_eq_getElem hj', he']
  rfl

/-- Two tables whose hash parts hold each key once and the same entries for a key give it the
same value. -/
theorem hashGet_eq_of_mem_iff (hn : t.hashKeys.Nodup) (hn' : t'.hashKeys.Nodup)
    (h : ∀ w, (k, w) ∈ t'.hash.toList ↔ (k, w) ∈ t.hash.toList) : t'.hashGet k = t.hashGet k := by
  by_cases hk : k ∈ t.hashKeys
  · obtain ⟨w, hw⟩ := mem_hashKeys.mp hk
    rw [hashGet_of_mem hn hw, hashGet_of_mem hn' ((h w).mpr hw)]
  · have hk' : k ∉ t'.hashKeys := fun hm => by
      obtain ⟨w, hw⟩ := mem_hashKeys.mp hm
      exact hk (mem_hashKeys.mpr ⟨w, (h w).mp hw⟩)
    rw [hashGet_of_not_mem hk, hashGet_of_not_mem hk']

/-! ## Overwriting a slot -/

section Set

variable (hj : t.hashSlot? k = some j) (ht : t'.hash = t.hash.set! j (k, v))
include hj ht

theorem hashKeys_set : t'.hashKeys = t.hashKeys := by
  obtain ⟨hlt, hk, -⟩ := hashSlot?_eq_some_iff.mp hj
  have hlt' : j < (t.hash.toList.map Prod.fst).length := by simpa using hlt
  have hkj : (t.hash.toList.map Prod.fst)[j] = k := by simpa using hk
  simp only [hashKeys, ht, Array.set!_eq_setIfInBounds, Array.toList_setIfInBounds, List.map_set]
  rw [← hkj]
  exact List.set_getElem_self _

theorem mem_set_of_ne (hne : k' ≠ k) : (k', w) ∈ t'.hash.toList ↔ (k', w) ∈ t.hash.toList := by
  obtain ⟨hlt, hk, -⟩ := hashSlot?_eq_some_iff.mp hj
  simp only [ht, Array.set!_eq_setIfInBounds, Array.toList_setIfInBounds, List.mem_iff_getElem,
    List.length_set, List.getElem_set]
  constructor
  · rintro ⟨i, hi, he⟩
    split at he
    · cases he; exact absurd rfl hne
    · exact ⟨i, hi, he⟩
  · rintro ⟨i, hi, he⟩
    refine ⟨i, hi, ?_⟩
    rw [if_neg]
    · exact he
    · rintro rfl
      exact hne (by rw [← hk]; simpa using (congrArg Prod.fst he).symm)

/-- Overwriting the slot of a key gives that key the new value and no other key another. -/
theorem hashGet_set (hn : t.hashKeys.Nodup) : t'.hashGet k' = if k' = k then v else t.hashGet k' := by
  have hn' : t'.hashKeys.Nodup := by rwa [hashKeys_set hj ht]
  split
  · subst k'
    obtain ⟨hlt, -, -⟩ := hashSlot?_eq_some_iff.mp hj
    refine hashGet_of_mem hn' ?_
    simp only [ht, Array.set!_eq_setIfInBounds, Array.toList_setIfInBounds]
    exact List.mem_iff_getElem.mpr ⟨j, by simpa using hlt, by simp⟩
  · exact hashGet_eq_of_mem_iff hn hn' fun w => mem_set_of_ne hj ht ‹_›

end Set

/-! ## Removing a slot -/

section Erase

variable (hj : t.hashSlot? k = some j) (ht : t'.hash = t.hash.eraseIdxIfInBounds j)
include hj ht

omit hj in
theorem hashKeys_erase_sublist : t'.hashKeys.Sublist t.hashKeys := by
  simp only [hashKeys, ht, Array.toList_eraseIdxIfInBounds]
  exact (List.eraseIdx_sublist _ _).map _

theorem mem_erase (hn : t.hashKeys.Nodup) :
    (k', w) ∈ t'.hash.toList ↔ (k', w) ∈ t.hash.toList ∧ k' ≠ k := by
  obtain ⟨hlt, hk, -⟩ := hashSlot?_eq_some_iff.mp hj
  have hlt' : j < t.hash.toList.length := by simpa using hlt
  simp only [ht, Array.toList_eraseIdxIfInBounds, List.mem_eraseIdx_iff_getElem]
  constructor
  · rintro ⟨i, hi, hij, he⟩
    refine ⟨List.mem_iff_getElem.mpr ⟨i, hi, he⟩, fun hkk => hij ?_⟩
    have hi' : i < t.hashKeys.length := by simpa [hashKeys] using hi
    have hj' : j < t.hashKeys.length := by simpa [hashKeys] using hlt'
    have hkeys : t.hashKeys[i] = t.hashKeys[j] := by
      simp [hashKeys, he, hkk, ← hk]
    exact (List.Nodup.getElem_inj_iff hn).mp hkeys
  · rintro ⟨hm, hne⟩
    obtain ⟨i, hi, he⟩ := List.mem_iff_getElem.mp hm
    refine ⟨i, hi, fun hij => hne ?_, he⟩
    subst hij
    rw [← hk]
    simpa using (congrArg Prod.fst he).symm

/-- Removing the slot of a key leaves that key nil and every other key as it was. -/
theorem hashGet_erase (hn : t.hashKeys.Nodup) :
    t'.hashGet k' = if k' = k then .nil else t.hashGet k' := by
  have hn' : t'.hashKeys.Nodup := hn.sublist (hashKeys_erase_sublist ht)
  split
  · subst k'
    refine hashGet_of_not_mem fun hm => ?_
    obtain ⟨w, hw⟩ := mem_hashKeys.mp hm
    exact ((mem_erase hj ht hn).mp hw).2 rfl
  · exact hashGet_eq_of_mem_iff hn hn' fun w => by
      rw [mem_erase hj ht hn]
      exact and_iff_left ‹_›

end Erase

/-! ## Appending a new key -/

section Push

variable (hk : k ∉ t.hashKeys) (ht : t'.hash = t.hash.push (k, v))
include hk ht

omit hk in
theorem hashKeys_push : t'.hashKeys = t.hashKeys ++ [k] := by
  simp [hashKeys, ht]

theorem hashKeys_push_nodup (hn : t.hashKeys.Nodup) : t'.hashKeys.Nodup := by
  rw [hashKeys_push ht, List.nodup_append]
  exact ⟨hn, List.nodup_singleton k, fun a ha b hb => by
    rw [List.mem_singleton.mp hb]; rintro rfl; exact hk ha⟩

/-- Appending a new key gives it its value and no other key another. -/
theorem hashGet_push (hn : t.hashKeys.Nodup) : t'.hashGet k' = if k' = k then v else t.hashGet k' := by
  have hn' := hashKeys_push_nodup hk ht hn
  split
  · subst k'
    exact hashGet_of_mem hn' (by simp [ht])
  · exact hashGet_eq_of_mem_iff hn hn' fun w => by
      simp only [ht, Array.toList_push, List.mem_append, List.mem_singleton, Prod.mk.injEq]
      exact or_iff_left fun h => ‹k' ≠ k› h.1

end Push

/-! ## Sweeping the slots holding nil -/

section Sweep

variable (ht : t'.hash = t.hash.filter fun e => !e.2.isNil)
include ht

theorem hashKeys_sweep_sublist : t'.hashKeys.Sublist t.hashKeys := by
  simp only [hashKeys, ht, Array.toList_filter]
  exact (List.filter_sublist).map _

/-- Dropping the slots that hold nil changes the value of no key. -/
theorem hashGet_sweep (hn : t.hashKeys.Nodup) : t'.hashGet k' = t.hashGet k' := by
  have hn' : t'.hashKeys.Nodup := hn.sublist (hashKeys_sweep_sublist ht)
  by_cases hk : k' ∈ t.hashKeys
  · obtain ⟨w, hw⟩ := mem_hashKeys.mp hk
    rw [hashGet_of_mem hn hw]
    by_cases hnil : w.isNil
    · -- the only slot of the key held nil and is gone
      rw [hashGet_of_not_mem]
      · cases w <;> simp_all [Value.isNil]
      · intro hm
        obtain ⟨w', hw'⟩ := mem_hashKeys.mp hm
        simp only [ht, Array.toList_filter, List.mem_filter] at hw'
        have := List.inj_on_of_nodup_map hn hw hw'.1 rfl
        cases this
        simp [hnil] at hw'
    · exact hashGet_of_mem hn' (by simp [ht, hw, hnil])
  · rw [hashGet_of_not_mem hk, hashGet_of_not_mem fun hm => hk ((hashKeys_sweep_sublist ht).subset hm)]

end Sweep

end Table

end LuaBytecode
