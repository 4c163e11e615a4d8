import LuaBytecode.Proofs.Table.Slots
/-!
# Traversals report every entry once

A traversal calls `Table.next` from nil, then from each key it reports, until `next` answers
none. On the tables a program builds:

* `walk_entries`: a traversal reports the live slots in order (`Table.entries`), each key once,
  as its own normalised key and with the value `get` reads under it, the array indices first
  and in increasing order (`ArrayFirst`); a traversal is determined by the table
  (`Walk.unique`);
* `Visit.progress`: while the caller, between two calls, writes any value to keys the table
  held when the traversal began, the slots keep their keys (`write_layout`), and the traversal
  stands after a position of them, having reported the keys of the slots before it, in order,
  except those it found dead. So no call fails, no key is reported twice, at most one key is
  reported per slot, and every key that held a value throughout is reported;
* `next_traverses_once` gathers both.
-/

namespace LuaBytecode

namespace Table

variable {t t' : Table} {k : Value} {hk : Key} {p q : Nat}

/-! ## A traversal of an unchanging table -/

/-- A traversal from key `k`: `next` reports the entries `es` one by one, each call going on from
the key the last one reported, and then none. -/
inductive Walk (t : Table) : Value → List (Value × Value) → Prop
  | done {k : Value} : t.next k = .ok none → Walk t k []
  | step {k k' v : Value} {es : List (Value × Value)} :
      t.next k = .ok (some (k', v)) → Walk t k' es → Walk t k ((k', v) :: es)

/-- `next` is a function, so a traversal is determined by where it starts. -/
theorem Walk.unique {es es' : List (Value × Value)} (h : t.Walk k es) (h' : t.Walk k es') :
    es = es' := by
  induction h generalizing es' with
  | done hk =>
    cases h' with
    | done _ => rfl
    | step hk' _ => rw [hk] at hk'; cases hk'
  | step hk _ ih =>
    cases h' with
    | done hk' => rw [hk] at hk'; cases hk'
    | step hk' hw' =>
      rw [hk] at hk'
      cases hk'
      rw [ih hw']

/-- A call that reports what lies from position `p` on starts a traversal that reports the live
slots from `p` on. The induction runs along the slots from `p`: a live slot is reported and the
traversal goes on from its key, a dead one is passed over. -/
theorem walk_drop (hN : t.Normal) (hF : t.Fits) :
    ∀ l p, t.slots.drop p = l → ∀ {k}, t.next k = .ok (t.reportFrom p) →
      t.Walk k ((l.filter live).map report) := by
  intro l
  induction l with
  | nil =>
    intro p hl k hk
    exact .done (by rwa [reportFrom, hl] at hk)
  | cons e l ih =>
    intro p hl k hk
    have hp : p < t.slots.length := by
      by_contra hge
      rw [List.drop_eq_nil_of_le (by omega)] at hl
      cases hl
    have he : t.slots[p] = e := by
      rw [List.drop_eq_getElem_cons hp] at hl
      exact (List.cons.inj hl).1
    have hl' : t.slots.drop (p + 1) = l := by
      rw [List.drop_eq_getElem_cons hp] at hl
      exact (List.cons.inj hl).2
    have hnext : t.reportFrom p = if live e then some (report e) else t.reportFrom (p + 1) := by
      rw [reportFrom, hl, reportFrom, hl', List.find?_cons]
      cases live e <;> rfl
    by_cases hlive : live e
    · rw [if_pos hlive] at hnext
      rw [List.filter_cons_of_pos hlive, List.map_cons]
      exact .step (hk.trans (by rw [hnext]; rfl)) (ih (p + 1) hl' (he ▸ next_slot hN hF hp))
    · rw [if_neg hlive] at hnext
      rw [List.filter_cons_of_neg hlive]
      exact ih (p + 1) hl' (hk.trans (by rw [hnext]))

/-- From nil, a traversal reports the entries. -/
theorem walk_entries (hN : t.Normal) (hF : t.Fits) : t.Walk .nil t.entries := by
  rw [entries_eq]
  exact walk_drop hN hF _ 0 (List.drop_zero) next_nil

/-! ## What the entries are -/

/-- The entries are the live keys, each reported as a value with what `get` reads under it. -/
theorem entries_eq_liveKeys (hN : t.Normal) (hF : t.Fits) :
    t.entries = t.liveKeys.map fun hk => (hk.toValue, t.get hk.toValue) := by
  rw [entries_eq, liveKeys, List.map_map]
  refine List.map_congr_left fun e he => ?_
  obtain ⟨q, hq, rfl⟩ := List.mem_iff_getElem.mp (List.mem_filter.mp he).1
  simp only [report, Function.comp_apply, get_slot hN hF hq]

theorem liveKeys_nodup (hN : t.Normal) (hF : t.Fits) : t.liveKeys.Nodup :=
  (slotKeys_nodup hN hF).sublist (List.filter_sublist.map _)

/-- A key reads a value exactly when it normalises to a live key. -/
theorem get_ne_nil_iff (hN : t.Normal) (hF : t.Fits) :
    t.get k ≠ .nil ↔ ∃ hk ∈ t.liveKeys, Key.ofValue? k = some hk := by
  rw [get_eq_valueAt]
  cases h : Key.ofValue? k with
  | none => simp
  | some hk => simp [mem_liveKeys hN hF]

theorem ofValue?_liveKey (hN : t.Normal) (hm : hk ∈ t.liveKeys) : Key.ofValue? hk.toValue = some hk := by
  obtain ⟨e, he, rfl⟩ := List.mem_map.mp hm
  obtain ⟨q, hq, rfl⟩ := List.mem_iff_getElem.mp (List.mem_filter.mp he).1
  exact ofValue?_slot hN hq

/-- Array indices come first, in increasing order: an entry with an array slot follows only
entries with smaller array slots. -/
def ArrayFirst (t : Table) (es : List (Value × Value)) : Prop :=
  es.Pairwise fun e e' => ∀ i', t.arraySlot? e'.1 = some i' → ∃ i, t.arraySlot? e.1 = some i ∧ i < i'

/-- The entries list the array part first, by position, then the hash part, whose keys have no
array slot. -/
theorem arrayFirst_entries (hN : t.Normal) (hF : t.Fits) : t.ArrayFirst t.entries := by
  have harr : ∀ j < t.array.size, t.arraySlot? (.int (Int64.ofInt (j + 1))) = some j :=
    fun j hj => by rw [arraySlot?_eq rfl, keySlot?_arrayKey hF hj]
  have hhash : ∀ e ∈ t.hash.toList, t.arraySlot? (report e).1 = none := fun e he => by
    have hm : e.1 ∈ t.hashKeys := List.mem_map_of_mem he
    rw [report, arraySlot?_eq (ofValue?_hashKey hN hm), keySlot?_of_mem hN (Nat.le_succ _) hm]
  rw [ArrayFirst, entries_eq, slots, List.filter_append, List.map_append, List.pairwise_append]
  refine ⟨?_, ?_, ?_⟩
  · -- the array part, by increasing position
    refine List.pairwise_map.mpr (List.Pairwise.filter _ ?_)
    rw [arraySlots, List.pairwise_map]
    refine List.pairwise_lt_range.imp_of_mem fun {i j} hi hj hij i' hi' => ⟨i, ?_, ?_⟩
    · exact harr i (List.mem_range.mp hi)
    · simp only [report, Key.toValue] at hi'
      rw [harr j (List.mem_range.mp hj)] at hi'
      cases hi'
      exact hij
  · -- the hash part has no array slots
    refine List.pairwise_map.mpr (List.Pairwise.filter _ ?_)
    refine List.Pairwise.imp_of_mem (fun {e e'} _ he' _ i' hi' => ?_) (List.pairwise_of_forall fun _ _ => trivial)
    rw [hhash e' he'] at hi'
    cases hi'
  · intro e _ e' he' i' hi'
    obtain ⟨e'', he'', rfl⟩ := List.mem_map.mp he'
    rw [hhash e'' (List.mem_filter.mp he'').1] at hi'
    cases hi'

/-! ## A traversal while the caller writes to keys the table held -/

/-- The key of slot `q`, as a traversal reports it. -/
def slotKey (t : Table) (q : Nat) : Value := (t.slotKeys.getD q default).toValue

theorem slotKey_eq (hq : q < t.slots.length) : t.slotKey q = t.slots[q].1.toValue := by
  simp [slotKey, slotKeys, List.getD_eq_getElem?_getD, hq]

theorem liveKeys_sublist : t.liveKeys.Sublist t.slotKeys := List.filter_sublist.map _

/-- `get` reads under the normalised key. -/
theorem get_congr {k' : Value} (h : Key.ofValue? k = Key.ofValue? k') : t.get k = t.get k' := by
  rw [get_eq_valueAt, get_eq_valueAt, h]

theorem length_hashKeys : t.hashKeys.length = t.hash.size := by
  simp [hashKeys]

/-- The states a traversal of `t₀` can reach when, between two calls of `next`, the caller may
write any value under keys that `t₀` held: the tables seen so far, the current table first; the
current table; the key to go on from; and the keys reported so far. -/
inductive Visit (t₀ : Table) : List Table → Table → Value → List Value → Prop
  | start : Visit t₀ [t₀] t₀ .nil []
  | next {seen : List Table} {t : Table} {k k' v : Value} {ks : List Value} :
      Visit t₀ seen t k ks → t.next k = .ok (some (k', v)) → Visit t₀ seen t k' (ks ++ [k'])
  | write {seen : List Table} {t t' : Table} {k k₁ v₁ : Value} {ks : List Value} :
      Visit t₀ seen t k ks → t₀.get k₁ ≠ .nil → t.set k₁ v₁ = .ok t' →
      Visit t₀ (t' :: seen) t' k ks

/-- What holds at every state of a traversal of `t₀`, standing after position `p` of the slots:
the slots keep their keys, the traversal goes on from the key before `p`, the keys reported are
those of some slots before `p` in increasing order, and every slot before `p` was reported or was
dead in a table seen. -/
structure Progress (t₀ : Table) (seen : List Table) (t : Table) (k : Value) (ks : List Value)
    (p : Nat) : Prop where
  size_eq : t.array.size = t₀.array.size
  keys_eq : t.hashKeys = t₀.hashKeys
  mem_seen : t ∈ seen
  le_length : p ≤ t₀.slots.length
  at_key : (k = .nil ∧ p = 0) ∨ ∃ q, p = q + 1 ∧ k = t₀.slotKey q
  reported : ∃ P : List Nat, P.Pairwise (· < ·) ∧ (∀ q ∈ P, q < p) ∧ ks = P.map t₀.slotKey
  covered : ∀ q < p, t₀.slotKey q ∈ ks ∨ ∃ s ∈ seen, s.get (t₀.slotKey q) = .nil

section Progress

variable {t₀ : Table} {seen : List Table} {ks : List Value}

theorem normal_of_layout (ha : t'.array.size = t.array.size) (hh : t'.hashKeys = t.hashKeys)
    (hN : t.Normal) : t'.Normal := by
  unfold Normal
  rw [ha]
  exact hN.of_sublist (by rw [hh])

theorem fits_of_layout (ha : t'.array.size = t.array.size) (hh : t'.hashKeys = t.hashKeys)
    (hF : t.Fits) : t'.Fits := by
  have hs : t'.hash.size = t.hash.size := by
    rw [← length_hashKeys, hh, length_hashKeys]
  unfold Fits at *
  omega

namespace Progress

theorem normal (h : Progress t₀ seen t k ks p) (hN₀ : t₀.Normal) : t.Normal :=
  normal_of_layout h.size_eq h.keys_eq hN₀

theorem fits (h : Progress t₀ seen t k ks p) (hF₀ : t₀.Fits) : t.Fits :=
  fits_of_layout h.size_eq h.keys_eq hF₀

theorem slotKey_congr (h : Progress t₀ seen t k ks p) (q : Nat) : t.slotKey q = t₀.slotKey q := by
  rw [slotKey, slotKey, slotKeys_congr h.size_eq h.keys_eq]

theorem length_slots_eq (h : Progress t₀ seen t k ks p) : t.slots.length = t₀.slots.length := by
  rw [length_slots, length_slots, h.size_eq, ← length_hashKeys, h.keys_eq, length_hashKeys]

/-- The traversal goes on from position `p`: `next` reports the first live slot from there. -/
theorem next_eq (h : Progress t₀ seen t k ks p) (hN₀ : t₀.Normal) (hF₀ : t₀.Fits) :
    t.next k = .ok (t.reportFrom p) := by
  rcases h.at_key with ⟨rfl, rfl⟩ | ⟨q, rfl, rfl⟩
  · exact next_nil
  · have hq : q < t.slots.length := by have := h.le_length; rw [h.length_slots_eq]; omega
    rw [← h.slotKey_congr, slotKey_eq hq]
    exact next_slot (h.normal hN₀) (h.fits hF₀) hq

theorem start : Progress t₀ [t₀] t₀ .nil [] 0 :=
  ⟨rfl, rfl, List.mem_singleton_self _, Nat.zero_le _, .inl ⟨rfl, rfl⟩,
    ⟨[], List.Pairwise.nil, by simp, rfl⟩, fun _ hq => absurd hq (Nat.not_lt_zero _)⟩

/-- A call of `next` moves the traversal to just after the live slot it reports; the slots it
passed over were dead in the current table. -/
theorem next (h : Progress t₀ seen t k ks p) (hN₀ : t₀.Normal) (hF₀ : t₀.Fits) {k' v : Value}
    (hk : t.next k = .ok (some (k', v))) : ∃ p', Progress t₀ seen t k' (ks ++ [k']) p' := by
  rw [h.next_eq hN₀ hF₀] at hk
  obtain ⟨q, hpq, hq, hrep, -, hdead⟩ := reportFrom_eq_some (Except.ok.inj hk)
  have hlen := h.length_slots_eq
  -- the key reported is the key of slot `q`
  have hk' : k' = t₀.slotKey q := by
    rw [← h.slotKey_congr, slotKey_eq hq]
    exact (congrArg Prod.fst hrep).symm
  obtain ⟨P, hP, hlt, rfl⟩ := h.reported
  refine ⟨q + 1, h.size_eq, h.keys_eq, h.mem_seen, by omega, .inr ⟨q, rfl, hk'⟩,
    ⟨P ++ [q], ?_, ?_, by rw [List.map_append, hk']; rfl⟩, fun q' hq' => ?_⟩
  · exact List.pairwise_append.mpr ⟨hP, List.pairwise_singleton _ _,
      fun a ha b hb => by rw [List.mem_singleton.mp hb]; exact Nat.lt_of_lt_of_le (hlt a ha) hpq⟩
  · intro a ha
    rcases List.mem_append.mp ha with ha | ha
    · exact Nat.lt_succ_of_lt (Nat.lt_of_lt_of_le (hlt a ha) hpq)
    · rw [List.mem_singleton.mp ha]
      exact Nat.lt_succ_self q
  · rcases Nat.lt_or_ge q' p with hq'p | hq'p
    · -- a slot before the old position: covered before
      rcases h.covered q' hq'p with hm | hs
      · exact .inl (List.mem_append_left _ hm)
      · exact .inr hs
    · rcases Nat.lt_or_ge q' q with hq'q | hq'q
      · -- a slot passed over: dead in the current table
        refine .inr ⟨t, h.mem_seen, ?_⟩
        have hq'len : q' < t.slots.length := by omega
        rw [← h.slotKey_congr, slotKey_eq hq'len, get_slot (h.normal hN₀) (h.fits hF₀) hq'len]
        exact hdead q' hq'q hq'p
      · -- the slot reported
        rw [show q' = q by omega, ← hk']
        exact .inl (List.mem_append_right _ (List.mem_singleton_self _))

/-- A write under a key the table held at the start keeps the slots, so the traversal stands
where it stood, with one more table seen. -/
theorem write (h : Progress t₀ seen t k ks p) (hN₀ : t₀.Normal) (hF₀ : t₀.Fits) {k₁ v₁ : Value}
    (hheld : t₀.get k₁ ≠ .nil) (hset : t.set k₁ v₁ = .ok t') :
    Progress t₀ (t' :: seen) t' k ks p := by
  obtain ⟨hk, hkey, rfl⟩ := set_eq_ok.mp hset
  -- the key written has a slot in `t₀`, so in `t`
  have hslot : hk ∈ t.slotKeys := by
    obtain ⟨hk', hm, hkey'⟩ := (get_ne_nil_iff hN₀ hF₀).mp hheld
    rw [hkey] at hkey'
    cases hkey'
    rw [slotKeys_congr h.size_eq h.keys_eq]
    exact liveKeys_sublist.subset hm
  obtain ⟨ha, hh⟩ := write_layout (v := v₁) (h.normal hN₀) (h.fits hF₀) hkey hslot
  refine ⟨ha.trans h.size_eq, hh.trans h.keys_eq, List.mem_cons_self, h.le_length, h.at_key,
    h.reported, fun q hq => ?_⟩
  rcases h.covered q hq with hm | ⟨s, hs, hnil⟩
  · exact .inl hm
  · exact .inr ⟨s, List.mem_cons_of_mem _ hs, hnil⟩

/-- The keys reported are distinct, also as normalised keys: they are the keys of slots at
increasing positions. -/
theorem nodup (h : Progress t₀ seen t k ks p) (hN₀ : t₀.Normal) (hF₀ : t₀.Fits) :
    (ks.map Key.ofValue?).Nodup := by
  obtain ⟨P, hP, hlt, rfl⟩ := h.reported
  have hkey : ∀ q ∈ P, Key.ofValue? (t₀.slotKey q) = some (t₀.slotKeys.getD q default) := by
    intro q hq
    have hq' : q < t₀.slots.length := Nat.lt_of_lt_of_le (hlt q hq) h.le_length
    rw [slotKey_eq hq', ofValue?_slot hN₀ hq']
    simp [slotKeys, List.getD_eq_getElem?_getD, hq']
  rw [List.map_map]
  refine List.Nodup.map_on (fun a ha b hb hab => ?_) (hP.imp Nat.ne_of_lt)
  have ha' : a < t₀.slotKeys.length := by
    have := Nat.lt_of_lt_of_le (hlt a ha) h.le_length; simpa [slotKeys] using this
  have hb' : b < t₀.slotKeys.length := by
    have := Nat.lt_of_lt_of_le (hlt b hb) h.le_length; simpa [slotKeys] using this
  simp only [Function.comp_apply, hkey a ha, hkey b hb, Option.some.injEq,
    List.getD_eq_getElem?_getD, List.getElem?_eq_getElem ha', List.getElem?_eq_getElem hb',
    Option.getD_some] at hab
  exact (List.Nodup.getElem_inj_iff (slotKeys_nodup hN₀ hF₀)).mp hab

/-- A traversal reports at most one key per slot, so it comes to an end. -/
theorem length_le (h : Progress t₀ seen t k ks p) : ks.length ≤ t₀.slots.length := by
  obtain ⟨P, hP, hlt, rfl⟩ := h.reported
  rw [List.length_map, ← List.toFinset_card_of_nodup (hP.imp Nat.ne_of_lt)]
  calc P.toFinset.card ≤ (Finset.range p).card :=
        Finset.card_le_card fun q hq => Finset.mem_range.mpr (hlt q (List.mem_toFinset.mp hq))
    _ = p := Finset.card_range p
    _ ≤ t₀.slots.length := h.le_length

/-- When `next` answers none, every key that held a value in every table seen was reported. -/
theorem complete (h : Progress t₀ seen t k ks p) (hN₀ : t₀.Normal) (hF₀ : t₀.Fits)
    (hdone : t.next k = .ok none) {k₁ : Value} (hkept : ∀ s ∈ seen, s.get k₁ ≠ .nil) :
    ∃ k₂ ∈ ks, Key.ofValue? k₂ = Key.ofValue? k₁ := by
  rw [h.next_eq hN₀ hF₀] at hdone
  have hN := h.normal hN₀
  have hF := h.fits hF₀
  -- the key is live in the current table, in some slot `q`
  obtain ⟨hk, hm, hkey⟩ := (get_ne_nil_iff hN hF).mp (hkept t h.mem_seen)
  obtain ⟨e, he, rfl⟩ := List.mem_map.mp hm
  obtain ⟨hes, hlive⟩ := List.mem_filter.mp he
  obtain ⟨q, hq, rfl⟩ := List.mem_iff_getElem.mp hes
  have hkq : t₀.slotKey q = t.slots[q].1.toValue := by rw [← h.slotKey_congr, slotKey_eq hq]
  -- slots from `p` on are dead, so `q` lies before `p`
  have hqp : q < p := by
    by_contra hge
    exact live_iff.mp hlive (reportFrom_eq_none (Except.ok.inj hdone) q hq (by omega))
  rcases h.covered q hqp with hrep | ⟨s, hs, hnil⟩
  · exact ⟨_, hrep, by rw [hkq, ofValue?_slot hN hq, hkey]⟩
  · refine absurd ?_ (hkept s hs)
    have hsame : s.get k₁ = s.get t.slots[q].1.toValue := get_congr (by rw [ofValue?_slot hN hq, hkey])
    rw [hsame, ← hkq, hnil]

end Progress

end Progress

/-- Every state of a traversal satisfies the invariant, by induction on the calls and writes. -/
theorem Visit.progress {t₀ : Table} {seen : List Table} {ks : List Value} (hN₀ : t₀.Normal)
    (hF₀ : t₀.Fits) (h : Visit t₀ seen t k ks) : ∃ p, Progress t₀ seen t k ks p := by
  induction h with
  | start => exact ⟨0, Progress.start⟩
  | next _ hk ih =>
    obtain ⟨p, hp⟩ := ih
    exact hp.next hN₀ hF₀ hk
  | write _ hheld hset ih =>
    obtain ⟨p, hp⟩ := ih
    exact ⟨p, hp.write hN₀ hF₀ hheld hset⟩

/-! ## The traversal law -/

/-- `next` enumerates a table once and tolerates writes to the keys it held. On every table a
program builds that fits in memory: a traversal from nil reports the keys with a value, each
once, as its own normalised key and with the value `get` reads under it, array indices first and
in increasing order, and then none. While the caller writes any value under keys the table held
when the traversal began, no call fails, no key is reported twice, no more keys are reported than
the table has slots, and when the traversal ends every key that held a value in every table seen
has been reported. -/
theorem next_traverses_once (ht : t.Reachable) (hF : t.Fits) :
    (∃ hks : List Key,
      (∀ es, t.Walk .nil es ↔ es = hks.map fun hk => (hk.toValue, t.get hk.toValue)) ∧
      hks.Nodup ∧
      (∀ k, t.get k ≠ .nil ↔ ∃ hk ∈ hks, Key.ofValue? k = some hk) ∧
      (∀ hk ∈ hks, Key.ofValue? hk.toValue = some hk) ∧
      t.ArrayFirst (hks.map fun hk => (hk.toValue, t.get hk.toValue))) ∧
    (∀ seen t' k ks, Visit t seen t' k ks →
      (∃ r, t'.next k = .ok r) ∧ (ks.map Key.ofValue?).Nodup ∧
      ks.length ≤ t.array.size + t.hash.size ∧
      (t'.next k = .ok none → ∀ k₁, (∀ s ∈ seen, s.get k₁ ≠ .nil) →
        ∃ k₂ ∈ ks, Key.ofValue? k₂ = Key.ofValue? k₁)) := by
  have hN := ht.normal
  have hentries := entries_eq_liveKeys hN hF
  refine ⟨⟨t.liveKeys, fun es => ⟨fun hw => ?_, ?_⟩, liveKeys_nodup hN hF,
    fun k => get_ne_nil_iff hN hF, fun hk hm => ofValue?_liveKey hN hm, ?_⟩,
    fun seen t' k ks hv => ?_⟩
  · rw [← hentries]
    exact hw.unique (walk_entries hN hF)
  · rintro rfl
    rw [← hentries]
    exact walk_entries hN hF
  · rw [← hentries]
    exact arrayFirst_entries hN hF
  · obtain ⟨p, hp⟩ := hv.progress hN hF
    exact ⟨⟨_, hp.next_eq hN hF⟩, hp.nodup hN hF, length_slots ▸ hp.length_le,
      fun hdone k₁ hkept => hp.complete hN hF hdone hkept⟩

/-- A traversal of a table with an array part and a hash part holding a dead slot: from nil it
reports `1`, `2` and `"z"` and then none, which are exactly the keys holding values; and when,
after `1` is reported, `2` is cleared and `"z"` rewritten, the traversal goes on to `"z"`, then
ends without an error, having reported every key that held a value in every table it saw. -/
theorem next_traverses_once_with_writes :
    ({ array := #[.str "a", .str "b"], hash := #[(.str "x", .nil), (.str "z", .str "w")]
       indexRoom := 3, entryRoom := 3 } : Table).Reachable ∧
    ({ array := #[.str "a", .str "b"], hash := #[(.str "x", .nil), (.str "z", .str "w")]
       indexRoom := 3, entryRoom := 3 } : Table).Walk .nil
      [(.int 1, .str "a"), (.int 2, .str "b"), (.str "z", .str "w")] ∧
    (∀ k, ({ array := #[.str "a", .str "b"], hash := #[(.str "x", .nil), (.str "z", .str "w")]
             indexRoom := 3, entryRoom := 3 } : Table).get k ≠ .nil ↔
      ∃ e ∈ [((.int 1 : Value), (.str "a" : Value)), (.int 2, .str "b"), (.str "z", .str "w")],
        Key.ofValue? e.1 = Key.ofValue? k) ∧
    Visit { array := #[.str "a", .str "b"], hash := #[(.str "x", .nil), (.str "z", .str "w")]
            indexRoom := 3, entryRoom := 3 }
      [{ array := #[.str "a", .nil], hash := #[(.str "x", .nil), (.str "z", .str "v")]
         indexRoom := 3, entryRoom := 3 },
       { array := #[.str "a", .nil], hash := #[(.str "x", .nil), (.str "z", .str "w")]
         indexRoom := 3, entryRoom := 3 },
       { array := #[.str "a", .str "b"], hash := #[(.str "x", .nil), (.str "z", .str "w")]
         indexRoom := 3, entryRoom := 3 }]
      { array := #[.str "a", .nil], hash := #[(.str "x", .nil), (.str "z", .str "v")]
        indexRoom := 3, entryRoom := 3 }
      (.str "z") [.int 1, .str "z"] ∧
    ({ array := #[.str "a", .nil], hash := #[(.str "x", .nil), (.str "z", .str "v")]
       indexRoom := 3, entryRoom := 3 } : Table).next (.str "z") = .ok none ∧
    ∀ k₁, (∀ s ∈ [({ array := #[.str "a", .nil], hash := #[(.str "x", .nil), (.str "z", .str "v")]
                     indexRoom := 3, entryRoom := 3 } : Table),
                  { array := #[.str "a", .nil], hash := #[(.str "x", .nil), (.str "z", .str "w")]
                    indexRoom := 3, entryRoom := 3 },
                  { array := #[.str "a", .str "b"], hash := #[(.str "x", .nil), (.str "z", .str "w")]
                    indexRoom := 3, entryRoom := 3 }], s.get k₁ ≠ .nil) →
      ∃ k₂ ∈ [Value.int 1, .str "z"], Key.ofValue? k₂ = Key.ofValue? k₁ := by
  -- the table: `1` and `2` in the array part, `"x"` written and cleared, `"z"` in the hash part
  have h₀ : ({ array := #[.str "a", .str "b"], hash := #[(.str "x", .nil), (.str "z", .str "w")]
               indexRoom := 3, entryRoom := 3 } : Table).Reachable :=
    .set (.set (.set (.set (.set .empty (k := .int 1) (v := .str "a") (by with_unfolding_all rfl))
      (k := .int 2) (v := .str "b") (by with_unfolding_all rfl))
      (k := .str "x") (v := .str "y") (by with_unfolding_all rfl))
      (k := .str "z") (v := .str "w") (by with_unfolding_all rfl))
      (k := .str "x") (v := .nil) (by with_unfolding_all rfl)
  have hF : ({ array := #[.str "a", .str "b"], hash := #[(.str "x", .nil), (.str "z", .str "w")]
               indexRoom := 3, entryRoom := 3 } : Table).Fits := by unfold Fits; decide
  obtain ⟨⟨hks, hwalk, -, hlive, hof, -⟩, hvisit⟩ := next_traverses_once h₀ hF
  have hw : ({ array := #[.str "a", .str "b"], hash := #[(.str "x", .nil), (.str "z", .str "w")]
               indexRoom := 3, entryRoom := 3 } : Table).Walk .nil
      [(.int 1, .str "a"), (.int 2, .str "b"), (.str "z", .str "w")] :=
    .step (by with_unfolding_all rfl) (.step (by with_unfolding_all rfl)
      (.step (by with_unfolding_all rfl) (.done (by with_unfolding_all rfl))))
  -- after `1`, `2` is cleared and `"z"` rewritten, then `next` goes on from `1`
  have hs₁ : Table.set
      ({ array := #[.str "a", .str "b"]
         hash := #[(.str "x", .nil), (.str "z", .str "w")]
         indexRoom := 3, entryRoom := 3 }) (.int 2) .nil = .ok
      { array := #[.str "a", .nil]
        hash := #[(.str "x", .nil), (.str "z", .str "w")]
        indexRoom := 3, entryRoom := 3 } := by
    with_unfolding_all rfl
  have hs₂ : Table.set
      ({ array := #[.str "a", .nil]
         hash := #[(.str "x", .nil), (.str "z", .str "w")]
         indexRoom := 3, entryRoom := 3 }) (.str "z") (.str "v") = .ok
      { array := #[.str "a", .nil]
        hash := #[(.str "x", .nil), (.str "z", .str "v")]
        indexRoom := 3, entryRoom := 3 } := by
    with_unfolding_all rfl
  have v₁ : Visit
      { array := #[.str "a", .str "b"]
        hash := #[(.str "x", .nil), (.str "z", .str "w")]
        indexRoom := 3, entryRoom := 3 }
      [{ array := #[.str "a", .str "b"]
         hash := #[(.str "x", .nil), (.str "z", .str "w")]
         indexRoom := 3, entryRoom := 3 }]
      { array := #[.str "a", .str "b"]
        hash := #[(.str "x", .nil), (.str "z", .str "w")]
        indexRoom := 3, entryRoom := 3 }
      (.int 1) ([] ++ [.int 1]) :=
    .next .start (by with_unfolding_all rfl)
  have hz : Table.get
      ({ array := #[.str "a", .str "b"]
         hash := #[(.str "x", .nil), (.str "z", .str "w")]
         indexRoom := 3, entryRoom := 3 }) (.str "z") = .str "w" := by
    with_unfolding_all rfl
  have h₂ : Table.get
      ({ array := #[.str "a", .str "b"]
         hash := #[(.str "x", .nil), (.str "z", .str "w")]
         indexRoom := 3, entryRoom := 3 }) (.int 2) = .str "b" := by
    with_unfolding_all rfl
  have v₂ := Visit.write v₁ (fun h => by rw [h₂] at h; cases h) hs₁
  have v₃ := Visit.write v₂ (fun h => by rw [hz] at h; cases h) hs₂
  have hn : Table.next
      ({ array := #[.str "a", .nil]
         hash := #[(.str "x", .nil), (.str "z", .str "v")]
         indexRoom := 3, entryRoom := 3 }) (.int 1) = .ok (some (.str "z", .str "v")) := by
    with_unfolding_all rfl
  have hv := Visit.next v₃ hn
  have hnone : ({ array := #[.str "a", .nil], hash := #[(.str "x", .nil), (.str "z", .str "v")]
                  indexRoom := 3, entryRoom := 3 } : Table).next (.str "z") = .ok none := by
    with_unfolding_all rfl
  obtain ⟨-, -, -, hdone⟩ := hvisit _ _ _ _ hv
  refine ⟨h₀, hw, fun k => ?_, hv, hnone, hdone hnone⟩
  -- the walk is the one the law describes, so it lists exactly the keys holding values
  have hes := (hwalk _).mp hw
  rw [hlive k, hes]
  constructor
  · rintro ⟨hk, hmem, hk'⟩
    exact ⟨_, List.mem_map_of_mem hmem, by rw [hof hk hmem, hk']⟩
  · rintro ⟨e, he, heq⟩
    obtain ⟨hk, hmem, rfl⟩ := List.mem_map.mp he
    exact ⟨hk, hmem, by rw [← heq, hof hk hmem]⟩

end Table

end LuaBytecode
