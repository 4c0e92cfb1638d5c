import MemoryKit.KeyTable

/-! # Probing

The search for a key begins at its home and ends at the first slot that is vacant or belongs to the
key. It finds every key of the table because no vacant slot lies between the home of a key and the
slot that the key has claimed, counted round the table, and no key has claimed two slots.
-/

namespace MemoryKit.KeyTable

variable {t : KeyTable} {key other value : UInt64} {i j steps : Nat}

theorem slotCount_pos (t : KeyTable) : 0 < t.slotCount := by
  rw [slotCount_eq, Nat.one_shiftLeft]
  exact Nat.two_pow_pos _

@[simp] theorem slotCount_setSlot (t : KeyTable) (i : Nat) (s : Slot) :
    (t.setSlot i s).slotCount = t.slotCount := by
  simp only [slotCount_eq, bits_setSlot]

@[simp] theorem home_setSlot (t : KeyTable) (i : Nat) (s : Slot) (key : UInt64) :
    (t.setSlot i s).home key = t.home key := by
  simp only [home, slotCount_setSlot]

theorem slot_congr (h : i % t.slotCount = j % t.slotCount) : t.slot i = t.slot j := by
  rw [← slot_mod, h, slot_mod]

theorem mem_slots {s : Slot} : s ∈ t.slots.toList ↔ ∃ i, t.slot i = s := by
  rw [Vector.mem_toList_iff, Vector.mem_iff_getElem]
  constructor
  · rintro ⟨i, hi, rfl⟩
    have hm : i % t.slotCount = i := Nat.mod_eq_of_lt (by rwa [slotCount_eq])
    exact ⟨i, by simp only [slot, hm]⟩
  · rintro ⟨i, rfl⟩
    exact ⟨i % t.slotCount, t.mod_slotCount_lt i, rfl⟩

theorem seek_eq_some (h : t.seek key i steps = some j) :
    ∃ d < steps, j = i + d ∧ ((t.slot j).key = key ∨ (t.slot j).key = nullKey) ∧
      ∀ e < d, (t.slot (i + e)).key ≠ key ∧ (t.slot (i + e)).key ≠ nullKey := by
  induction steps generalizing i with
  | zero => cases h
  | succ steps ih =>
    rw [seek] at h
    split at h
    · next hi =>
      cases h
      exact ⟨0, Nat.zero_lt_succ _, rfl, hi, fun e he => absurd he (Nat.not_lt_zero e)⟩
    · next hi =>
      obtain ⟨d, hd, rfl, hj, hbefore⟩ := ih h
      refine ⟨d + 1, by omega, by omega, hj, fun e he => ?_⟩
      cases e with
      | zero => exact not_or.mp hi
      | succ e =>
        rw [← Nat.add_assoc, Nat.add_right_comm]
        exact hbefore e (by omega)

theorem seek_eq_none (h : t.seek key i steps = none) :
    ∀ e < steps, (t.slot (i + e)).key ≠ key ∧ (t.slot (i + e)).key ≠ nullKey := by
  induction steps generalizing i with
  | zero => exact fun e he => absurd he (Nat.not_lt_zero e)
  | succ steps ih =>
    rw [seek] at h
    split at h
    · cases h
    · next hi =>
      intro e he
      cases e with
      | zero => exact not_or.mp hi
      | succ e =>
        rw [← Nat.add_assoc, Nat.add_right_comm]
        exact ih h e (by omega)

theorem key_of_locate (h : t.locate key = some j) :
    (t.slot j).key = key ∨ (t.slot j).key = nullKey := by
  obtain ⟨-, -, -, hj, -⟩ := seek_eq_some h
  exact hj

theorem claimed_of_locate_eq_none (h : t.locate key = none) (i : Nat) :
    (t.slot i).key ≠ nullKey := by
  have hn := t.slotCount_pos
  have hhome : t.home key < t.slotCount := Nat.mod_lt _ hn
  have hi : i % t.slotCount < t.slotCount := Nat.mod_lt _ hn
  -- Slot `i` is met after as many steps as it lies behind the home, counted round the table.
  obtain ⟨e, he, hmod⟩ : ∃ e < t.slotCount, (t.home key + e) % t.slotCount = i % t.slotCount := by
    rcases Nat.lt_or_ge (i % t.slotCount) (t.home key) with hlt | hge
    · refine ⟨i % t.slotCount + t.slotCount - t.home key, by omega, ?_⟩
      rw [show t.home key + (i % t.slotCount + t.slotCount - t.home key) =
        i % t.slotCount + t.slotCount by omega, Nat.add_mod_right, Nat.mod_mod]
    · refine ⟨i % t.slotCount - t.home key, by omega, ?_⟩
      rw [Nat.add_sub_cancel' hge, Nat.mod_mod]
  rw [← slot_congr hmod]
  exact (seek_eq_none h e he).2

/-- The searches of a table find every key that has claimed a slot. -/
structure IsProbing (t : KeyTable) : Prop where
  vacant : ∀ i, (t.slot i).key = nullKey → t.slot i = .vacant
  reached : ∀ i, (t.slot i).key ≠ nullKey → ∃ d < t.slotCount,
    (t.home (t.slot i).key + d) % t.slotCount = i % t.slotCount ∧
      ∀ e < d, (t.slot (t.home (t.slot i).key + e)).key ≠ nullKey
  distinct : ∀ i j, (t.slot i).key ≠ nullKey → (t.slot i).key = (t.slot j).key →
    i % t.slotCount = j % t.slotCount

theorem isProbing_empty (bits : Nat) : (empty bits).IsProbing where
  vacant i _ := slot_empty bits i
  reached i hi := absurd (congrArg Slot.key (slot_empty bits i)) hi
  distinct i _ hi := absurd (congrArg Slot.key (slot_empty bits i)) hi

theorem IsProbing.locate_claimed (h : t.IsProbing) (hi : (t.slot i).key ≠ nullKey) :
    ∃ j, t.locate (t.slot i).key = some j ∧ j % t.slotCount = i % t.slotCount := by
  obtain ⟨d, hd, hmod, hclaimed⟩ := h.reached i hi
  have hslot : t.slot (t.home (t.slot i).key + d) = t.slot i := slot_congr hmod
  cases hl : t.locate (t.slot i).key with
  | none => exact absurd (congrArg Slot.key hslot) (seek_eq_none hl d hd).1
  | some j =>
    refine ⟨j, rfl, ?_⟩
    obtain ⟨d', -, rfl, hj, hbefore⟩ := seek_eq_some hl
    rcases hj with hj | hj
    · exact h.distinct _ _ (by rwa [hj]) hj
    · rcases Nat.lt_trichotomy d' d with hlt | rfl | hlt
      · exact absurd hj (hclaimed d' hlt)
      · exact hmod
      · exact absurd (congrArg Slot.key hslot) (hbefore d hlt).1

theorem IsProbing.unclaimed_of_locate (h : t.IsProbing) (hk : key ≠ nullKey)
    (hl : t.locate key = some j) (hj : (t.slot j).key = nullKey) (i : Nat) :
    (t.slot i).key ≠ key := by
  rintro rfl
  obtain ⟨j', hl', hmod⟩ := h.locate_claimed hk
  cases hl.symm.trans hl'
  rw [slot_congr hmod] at hj
  exact hk hj

theorem IsProbing.get_claimed (h : t.IsProbing) (hi : (t.slot i).key ≠ nullKey) :
    t.get (t.slot i).key = (t.slot i).value := by
  obtain ⟨j, hl, hmod⟩ := h.locate_claimed hi
  have hj : t.slot j = t.slot i := slot_congr hmod
  simp only [get, find?, if_neg hi, hl, Option.filter_some, hj, beq_self_eq_true, if_true]

theorem locate_of_find? (h : t.find? key = some j) :
    key ≠ nullKey ∧ t.locate key = some j ∧ (t.slot j).key = key := by
  unfold find? at h
  split at h
  · cases h
  · next hk =>
    obtain ⟨hl, hj⟩ := Option.filter_eq_some_iff.mp h
    exact ⟨hk, hl, beq_iff_eq.mp hj⟩

theorem get_unclaimed (h : ∀ i, (t.slot i).key ≠ key) : t.get key = nullValue := by
  cases hf : t.find? key with
  | none => simp only [get, hf]
  | some j =>
    obtain ⟨-, -, hj⟩ := locate_of_find? hf
    exact absurd hj (h j)

@[simp] theorem get_nullKey (t : KeyTable) : t.get nullKey = nullValue := rfl

@[simp] theorem get_empty (bits : Nat) (key : UInt64) : (empty bits).get key = nullValue := by
  by_cases hk : key = nullKey
  · rw [hk, get_nullKey]
  · refine get_unclaimed fun i hi => hk ?_
    rw [← hi, slot_empty]
    rfl

theorem IsProbing.value_of_locate (h : t.IsProbing) (hk : key ≠ nullKey)
    (hl : t.locate key = some j) : (t.slot j).value = t.get key := by
  rcases key_of_locate hl with hj | hj
  · rw [← hj, h.get_claimed (by rwa [hj])]
  · rw [get_unclaimed (h.unclaimed_of_locate hk hl hj), h.vacant j hj]
    rfl

end MemoryKit.KeyTable
