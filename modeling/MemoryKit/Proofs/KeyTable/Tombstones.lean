import MemoryKit.Proofs.KeyTable.Contents

/-! # Tombstones

Values and tombstones take the slots of a table. A value that is removed leaves a tombstone at most,
storing one leaves none, and a table that is rebuilt from its entries has none.
-/

namespace MemoryKit.KeyTable

variable {t t' : KeyTable} {key value old : UInt64}

@[simp] theorem tombstones_empty (bits : Nat) : (empty bits).tombstones = 0 := by
  rw [(isProbing_empty bits).tombstones_eq, claimants_empty, Finset.filter_empty, Finset.card_empty]

theorem IsProbing.size_add_tombstones (h : t.IsProbing) (hk : key ≠ nullKey)
    (hl : t.locate key = none) : t.size + t.tombstones = t.slotCount := by
  rw [← ((h.locate_eq_none_iff hk).mp hl).2, h.size_eq, h.tombstones_eq, Nat.add_comm]
  exact Finset.card_filter_add_card_filter_not _

theorem IsProbing.tombstones_insert_le (h : t.IsProbing) (hi : t.insert key value = (.ok old, t'))
    (hv : value ≠ nullValue) : t'.tombstones ≤ t.tombstones := by
  obtain ⟨-, h', hget⟩ := h.insert hi
  rw [h.tombstones_eq, h'.tombstones_eq, h.claimants_insert hi]
  refine Finset.card_le_card fun other ho => ?_
  obtain ⟨hmem, hnull⟩ := Finset.mem_filter.mp ho
  rw [hget] at hnull
  split at hnull
  · exact absurd hnull hv
  · next hne =>
    refine Finset.mem_filter.mpr ⟨(Finset.mem_insert.mp hmem).resolve_left ?_, hnull⟩
    rintro rfl
    exact hne ⟨rfl, hnull⟩

theorem IsProbing.tombstones_remove_le (h : t.IsProbing) (key : UInt64) :
    (t.remove key).2.tombstones ≤ t.tombstones + 1 := by
  obtain ⟨h', hget⟩ := h.remove key
  rw [h.tombstones_eq, h'.tombstones_eq, claimants_remove]
  refine Nat.le_trans (Finset.card_le_card fun other ho => ?_) (Finset.card_insert_le key _)
  obtain ⟨hmem, hnull⟩ := Finset.mem_filter.mp ho
  rw [hget] at hnull
  split at hnull
  · next he => exact Finset.mem_insert.mpr (Or.inl he)
  · exact Finset.mem_insert_of_mem (Finset.mem_filter.mpr ⟨hmem, hnull⟩)

theorem IsProbing.tombstones_rebuilt (h : t.IsProbing) :
    ((empty t.bits).insertAll t.entries).tombstones = 0 := by
  obtain ⟨hprobing, hget, hclaimants, -⟩ := h.insertAll_entries
  rw [hprobing.tombstones_eq, hclaimants, Finset.card_eq_zero, Finset.filter_eq_empty_iff]
  intro key hk
  rw [hget]
  exact (Finset.mem_filter.mp hk).2

end MemoryKit.KeyTable
