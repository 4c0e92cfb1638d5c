import Mathlib.Data.Finset.Card
import MemoryKit.Proofs.KeyTable.Operations

/-! # The keys that hold a slot

A key takes a slot with its first value and keeps it when the value is removed. No key takes two
slots, so that slots of a kind are counted by their keys, and a key that has none is refused exactly
when as many keys hold a slot as there are slots.
-/

namespace MemoryKit.KeyTable

variable {t t' : KeyTable} {key value old : UInt64} {i j : Nat}

def keysOf (t : KeyTable) (kind : Slot → Bool) : Finset UInt64 :=
  ((t.slots.toList.filter kind).map Slot.key).toFinset

/-- The keys that hold a slot, with or without a value. -/
def claimants (t : KeyTable) : Finset UInt64 := t.keysOf Slot.isClaimed

theorem mem_keysOf {kind : Slot → Bool} :
    key ∈ t.keysOf kind ↔ ∃ i, kind (t.slot i) = true ∧ (t.slot i).key = key := by
  simp only [keysOf, List.mem_toFinset, List.mem_map, List.mem_filter, mem_slots]
  constructor
  · rintro ⟨s, ⟨⟨i, rfl⟩, hs⟩, hkey⟩
    exact ⟨i, hs, hkey⟩
  · rintro ⟨i, hs, hkey⟩
    exact ⟨t.slot i, ⟨⟨i, rfl⟩, hs⟩, hkey⟩

theorem mem_claimants : key ∈ t.claimants ↔ key ≠ nullKey ∧ ∃ i, (t.slot i).key = key := by
  rw [claimants, mem_keysOf]
  constructor
  · rintro ⟨i, hs, rfl⟩
    exact ⟨bne_iff_ne.mp hs, i, rfl⟩
  · rintro ⟨hk, i, rfl⟩
    exact ⟨i, bne_iff_ne.mpr hk, rfl⟩

theorem nullKey_notMem_claimants (t : KeyTable) : nullKey ∉ t.claimants := fun h =>
  (mem_claimants.mp h).1 rfl

@[simp] theorem claimants_empty (bits : Nat) : (empty bits).claimants = ∅ := by
  apply Finset.eq_empty_of_forall_notMem
  intro key h
  obtain ⟨hk, i, rfl⟩ := mem_claimants.mp h
  rw [slot_empty] at hk
  exact hk rfl

theorem key_ne_of_notMem (hk : key ≠ nullKey) (h : key ∉ t.claimants) (i : Nat) :
    (t.slot i).key ≠ key := fun hi => h (mem_claimants.mpr ⟨hk, i, hi⟩)

theorem mem_claimants_of_get (h : t.get key ≠ nullValue) : key ∈ t.claimants := by
  by_contra hn
  by_cases hk : key = nullKey
  · exact h (hk ▸ t.get_nullKey)
  · exact h (get_unclaimed (key_ne_of_notMem hk hn))

section

variable (h : t.IsProbing)

include h

theorem IsProbing.card_keysOf {kind : Slot → Bool} (hc : ∀ s, kind s = true → s.key ≠ nullKey) :
    (t.keysOf kind).card = t.slots.toList.countP kind := by
  have hnd : ((t.slots.toList.filter kind).map Slot.key).Nodup := by
    rw [List.Nodup, List.pairwise_map, List.pairwise_filter]
    exact h.pairwise_slots.imp fun hne hs _ => hne (hc _ hs)
  rw [keysOf, List.toFinset_card_of_nodup hnd, List.length_map, List.countP_eq_length_filter]

theorem IsProbing.card_claimants : t.claimants.card = t.claimed :=
  h.card_keysOf fun _ => bne_iff_ne.mp

theorem IsProbing.card_filter (p : UInt64 → Prop) [DecidablePred p] :
    (t.claimants.filter fun key => p (t.get key)).card =
      t.slots.toList.countP fun s => s.isClaimed && decide (p s.value) := by
  have hc : ∀ s : Slot, (s.isClaimed && decide (p s.value)) = true → s.key ≠ nullKey :=
    fun s hs => bne_iff_ne.mp (Bool.and_eq_true_iff.mp hs).1
  rw [← h.card_keysOf hc]
  congr 1
  ext key
  rw [Finset.mem_filter, mem_claimants, mem_keysOf]
  constructor
  · rintro ⟨⟨hk, i, rfl⟩, hv⟩
    rw [h.get_claimed hk] at hv
    exact ⟨i, Bool.and_eq_true_iff.mpr ⟨bne_iff_ne.mpr hk, decide_eq_true hv⟩, rfl⟩
  · rintro ⟨i, hs, rfl⟩
    obtain ⟨hk, hv⟩ := Bool.and_eq_true_iff.mp hs
    rw [h.get_claimed (bne_iff_ne.mp hk)]
    exact ⟨⟨bne_iff_ne.mp hk, i, rfl⟩, of_decide_eq_true hv⟩

theorem IsProbing.size_eq : t.size = (t.claimants.filter (t.get · ≠ nullValue)).card := by
  rw [h.card_filter (· ≠ nullValue), size, entries, List.length_map, ← List.countP_eq_length_filter]
  apply List.countP_congr
  intro s _
  simp [Slot.isLive, Slot.isClaimed]

theorem IsProbing.tombstones_eq :
    t.tombstones = (t.claimants.filter (t.get · = nullValue)).card := by
  rw [h.card_filter (· = nullValue), tombstones]
  apply List.countP_congr
  intro s _
  simp [Slot.isTombstone, Slot.isClaimed]

end

theorem claimed_lt_of_vacant (hi : (t.slot i).key = nullKey) : t.claimed < t.slotCount := by
  have hlength : t.slots.toList.length = t.slotCount := by rw [Vector.length_toList, slotCount_eq]
  rw [← hlength, claimed]
  apply Nat.lt_of_le_of_ne List.countP_le_length
  intro hall
  have hc := List.countP_eq_length.mp hall (t.slot i) (mem_slots.mpr ⟨i, rfl⟩)
  exact bne_iff_ne.mp hc hi

/-- The search for a key fails exactly if it has no slot and there is none left. -/
theorem IsProbing.locate_eq_none_iff (h : t.IsProbing) (hk : key ≠ nullKey) :
    t.locate key = none ↔ key ∉ t.claimants ∧ t.claimants.card = t.slotCount := by
  constructor
  · intro hl
    refine ⟨?_, h.card_claimants.trans (claimed_of_locate hl)⟩
    intro hc
    obtain ⟨-, i, rfl⟩ := mem_claimants.mp hc
    obtain ⟨j, hj, -⟩ := h.locate_claimed hk
    rw [hl] at hj
    cases hj
  · rintro ⟨hc, hfull⟩
    cases hl : t.locate key with
    | none => rfl
    | some j =>
      rcases key_of_locate hl with hj | hj
      · exact absurd hj (key_ne_of_notMem hk hc j)
      · exact absurd (h.card_claimants.symm.trans hfull) (Nat.ne_of_lt (claimed_lt_of_vacant hj))

theorem claimants_setSlot (hk : key ≠ nullKey) (hl : t.locate key = some j) (value : UInt64) :
    (t.setSlot j ⟨key, value⟩).claimants = Insert.insert key t.claimants := by
  ext other
  rw [Finset.mem_insert, mem_claimants, mem_claimants]
  constructor
  · rintro ⟨ho, i, hi⟩
    rw [slot_setSlot] at hi
    split at hi
    · exact Or.inl hi.symm
    · exact Or.inr ⟨ho, i, hi⟩
  · rintro (rfl | ⟨ho, i, rfl⟩)
    · exact ⟨hk, j, by rw [slot_setSlot, if_pos rfl]⟩
    · exact ⟨ho, i, key_setSlot_of_locate hl ho⟩

theorem claimants_remove (t : KeyTable) (key : UInt64) :
    (t.remove key).2.claimants = t.claimants := by
  unfold KeyTable.remove
  cases hf : t.find? key with
  | none => rfl
  | some j =>
    obtain ⟨hk, hl, hj⟩ := locate_of_find? hf
    rw [claimants_setSlot hk hl]
    exact Finset.insert_eq_of_mem (mem_claimants.mpr ⟨hk, j, hj⟩)

end MemoryKit.KeyTable
