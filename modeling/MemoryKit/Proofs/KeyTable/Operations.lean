import Mathlib.Data.List.Nodup
import MemoryKit.Proofs.KeyTable.Probing

/-! # What operations do to the values of keys

Storing and removing a value changes the value of one key. The entries of a table are its keys that
have a value, each once, and a table with fewer claimed slots than slots takes any key.
-/

namespace MemoryKit.KeyTable

variable {t t' : KeyTable} {key other value old : UInt64} {i j : Nat}

theorem key_setSlot_of_locate (hl : t.locate key = some j) (hi : (t.slot i).key ≠ nullKey) :
    ((t.setSlot j ⟨key, value⟩).slot i).key = (t.slot i).key := by
  rw [slot_setSlot]
  split
  · next hij =>
    rw [← slot_congr hij] at hi ⊢
    exact ((key_of_locate hl).resolve_right hi).symm
  · rfl

section Store

variable (h : t.IsProbing) (hk : key ≠ nullKey) (hl : t.locate key = some j)

include h hk hl

theorem IsProbing.key_ne_of_locate (hij : j % t.slotCount ≠ i % t.slotCount) :
    (t.slot i).key ≠ key := by
  rintro rfl
  obtain ⟨j', hl', hmod⟩ := h.locate_claimed hk
  cases hl.symm.trans hl'
  exact hij hmod

theorem IsProbing.setSlot (value : UInt64) : (t.setSlot j ⟨key, value⟩).IsProbing where
  vacant i hi := by
    rw [slot_setSlot] at hi ⊢
    split at hi
    · exact absurd hi hk
    · next hij =>
      rw [if_neg hij]
      exact h.vacant i hi
  reached i hi := by
    have hkeep : ∀ e, (t.slot e).key ≠ nullKey →
        ((t.setSlot j ⟨key, value⟩).slot e).key = (t.slot e).key := fun e =>
      key_setSlot_of_locate hl
    simp only [home_setSlot, slotCount_setSlot]
    rw [slot_setSlot] at hi ⊢
    split at hi
    · next hij =>
      obtain ⟨d, hd, rfl, -, hbefore⟩ := seek_eq_some hl
      rw [if_pos hij]
      refine ⟨d, hd, hij, fun e he => ?_⟩
      rw [hkeep _ (hbefore e he).2]
      exact (hbefore e he).2
    · next hij =>
      obtain ⟨d, hd, hmod, hclaimed⟩ := h.reached i hi
      rw [if_neg hij]
      refine ⟨d, hd, hmod, fun e he => ?_⟩
      rw [hkeep _ (hclaimed e he)]
      exact hclaimed e he
  distinct i i' hi he := by
    simp only [slotCount_setSlot]
    simp only [slot_setSlot] at hi he
    split at hi
    · next hij =>
      rw [if_pos hij] at he
      by_cases hij' : j % t.slotCount = i' % t.slotCount
      · exact hij.symm.trans hij'
      · rw [if_neg hij'] at he
        exact absurd he.symm (h.key_ne_of_locate hk hl hij')
    · next hij =>
      rw [if_neg hij] at he
      by_cases hij' : j % t.slotCount = i' % t.slotCount
      · rw [if_pos hij'] at he
        exact absurd he (h.key_ne_of_locate hk hl hij)
      · rw [if_neg hij'] at he
        exact h.distinct i i' hi he

theorem IsProbing.get_setSlot (value other : UInt64) :
    (t.setSlot j ⟨key, value⟩).get other = if other = key then value else t.get other := by
  have h' := h.setSlot hk hl value
  by_cases ho : other = key
  · have hj : (t.setSlot j ⟨key, value⟩).slot j = ⟨key, value⟩ := by
      rw [slot_setSlot, if_pos rfl]
    have hget := h'.get_claimed (i := j) (by rwa [hj])
    rw [hj] at hget
    rw [if_pos ho, ho, hget]
  · rw [if_neg ho]
    by_cases hc : other = nullKey
    · rw [hc, get_nullKey, get_nullKey]
    by_cases hi : ∃ i, (t.slot i).key = other
    · obtain ⟨i, rfl⟩ := hi
      have hij : j % t.slotCount ≠ i % t.slotCount := fun hij => by
        rcases key_of_locate hl with hj | hj <;> rw [slot_congr hij] at hj
        · exact ho hj
        · exact hc hj
      have hslot : (t.setSlot j ⟨key, value⟩).slot i = t.slot i := by
        rw [slot_setSlot, if_neg hij]
      have hget := h'.get_claimed (i := i) (by rwa [hslot])
      rw [hslot] at hget
      rw [hget, h.get_claimed hc]
    · have hi : ∀ i, (t.slot i).key ≠ other := fun i he => hi ⟨i, he⟩
      rw [get_unclaimed hi, get_unclaimed fun i he => ?_]
      rw [slot_setSlot] at he
      split at he
      · exact ho he.symm
      · exact hi i he

end Store

theorem insert_error {e : KeyTableError} (hi : t.insert key value = (.error e, t')) : t' = t := by
  unfold insert at hi
  split at hi <;> cases hi
  rfl

theorem IsProbing.insert (h : t.IsProbing) (hi : t.insert key value = (.ok old, t')) :
    old = t.get key ∧ t'.IsProbing ∧
      ∀ other, t'.get other =
        if other = key ∧ t.get key = nullValue then value else t.get other := by
  unfold KeyTable.insert positionFor at hi
  by_cases hk : key = nullKey
  · rw [if_pos hk] at hi
    cases hi
  · rw [if_neg hk] at hi
    cases hl : t.locate key with
    | none => simp only [hl, Prod.mk.injEq, reduceCtorEq, false_and] at hi
    | some j =>
      simp only [hl, Prod.mk.injEq, Except.ok.injEq] at hi
      obtain ⟨hold, hstate⟩ := hi
      rw [h.value_of_locate hk hl] at hold hstate
      subst hold hstate
      refine ⟨rfl, ?_⟩
      by_cases hv : t.get key = nullValue
      · simp only [hv, if_true, and_true]
        exact ⟨h.setSlot hk hl value, h.get_setSlot hk hl value⟩
      · simp only [hv, if_false, and_false]
        exact ⟨h, fun _ => trivial⟩

theorem IsProbing.remove (h : t.IsProbing) (key : UInt64) :
    (t.remove key).2.IsProbing ∧
      ∀ other, (t.remove key).2.get other = if other = key then nullValue else t.get other := by
  unfold KeyTable.remove
  cases hf : t.find? key with
  | none =>
    refine ⟨h, fun other => ?_⟩
    by_cases ho : other = key
    · simp only [ho, get, hf, if_true]
    · rw [if_neg ho]
  | some j =>
    obtain ⟨hk, hl, -⟩ := locate_of_find? hf
    exact ⟨h.setSlot hk hl nullValue, h.get_setSlot hk hl nullValue⟩

theorem getElem_slots (hi : i < t.slotCount) {hlt : i < 1 <<< t.bits} : t.slots[i] = t.slot i := by
  simp only [slot, Nat.mod_eq_of_lt hi]

theorem IsProbing.mem_entries (h : t.IsProbing) :
    (key, value) ∈ t.entries ↔ value ≠ nullValue ∧ t.get key = value := by
  simp only [entries, List.mem_map, List.mem_filter, mem_slots, Slot.isLive, Bool.and_eq_true,
    bne_iff_ne, Prod.mk.injEq]
  constructor
  · rintro ⟨s, ⟨⟨i, rfl⟩, hk, hv⟩, rfl, rfl⟩
    exact ⟨hv, h.get_claimed hk⟩
  · rintro ⟨hv, rfl⟩
    have hk : key ≠ nullKey := fun hk => hv (hk ▸ t.get_nullKey)
    by_cases hi : ∃ i, (t.slot i).key = key
    · obtain ⟨i, rfl⟩ := hi
      have hget := h.get_claimed hk
      exact ⟨t.slot i, ⟨⟨i, rfl⟩, hk, hget ▸ hv⟩, rfl, hget.symm⟩
    · exact absurd (get_unclaimed fun i he => hi ⟨i, he⟩) hv

theorem IsProbing.pairwise_slots (h : t.IsProbing) :
    t.slots.toList.Pairwise fun s s' => s.key ≠ nullKey → s.key ≠ s'.key := by
  rw [List.pairwise_iff_getElem]
  intro i j hi hj hij hk he
  rw [Vector.length_toList, ← slotCount_eq] at hi hj
  simp only [Vector.getElem_toList] at hk he
  rw [getElem_slots hi] at hk he
  rw [getElem_slots hj] at he
  have hmod := h.distinct i j hk he
  rw [Nat.mod_eq_of_lt hi, Nat.mod_eq_of_lt hj] at hmod
  omega

theorem IsProbing.nodup_entries (h : t.IsProbing) : (t.entries.map Prod.fst).Nodup := by
  rw [entries, List.map_map, List.Nodup, List.pairwise_map, List.pairwise_filter]
  refine h.pairwise_slots.imp fun hne hlive _ => hne ?_
  exact bne_iff_ne.mp (Bool.and_eq_true_iff.mp hlive).1

def claimed (t : KeyTable) : Nat := t.slots.toList.countP Slot.isClaimed

@[simp] theorem claimed_empty (bits : Nat) : (empty bits).claimed = 0 := by
  refine List.countP_eq_zero.mpr fun s hs => ?_
  obtain ⟨i, rfl⟩ := mem_slots.mp hs
  rw [slot_empty]
  decide

theorem claimed_setSlot_le (t : KeyTable) (i : Nat) (s : Slot) :
    (t.setSlot i s).claimed ≤ t.claimed + 1 := by
  have hi : i % t.slotCount < t.slots.toList.length := by
    rw [Vector.length_toList]
    exact t.mod_slotCount_lt i
  rw [claimed, claimed, setSlot, Vector.toList_set, List.countP_set hi]
  split <;> split <;> omega

theorem claimed_of_locate (h : t.locate key = none) : t.claimed = t.slotCount := by
  have hall : t.claimed = t.slots.toList.length := by
    refine List.countP_eq_length.mpr fun s hs => ?_
    obtain ⟨i, rfl⟩ := mem_slots.mp hs
    exact bne_iff_ne.mpr (claimed_of_locate_eq_none h i)
  rw [hall, Vector.length_toList, slotCount_eq]

theorem IsProbing.insert_of_room (h : t.IsProbing) (hk : key ≠ nullKey)
    (hroom : t.claimed < t.slotCount) (value : UInt64) :
    ∃ t', t.insert key value = (.ok (t.get key), t') ∧ t'.claimed ≤ t.claimed + 1 ∧
      t'.slotCount = t.slotCount := by
  cases hl : t.locate key with
  | none => exact absurd (claimed_of_locate hl) (Nat.ne_of_lt hroom)
  | some j =>
    unfold KeyTable.insert positionFor
    simp only [if_neg hk, hl, h.value_of_locate hk hl]
    refine ⟨_, rfl, ?_⟩
    split
    · exact ⟨t.claimed_setSlot_le j _, slotCount_setSlot ..⟩
    · exact ⟨Nat.le_succ _, rfl⟩

end MemoryKit.KeyTable
