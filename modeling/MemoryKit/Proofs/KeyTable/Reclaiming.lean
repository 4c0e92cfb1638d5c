import MemoryKit.Proofs.KeyTable.Tombstones

/-! # Reclaiming slots

A table is rebuilt from its entries, which are put into the first vacant slots for them, one after
the other. The search for a vacant slot has no bound of its own: it ends because fewer entries were
put back than there are slots. Afterwards no slot is claimed without a value, and searches are as
short as the order of the entries allows.
-/

namespace MemoryKit.KeyTable

variable {t t' : KeyTable} {key value : UInt64} {front : List (UInt64 × UInt64)} {i j steps : Nat}

/-- A search that goes on from slot to slot until it comes to a vacant one. -/
inductive Reaches (t : KeyTable) : Nat → Nat → Prop where
  | vacant {i : Nat} : (t.slot i).key = nullKey → Reaches t i i
  | next {i j : Nat} : (t.slot i).key ≠ nullKey → Reaches t (i + 1) j → Reaches t i j

theorem reaches_of_seek (h : t.seek nullKey i steps = some j) : t.Reaches i j := by
  induction steps generalizing i with
  | zero => cases h
  | succ steps ih =>
    simp only [seek, or_self] at h
    split at h
    · next hi =>
      cases h
      exact .vacant hi
    · next hi => exact .next hi (ih h)

theorem exists_vacant (hn : ∀ i, (t.slot i).key ≠ key) (hroom : t.claimed < t.slotCount) :
    ∃ j, t.Reaches (t.home key) j ∧ ∀ value, t.place key value = t.setSlot j ⟨key, value⟩ := by
  cases hs : t.seek nullKey (t.home key) t.slotCount with
  | none =>
    rw [seek_nullKey hn] at hs
    exact absurd (claimed_of_locate hs) (Nat.ne_of_lt hroom)
  | some j =>
    refine ⟨j, reaches_of_seek hs, fun value => ?_⟩
    rw [place, hs]

def rebuilt (t : KeyTable) (l : List (UInt64 × UInt64)) : KeyTable :=
  l.foldl (fun r e => r.place e.1 e.2) (empty t.bits)

theorem rebuilt_append_singleton (t : KeyTable) (l : List (UInt64 × UInt64))
    (e : UInt64 × UInt64) : t.rebuilt (l ++ [e]) = (t.rebuilt l).place e.1 e.2 := by
  rw [rebuilt, List.foldl_append]
  rfl

theorem IsProbing.rebuilt_spec (h : t.IsProbing) (hfront : front <+: t.entries) :
    (t.rebuilt front).IsProbing ∧
      (t.rebuilt front).claimants = (front.map Prod.fst).toFinset ∧
      (t.rebuilt front).claimed = front.length ∧ (t.rebuilt front).slotCount = t.slotCount := by
  have hcount : (empty t.bits).slotCount = t.slotCount := by simp only [slotCount_eq, empty]
  have hnodup : (front.map Prod.fst).Nodup := h.nodup_entries.sublist (hfront.sublist.map _)
  have hkeys : ∀ e ∈ front, e.1 ≠ nullKey := fun e he =>
    ne_nullKey_of_mem_entries h (hfront.subset he)
  have hroom : (empty t.bits).claimed + front.length ≤ (empty t.bits).slotCount := by
    rw [claimed_empty, Nat.zero_add, hcount]
    exact Nat.le_trans hfront.length_le t.length_entries_le
  obtain ⟨hprobing, -, -, hclaimants, hslots⟩ := (isProbing_empty t.bits).insertAll hnodup
    (fun e he => ⟨hkeys e he, get_empty ..⟩) hroom
  rw [claimants_empty, Finset.empty_union] at hclaimants
  rw [rebuilt, (isProbing_empty t.bits).foldl_place hnodup (fun e he => ⟨hkeys e he, by simp⟩)
    hroom]
  refine ⟨hprobing, hclaimants, ?_, hslots.trans hcount⟩
  rw [← hprobing.card_claimants, hclaimants, List.toFinset_card_of_nodup hnodup, List.length_map]

theorem IsProbing.exists_vacant_rebuilt (h : t.IsProbing) {e : UInt64 × UInt64}
    {back : List (UInt64 × UInt64)} (he : t.entries = front ++ e :: back) :
    ∃ j, (t.rebuilt front).Reaches ((t.rebuilt front).home e.1) j ∧
      t.rebuilt (front ++ [e]) = (t.rebuilt front).setSlot j ⟨e.1, e.2⟩ := by
  obtain ⟨-, hclaimants, hclaimed, hslots⟩ := h.rebuilt_spec ⟨e :: back, he.symm⟩
  have hnodup := h.nodup_entries
  rw [he, List.map_append, List.map_cons] at hnodup
  have hnew : e.1 ∉ (t.rebuilt front).claimants := by
    rw [hclaimants, List.mem_toFinset]
    exact fun hmem => List.disjoint_of_nodup_append hnodup hmem List.mem_cons_self
  have hk : e.1 ≠ nullKey := ne_nullKey_of_mem_entries h (by simp [he])
  have hlen := t.length_entries_le
  rw [he, List.length_append, List.length_cons] at hlen
  obtain ⟨j, hreach, hplace⟩ := exists_vacant (key_ne_of_notMem hk hnew)
    (show (t.rebuilt front).claimed < (t.rebuilt front).slotCount by omega)
  exact ⟨j, hreach, (t.rebuilt_append_singleton front e).trans (hplace e.2)⟩

/-- Slots are claimed by keys with a value only, and no search for one of them is interrupted. -/
structure IsCompact (t : KeyTable) : Prop where
  live : ∀ i, (t.slot i).key ≠ nullKey → (t.slot i).value ≠ nullValue
  /-- A key with a value has one slot. -/
  once : ∀ key, t.get key ≠ nullValue → ∃! i, i < t.slotCount ∧ (t.slot i).key = key
  /-- All slots between the home of a key and its own are claimed. -/
  reached : ∀ i, (t.slot i).key ≠ nullKey → ∃ d < t.slotCount,
    (t.home (t.slot i).key + d) % t.slotCount = i % t.slotCount ∧
      ∀ e < d, (t.slot (t.home (t.slot i).key + e)).key ≠ nullKey

theorem IsProbing.isCompact (h : t.IsProbing) (hnone : t.tombstones = 0) : t.IsCompact where
  live i hi hv := by
    rw [h.tombstones_eq, Finset.card_eq_zero, Finset.filter_eq_empty_iff] at hnone
    apply hnone (mem_claimants.mpr ⟨hi, i, rfl⟩)
    rw [h.get_claimed hi, hv]
  once key hv := by
    obtain ⟨hk, i, rfl⟩ := mem_claimants.mp (mem_claimants_of_get hv)
    refine ⟨i % t.slotCount, ⟨Nat.mod_lt _ t.slotCount_pos, by rw [slot_mod]⟩, ?_⟩
    rintro j ⟨hj, he⟩
    rw [← Nat.mod_eq_of_lt hj]
    exact (h.distinct i j hk he.symm).symm
  reached := h.reached

theorem IsProbing.tombstones_reclaim (h : t.IsProbing) : t.reclaim.state.tombstones = 0 := by
  obtain ⟨hprobing, hget, hclaimants, -⟩ := h.reclaim
  rw [hprobing.tombstones_eq, hclaimants, Finset.card_eq_zero, Finset.filter_eq_empty_iff]
  intro key hk
  rw [hget]
  exact (Finset.mem_filter.mp hk).2

theorem reclaim_of_tombstones (hnone : t.tombstones = 0) : t.reclaim = .quiet 0 t := if_pos hnone

/--
Whatever was done with a table, every entry finds a vacant slot when the table is rebuilt. The
answer is the number of keys that hold a slot without a value, all keys keep their values, and the
table that is left is compact, so that doing it again changes nothing.
-/
theorem reclaim_compacts {capacity : Nat} (h : withCapacity capacity = .ok t)
    (calls : List Call) :
    let used := t.after calls
    (∀ front e back, used.entries = front ++ e :: back →
      ∃ j, (used.rebuilt front).Reaches ((used.rebuilt front).home e.1) j ∧
        used.rebuilt (front ++ [e]) = (used.rebuilt front).setSlot j ⟨e.1, e.2⟩) ∧
    (used.tombstones ≠ 0 →
      used.reclaim.state = { used.rebuilt used.entries with cursor := used.cursor }) ∧
    used.reclaim.answer = (used.claimants.filter (used.get · = nullValue)).card ∧
    (∀ key, used.reclaim.state.get key = used.get key) ∧
    used.reclaim.state.IsCompact ∧
    used.reclaim.state.reclaim = .quiet 0 used.reclaim.state := by
  intro used
  obtain ⟨hnew, -⟩ := isProbing_of_withCapacity h
  have hused : used.IsProbing := (hnew.after_spec calls).1
  obtain ⟨hprobing, hget, -, -, hanswer⟩ := hused.reclaim
  refine ⟨fun front e back he => hused.exists_vacant_rebuilt he, ?_, ?_, hget,
    hprobing.isCompact hused.tombstones_reclaim, reclaim_of_tombstones hused.tombstones_reclaim⟩
  · intro hsome
    unfold KeyTable.reclaim
    dsimp only
    rw [if_neg hsome]
    rfl
  · exact hanswer.trans hused.tombstones_eq

/-- All slots are claimed by keys whose searches begin at the last one, and two are removed. -/
def wrappedCalls : List Call :=
  (List.range 8).map (fun i => .set (7 + 8 * .ofNat i) (.ofNat i)) ++ [.remove 7, .remove 31]

theorem reclaim_compacts_wrapped :
    withCapacity 3 = .ok (empty 3) ∧ ((empty 3).after wrappedCalls).claimed = 8 ∧
      ((empty 3).after wrappedCalls).reclaim.answer = 2 ∧
      ((empty 3).after wrappedCalls).reclaim.state.get 63 = 7 ∧
      ((empty 3).after wrappedCalls).reclaim.state.IsCompact := by
  have h : withCapacity 3 = .ok (empty 3) := rfl
  obtain ⟨-, -, hanswer, hget, hcompact, -⟩ := reclaim_compacts h wrappedCalls
  refine ⟨h, by decide +kernel, ?_, ?_, hcompact⟩
  · rw [hanswer]
    decide +kernel
  · rw [hget]
    decide +kernel

end MemoryKit.KeyTable
