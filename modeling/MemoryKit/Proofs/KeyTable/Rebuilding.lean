import MemoryKit.Proofs.KeyTable.Claimed

/-! # Rebuilding a table

Entries with different keys are stored one after the other into a table with room for them. A table
that is rebuilt from its own entries keeps the value of every key, and the keys without a value lose
their slots.
-/

namespace MemoryKit.KeyTable

variable {t t' : KeyTable} {key value old : UInt64} {l : List (UInt64 × UInt64)}

theorem IsProbing.claimants_insert (h : t.IsProbing) (hi : t.insert key value = (.ok old, t')) :
    t'.claimants = Insert.insert key t.claimants := by
  unfold KeyTable.insert positionFor at hi
  by_cases hk : key = nullKey
  · rw [if_pos hk] at hi
    cases hi
  · rw [if_neg hk] at hi
    cases hl : t.locate key with
    | none => simp only [hl, Prod.mk.injEq, reduceCtorEq, false_and] at hi
    | some j =>
      simp only [hl, Prod.mk.injEq, Except.ok.injEq] at hi
      obtain ⟨-, rfl⟩ := hi
      rw [h.value_of_locate hk hl]
      split
      · exact claimants_setSlot hk hl value
      · next hv => rw [Finset.insert_eq_of_mem (mem_claimants_of_get hv)]

def insertAll (t : KeyTable) (l : List (UInt64 × UInt64)) : KeyTable :=
  l.foldl (fun t e => (t.insert e.1 e.2).2) t

theorem IsProbing.insertAll (h : t.IsProbing) (hl : (l.map Prod.fst).Nodup)
    (hkeys : ∀ e ∈ l, e.1 ≠ nullKey ∧ t.get e.1 = nullValue)
    (hroom : t.claimed + l.length ≤ t.slotCount) :
    (t.insertAll l).IsProbing ∧ (∀ e ∈ l, (t.insertAll l).get e.1 = e.2) ∧
      (∀ key, key ∉ l.map Prod.fst → (t.insertAll l).get key = t.get key) ∧
      (t.insertAll l).claimants = t.claimants ∪ (l.map Prod.fst).toFinset ∧
      (t.insertAll l).slotCount = t.slotCount := by
  induction l generalizing t with
  | nil => exact ⟨h, nofun, fun _ _ => rfl, (Finset.union_empty _).symm, rfl⟩
  | cons e l ih =>
    obtain ⟨key, value⟩ := e
    obtain ⟨hkey, hl⟩ := List.nodup_cons.mp hl
    obtain ⟨hk, hnull⟩ := hkeys _ List.mem_cons_self
    rw [List.length_cons] at hroom
    obtain ⟨t', hi, hclaimed, hcount⟩ := h.insert_of_room hk (by omega) value
    obtain ⟨-, h', hget⟩ := h.insert hi
    simp only [hnull, and_true] at hget
    have hne : ∀ e ∈ l, e.1 ≠ key := fun e he hek => hkey (List.mem_map.mpr ⟨e, he, hek⟩)
    obtain ⟨hprobing, hvalues, hothers, hclaimants, hslots⟩ := ih h' hl
      (fun e he => ⟨(hkeys e (List.mem_cons_of_mem _ he)).1, by
        rw [hget, if_neg (hne e he), (hkeys e (List.mem_cons_of_mem _ he)).2]⟩) (by omega)
    have hstep : t.insertAll ((key, value) :: l) = t'.insertAll l := by
      rw [KeyTable.insertAll, List.foldl_cons, hi]
      rfl
    rw [hstep]
    refine ⟨hprobing, ?_, ?_, ?_, hslots.trans hcount⟩
    · intro e he
      rcases List.mem_cons.mp he with rfl | he
      · exact (hothers key hkey).trans (by rw [hget, if_pos rfl])
      · exact hvalues e he
    · intro other ho
      rw [List.map_cons, List.mem_cons, not_or] at ho
      exact (hothers other ho.2).trans (by rw [hget, if_neg ho.1])
    · rw [hclaimants, h.claimants_insert hi, List.map_cons, List.toFinset_cons,
        Finset.union_insert, Finset.insert_union]

/-- As long as a key has no slot, its search ends where that for a vacant slot ends. -/
theorem seek_nullKey (h : ∀ i, (t.slot i).key ≠ key) (i steps : Nat) :
    t.seek nullKey i steps = t.seek key i steps := by
  induction steps generalizing i with
  | zero => rfl
  | succ steps ih => simp only [seek, or_self, h i, false_or, ih]

theorem IsProbing.place_eq (h : t.IsProbing) (hk : key ≠ nullKey) (hn : key ∉ t.claimants)
    (value : UInt64) : t.place key value = (t.insert key value).2 := by
  have hkey := key_ne_of_notMem hk hn
  unfold place KeyTable.insert positionFor
  rw [seek_nullKey hkey, if_neg hk, ← locate]
  cases hl : t.locate key with
  | none => rfl
  | some j => simp only [h.value_of_locate hk hl, get_unclaimed hkey, if_true]

theorem IsProbing.foldl_place (h : t.IsProbing) (hl : (l.map Prod.fst).Nodup)
    (hkeys : ∀ e ∈ l, e.1 ≠ nullKey ∧ e.1 ∉ t.claimants)
    (hroom : t.claimed + l.length ≤ t.slotCount) :
    l.foldl (fun t e => t.place e.1 e.2) t = t.insertAll l := by
  induction l generalizing t with
  | nil => rfl
  | cons e l ih =>
    obtain ⟨key, value⟩ := e
    obtain ⟨hkey, hl⟩ := List.nodup_cons.mp hl
    obtain ⟨hk, hn⟩ := hkeys _ List.mem_cons_self
    rw [List.length_cons] at hroom
    obtain ⟨t', hi, hclaimed, hcount⟩ := h.insert_of_room hk (by omega) value
    have hplace : t.place key value = t' := by rw [h.place_eq hk hn, hi]
    have hstep : t.insertAll ((key, value) :: l) = t'.insertAll l := by
      rw [KeyTable.insertAll, List.foldl_cons, hi]
      rfl
    rw [List.foldl_cons, hplace, hstep]
    refine ih (h.insert hi).2.1 hl (fun e he => ?_) (by omega)
    obtain ⟨he', hn'⟩ := hkeys e (List.mem_cons_of_mem _ he)
    refine ⟨he', ?_⟩
    rw [h.claimants_insert hi, Finset.mem_insert, not_or]
    exact ⟨fun hek => hkey (List.mem_map.mpr ⟨e, he, hek⟩), hn'⟩

theorem length_entries_le (t : KeyTable) : t.entries.length ≤ t.slotCount := by
  rw [entries, List.length_map, slotCount_eq]
  exact Nat.le_trans (List.length_filter_le ..) (Nat.le_of_eq Vector.length_toList)

theorem ne_nullKey_of_mem_entries (h : t.IsProbing) {e : UInt64 × UInt64} (he : e ∈ t.entries) :
    e.1 ≠ nullKey := by
  intro hk
  obtain ⟨hv, hget⟩ := h.mem_entries.mp he
  rw [hk, get_nullKey] at hget
  exact hv hget.symm

theorem IsProbing.insertAll_entries (h : t.IsProbing) :
    ((empty t.bits).insertAll t.entries).IsProbing ∧
      (∀ key, ((empty t.bits).insertAll t.entries).get key = t.get key) ∧
      ((empty t.bits).insertAll t.entries).claimants =
        t.claimants.filter (t.get · ≠ nullValue) ∧
      ((empty t.bits).insertAll t.entries).slotCount = t.slotCount := by
  have hcount : (empty t.bits).slotCount = t.slotCount := by simp only [slotCount_eq, empty]
  obtain ⟨hprobing, hvalues, hothers, hclaimants, hslots⟩ :=
    (isProbing_empty t.bits).insertAll h.nodup_entries
      (fun e he => ⟨ne_nullKey_of_mem_entries h he, get_empty ..⟩)
      (by rw [claimed_empty, Nat.zero_add, hcount]; exact t.length_entries_le)
  refine ⟨hprobing, ?_, ?_, hslots.trans hcount⟩
  · intro key
    by_cases hv : t.get key = nullValue
    · refine (hothers key fun hk => ?_).trans ((get_empty ..).trans hv.symm)
      obtain ⟨⟨_, value⟩, he, rfl⟩ := List.mem_map.mp hk
      obtain ⟨hne, hg⟩ := h.mem_entries.mp he
      exact hne (hg.symm.trans hv)
    · exact hvalues (key, t.get key) (h.mem_entries.mpr ⟨hv, rfl⟩)
  · rw [hclaimants, claimants_empty, Finset.empty_union]
    ext key
    rw [List.mem_toFinset, List.mem_map, Finset.mem_filter]
    constructor
    · rintro ⟨⟨_, value⟩, he, rfl⟩
      obtain ⟨hv, rfl⟩ := h.mem_entries.mp he
      exact ⟨mem_claimants_of_get hv, hv⟩
    · rintro ⟨-, hv⟩
      exact ⟨(key, t.get key), h.mem_entries.mpr ⟨hv, rfl⟩, rfl⟩

theorem get_cursor (t : KeyTable) (cursor : Nat) (key : UInt64) :
    ({ t with cursor } : KeyTable).get key = t.get key := by
  have hseek : ∀ i steps, ({ t with cursor } : KeyTable).seek key i steps = t.seek key i steps := by
    intro i steps
    induction steps generalizing i with
    | zero => rfl
    | succ steps ih =>
      rw [seek, seek, ih]
      rfl
  unfold get find? locate
  rw [hseek]
  rfl

theorem IsProbing.reclaim (h : t.IsProbing) :
    t.reclaim.state.IsProbing ∧ (∀ key, t.reclaim.state.get key = t.get key) ∧
      t.reclaim.state.claimants = t.claimants.filter (t.get · ≠ nullValue) ∧
      t.reclaim.state.slotCount = t.slotCount ∧ t.reclaim.answer = t.tombstones := by
  unfold KeyTable.reclaim
  dsimp only
  split
  · next hcount =>
    refine ⟨h, fun _ => rfl, ?_, rfl, hcount.symm⟩
    rw [h.tombstones_eq, Finset.card_eq_zero, Finset.filter_eq_empty_iff] at hcount
    exact (Finset.filter_true_of_mem fun _ hk => hcount hk).symm
  · have hroom : (empty t.bits).claimed + t.entries.length ≤ (empty t.bits).slotCount := by
      rw [claimed_empty, Nat.zero_add, slotCount_eq, show (empty t.bits).bits = t.bits from rfl,
        ← slotCount_eq]
      exact t.length_entries_le
    rw [(isProbing_empty t.bits).foldl_place h.nodup_entries
      (fun e he => ⟨ne_nullKey_of_mem_entries h he, by simp⟩) hroom]
    obtain ⟨hprobing, hget, hclaimants, hslots⟩ := h.insertAll_entries
    exact ⟨⟨hprobing.vacant, hprobing.reached, hprobing.distinct⟩,
      fun key => (get_cursor ..).trans (hget key), hclaimants, hslots, rfl⟩

end MemoryKit.KeyTable
