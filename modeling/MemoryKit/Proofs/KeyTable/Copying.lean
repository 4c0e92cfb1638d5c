import MemoryKit.Proofs.KeyTable.Migration

/-! # Copying stretches of a table

A call that copies entries without a failure copies those of a stretch of slots, from the cursor on.
How long the stretch is depends on the limit, but what comes of it does not depend on where one call
ends and the next one begins: stretches that follow each other are one stretch.
-/

namespace MemoryKit.KeyTable

variable {s t s' t' source target : KeyTable} {key value : UInt64}
  {l l' : List (UInt64 × UInt64)} {limit moved moved' steps i n m : Nat}

/-- The entries of `n` slots from a position on. -/
def stretch (t : KeyTable) (i n : Nat) : List (UInt64 × UInt64) :=
  (((t.slots.toList.drop i).take n).filter Slot.isLive).map fun s => (s.key, s.value)

theorem stretch_zero (t : KeyTable) (i : Nat) : t.stretch i 0 = [] := by
  rw [stretch, List.take_zero]
  rfl

theorem stretch_succ (hi : i < t.slotCount) (n : Nat) : t.stretch i (n + 1) =
    if (t.slot i).isLive then ((t.slot i).key, (t.slot i).value) :: t.stretch (i + 1) n
    else t.stretch (i + 1) n := by
  have hlt : i < t.slots.toList.length := by
    rwa [Vector.length_toList, ← slotCount_eq]
  have hslot : t.slots.toList[i] = t.slot i := by
    rw [Vector.getElem_toList, getElem_slots hi]
  rw [stretch, List.drop_eq_getElem_cons hlt, hslot, List.take_succ_cons, List.filter_cons]
  split <;> rfl

theorem stretch_add (t : KeyTable) (i n m : Nat) :
    t.stretch i (n + m) = t.stretch i n ++ t.stretch (i + n) m := by
  simp only [stretch, List.take_add, List.drop_drop, List.filter_append, List.map_append]

theorem stretch_slotCount (t : KeyTable) : t.stretch 0 t.slotCount = t.entries := by
  have hlen : t.slots.toList.length = t.slotCount := by rw [Vector.length_toList, slotCount_eq]
  rw [stretch, List.drop_zero, ← hlen, List.take_length]
  rfl

theorem entries_eq_stretches (hin : i + n ≤ t.slotCount) : t.entries =
    t.stretch 0 i ++ (t.stretch i n ++ t.stretch (i + n) (t.slotCount - (i + n))) := by
  have hlast := t.stretch_add i n (t.slotCount - (i + n))
  have hfirst := t.stretch_add 0 i (n + (t.slotCount - (i + n)))
  rw [← stretch_slotCount, ← hlast]
  rw [Nat.zero_add] at hfirst
  rw [← hfirst]
  congr 1
  omega

theorem mem_entries_of_stretch (hin : i + n ≤ t.slotCount) {e : UInt64 × UInt64}
    (he : e ∈ t.stretch i n) : e ∈ t.entries := by
  rw [entries_eq_stretches hin]
  exact List.mem_append_right _ (List.mem_append_left _ he)

theorem length_stretch_le (hin : i + n ≤ t.slotCount) : (t.stretch i n).length ≤ t.size := by
  rw [size, entries_eq_stretches hin, List.length_append, List.length_append]
  omega

theorem IsProbing.nodup_stretch (h : t.IsProbing) (hin : i + n ≤ t.slotCount) :
    ((t.stretch i n).map Prod.fst).Nodup := by
  have hnodup := h.nodup_entries
  rw [entries_eq_stretches hin, List.map_append, List.map_append] at hnodup
  exact (List.nodup_append.mp (List.nodup_append.mp hnodup).2.1).1

theorem IsProbing.get_of_notMem_entries (h : t.IsProbing) (hkey : key ∉ t.entries.map Prod.fst) :
    t.get key = nullValue := by
  by_contra hv
  exact hkey (List.mem_map_of_mem (h.mem_entries.mpr ⟨hv, rfl⟩))

/-- The entries of a list are stored one after the other, and each one is accepted. -/
def Takes (t : KeyTable) : List (UInt64 × UInt64) → Prop
  | [] => True
  | e :: l => (∃ old, (t.insert e.1 e.2).1 = .ok old) ∧ Takes (t.insert e.1 e.2).2 l

theorem takes_append : t.Takes (l ++ l') ↔ t.Takes l ∧ (t.insertAll l).Takes l' := by
  induction l generalizing t with
  | nil => exact ⟨fun h => ⟨trivial, h⟩, And.right⟩
  | cons e l ih =>
    rw [List.cons_append, Takes, Takes, ih, and_assoc]
    rfl

section

variable (h : t.IsProbing)

include h

theorem IsProbing.card_claimants_le : t.claimants.card ≤ t.slotCount := by
  rw [h.card_claimants]
  refine Nat.le_trans List.countP_le_length ?_
  rw [Vector.length_toList, slotCount_eq]

theorem IsProbing.insert_isOk_iff (value : UInt64) :
    (∃ old, (t.insert key value).1 = .ok old) ↔
      key ≠ nullKey ∧ (Insert.insert key t.claimants).card ≤ t.slotCount := by
  have hle := h.card_claimants_le
  rw [(h.insert_spec key value).1, Contents.stored, Contents.refusal?]
  by_cases hk : key = nullKey
  · simp only [hk, ne_eq, not_true_eq_false, false_and, iff_false]
    rintro ⟨old, ⟨⟩⟩
  rw [if_neg hk]
  by_cases hmem : key ∈ t.claimants
  · rw [if_neg (fun hfull => hfull.1 hmem), Finset.insert_eq_of_mem hmem]
    exact ⟨fun _ => ⟨hk, hle⟩, fun _ => ⟨_, rfl⟩⟩
  · rw [Finset.card_insert_of_notMem hmem]
    by_cases hfull : t.claimants.card = t.slotCount
    · rw [if_pos ⟨hmem, hfull⟩]
      constructor
      · rintro ⟨old, ⟨⟩⟩
      · omega
    · rw [if_neg (fun hc => hfull hc.2)]
      exact ⟨fun _ => ⟨hk, by omega⟩, fun _ => ⟨_, rfl⟩⟩

theorem IsProbing.claimants_insert_union {e : UInt64 × UInt64} {old : UInt64}
    (hi : t.insert e.1 e.2 = (.ok old, t')) (l : List (UInt64 × UInt64)) :
    t'.claimants ∪ (l.map Prod.fst).toFinset =
      t.claimants ∪ ((e :: l).map Prod.fst).toFinset := by
  rw [h.claimants_insert hi, List.map_cons, List.toFinset_cons, Finset.union_insert,
    Finset.insert_union]

/-- Whether all entries are accepted depends on their keys only, and not on their order. -/
theorem IsProbing.takes_iff :
    t.Takes l ↔ (∀ e ∈ l, e.1 ≠ nullKey) ∧
      (t.claimants ∪ (l.map Prod.fst).toFinset).card ≤ t.slotCount := by
  induction l generalizing t with
  | nil =>
    rw [List.map_nil, List.toFinset_nil, Finset.union_empty]
    exact ⟨fun _ => ⟨nofun, h.card_claimants_le⟩, fun _ => trivial⟩
  | cons e l ih =>
    have hslots := (h.insert_spec e.1 e.2).2.2.1
    have hrest (old : UInt64) (hold : (t.insert e.1 e.2).1 = .ok old) :
        (t.insert e.1 e.2).2.Takes l ↔ (∀ e ∈ l, e.1 ≠ nullKey) ∧
          (t.claimants ∪ ((e :: l).map Prod.fst).toFinset).card ≤ t.slotCount := by
      have hi : t.insert e.1 e.2 = (.ok old, (t.insert e.1 e.2).2) := Prod.ext hold rfl
      rw [ih (h.insert hi).2.1, h.claimants_insert_union hi, hslots]
    rw [Takes, List.forall_mem_cons]
    constructor
    · rintro ⟨⟨old, hold⟩, htakes⟩
      obtain ⟨hkeys, hcard⟩ := (hrest old hold).mp htakes
      exact ⟨⟨((h.insert_isOk_iff e.2).mp ⟨old, hold⟩).1, hkeys⟩, hcard⟩
    · rintro ⟨⟨hk, hkeys⟩, hcard⟩
      have hroom : (Insert.insert e.1 t.claimants).card ≤ t.slotCount := by
        refine Nat.le_trans (Finset.card_le_card ?_) hcard
        rw [List.map_cons, List.toFinset_cons, Finset.union_insert]
        exact Finset.insert_subset_insert _ Finset.subset_union_left
      obtain ⟨old, hold⟩ := (h.insert_isOk_iff e.2).mpr ⟨hk, hroom⟩
      exact ⟨⟨old, hold⟩, (hrest old hold).mpr ⟨hkeys, hcard⟩⟩

theorem IsProbing.insertAll_of_takes (htakes : t.Takes l) (hl : (l.map Prod.fst).Nodup) :
    (t.insertAll l).IsProbing ∧ (t.insertAll l).slotCount = t.slotCount ∧
      (t.insertAll l).claimants = t.claimants ∪ (l.map Prod.fst).toFinset ∧
      (∀ e ∈ l, (t.insertAll l).get e.1 = if t.get e.1 = nullValue then e.2 else t.get e.1) ∧
      ∀ key, key ∉ l.map Prod.fst → (t.insertAll l).get key = t.get key := by
  induction l generalizing t with
  | nil => exact ⟨h, rfl, (Finset.union_empty _).symm, nofun, fun _ _ => rfl⟩
  | cons e l ih =>
    obtain ⟨⟨old, hold⟩, htakes⟩ := htakes
    obtain ⟨hnew, hl⟩ := List.nodup_cons.mp hl
    have hi : t.insert e.1 e.2 = (.ok old, (t.insert e.1 e.2).2) := Prod.ext hold rfl
    obtain ⟨-, hprobing, hget⟩ := h.insert hi
    have hslots := (h.insert_spec e.1 e.2).2.2.1
    obtain ⟨hprobing', hslots', hclaimants, hvalues, hothers⟩ := ih hprobing htakes hl
    refine ⟨hprobing', hslots'.trans hslots, hclaimants.trans (h.claimants_insert_union hi l), ?_,
      ?_⟩
    · intro e' he'
      rcases List.mem_cons.mp he' with rfl | he'
      · refine (hothers e'.1 hnew).trans ?_
        rw [hget]
        simp only [true_and]
      · have hne : e'.1 ≠ e.1 := fun he => hnew (he ▸ List.mem_map_of_mem he')
        refine (hvalues e' he').trans ?_
        rw [hget e'.1]
        simp only [hne, false_and, if_false]
    · intro key hkey
      rw [List.map_cons, List.mem_cons, not_or] at hkey
      refine (hothers key hkey.2).trans ?_
      rw [hget key, if_neg]
      exact fun he => hkey.1 he.1

theorem IsProbing.insertAll_stretch (hs : s.IsProbing) (hin : i + n ≤ s.slotCount)
    (htakes : t.Takes (s.stretch i n)) :
    (t.insertAll (s.stretch i n)).IsProbing ∧
      (t.insertAll (s.stretch i n)).slotCount = t.slotCount ∧
      t.claimants ⊆ (t.insertAll (s.stretch i n)).claimants ∧
      ∀ key, (t.insertAll (s.stretch i n)).get key =
        if t.get key = nullValue ∧ key ∈ (s.stretch i n).map Prod.fst then s.get key
        else t.get key := by
  obtain ⟨hprobing, hslots, hclaimants, hvalues, hothers⟩ :=
    h.insertAll_of_takes htakes (hs.nodup_stretch hin)
  refine ⟨hprobing, hslots, hclaimants ▸ Finset.subset_union_left, fun key => ?_⟩
  by_cases hmem : key ∈ (s.stretch i n).map Prod.fst
  · obtain ⟨e, he, rfl⟩ := List.mem_map.mp hmem
    have hvalue : s.get e.1 = e.2 := (hs.mem_entries.mp (mem_entries_of_stretch hin he)).2
    rw [hvalues e he, hvalue]
    simp only [hmem, and_true]
  · rw [hothers key hmem, if_neg]
    exact fun hc => hmem hc.2

theorem IsProbing.get_insertAll_entries (hs : s.IsProbing) (htakes : t.Takes s.entries)
    (key : UInt64) : (t.insertAll s.entries).get key =
      if t.get key = nullValue then s.get key else t.get key := by
  have hall : 0 + s.slotCount ≤ s.slotCount := Nat.le_of_eq (Nat.zero_add _)
  rw [← stretch_slotCount] at htakes ⊢
  obtain ⟨-, -, -, hget⟩ := h.insertAll_stretch hs hall htakes
  rw [hget, stretch_slotCount]
  by_cases hmem : key ∈ s.entries.map Prod.fst
  · simp only [hmem, and_true]
  · simp only [hmem, and_false, if_false, hs.get_of_notMem_entries hmem]
    split
    · assumption
    · rfl

end

structure Copies (s t : KeyTable) (n : Nat) (s' t' : KeyTable) : Prop where
  source_eq : s' = { s with cursor := s.cursor + n }
  takes : t.Takes (s.stretch s.cursor n)
  target_eq : t' = t.insertAll (s.stretch s.cursor n)

theorem copies_zero (s t : KeyTable) : Copies s t 0 s t where
  source_eq := rfl
  takes := by
    rw [stretch_zero]
    trivial
  target_eq := by
    rw [stretch_zero]
    rfl

section

variable (hlt : s.cursor < s.slotCount)

include hlt

theorem stretch_of_not_isLive (hlive : (s.slot s.cursor).isLive = false) (n : Nat) :
    s.stretch s.cursor (n + 1) = s.stretch (s.cursor + 1) n := by
  rw [stretch_succ hlt, hlive]
  rfl

theorem stretch_of_isLive (hlive : (s.slot s.cursor).isLive = true) (n : Nat) :
    s.stretch s.cursor (n + 1) =
      ((s.slot s.cursor).key, (s.slot s.cursor).value) :: s.stretch (s.cursor + 1) n := by
  rw [stretch_succ hlt, hlive]
  rfl

theorem Copies.skip (hlive : (s.slot s.cursor).isLive = false)
    (h : Copies { s with cursor := s.cursor + 1 } t n s' t') : Copies s t (n + 1) s' t' := by
  obtain ⟨rfl, htakes, rfl⟩ := h
  refine ⟨?_, ?_, ?_⟩
  · rw [Nat.add_right_comm]
    rfl
  · rw [stretch_of_not_isLive hlt hlive]
    exact htakes
  · rw [stretch_of_not_isLive hlt hlive]
    rfl

theorem Copies.take (hlive : (s.slot s.cursor).isLive = true) {old : UInt64} {next : KeyTable}
    (hi : t.insert (s.slot s.cursor).key (s.slot s.cursor).value = (.ok old, next))
    (h : Copies { s with cursor := s.cursor + 1 } next n s' t') : Copies s t (n + 1) s' t' := by
  obtain rfl : (t.insert (s.slot s.cursor).key (s.slot s.cursor).value).2 = next :=
    congrArg Prod.snd hi
  obtain ⟨rfl, htakes, rfl⟩ := h
  refine ⟨?_, ?_, ?_⟩
  · rw [Nat.add_right_comm]
    rfl
  · rw [stretch_of_isLive hlt hlive]
    exact ⟨⟨old, congrArg Prod.fst hi⟩, htakes⟩
  · rw [stretch_of_isLive hlt hlive]
    rfl

end

/--
A call that does not fail copies the entries of a stretch, which ends early only if the limit was
reached.
-/
theorem migrateLoop_ok (hc : s.cursor + steps ≤ s.slotCount)
    (hok : migrateLoop s t moved limit steps = (.ok moved', s', t')) :
    ∃ n ≤ steps, Copies s t n s' t' ∧ moved' = moved + (s.stretch s.cursor n).length ∧
      (n < steps → limit ≤ moved') ∧ (moved ≤ limit → moved' ≤ limit) := by
  induction steps generalizing s t moved with
  | zero =>
    cases hok
    exact ⟨0, Nat.le_refl _, copies_zero .., by rw [stretch_zero]; rfl, nofun, id⟩
  | succ steps ih =>
    have hlt : s.cursor < s.slotCount := by omega
    have hnext : s.cursor + 1 + steps ≤ s.slotCount := by omega
    rw [migrateLoop] at hok
    by_cases hlimit : limit ≤ moved
    · rw [if_pos hlimit] at hok
      cases hok
      exact ⟨0, Nat.zero_le _, copies_zero .., by rw [stretch_zero]; rfl, fun _ => hlimit, id⟩
    rw [if_neg hlimit] at hok
    cases hlive : (s.slot s.cursor).isLive with
    | false =>
      simp only [hlive, Bool.false_eq_true, if_false] at hok
      obtain ⟨n, hn, hcopies, hmoved, hearly, hle⟩ := ih hnext hok
      refine ⟨n + 1, by omega, hcopies.skip hlt hlive, ?_, fun h => hearly (by omega), hle⟩
      rw [stretch_of_not_isLive hlt hlive]
      exact hmoved
    | true =>
      simp only [hlive, if_true] at hok
      cases hi : t.insert (s.slot s.cursor).key (s.slot s.cursor).value with
      | mk answer next =>
        rw [hi] at hok
        cases answer with
        | error e => cases hok
        | ok old =>
          obtain ⟨n, hn, hcopies, hmoved, hearly, hle⟩ := ih hnext hok
          change moved' = moved + 1 + (s.stretch (s.cursor + 1) n).length at hmoved
          refine ⟨n + 1, by omega, hcopies.take hlt hlive hi, ?_, fun h => hearly (by omega),
            fun _ => hle (by omega)⟩
          rw [stretch_of_isLive hlt hlive, List.length_cons]
          omega

theorem migrateLoop_isOk (hc : s.cursor + steps ≤ s.slotCount)
    (htakes : t.Takes (s.stretch s.cursor steps)) (moved limit : Nat) :
    ∃ moved', (migrateLoop s t moved limit steps).1 = .ok moved' := by
  induction steps generalizing s t moved with
  | zero => exact ⟨moved, rfl⟩
  | succ steps ih =>
    have hlt : s.cursor < s.slotCount := by omega
    have hnext : s.cursor + 1 + steps ≤ s.slotCount := by omega
    rw [migrateLoop]
    split
    · exact ⟨moved, rfl⟩
    cases hlive : (s.slot s.cursor).isLive with
    | false =>
      rw [stretch_of_not_isLive hlt hlive] at htakes
      simp only [hlive, Bool.false_eq_true, if_false]
      exact ih hnext htakes _
    | true =>
      rw [stretch_of_isLive hlt hlive] at htakes
      obtain ⟨⟨old, hold⟩, htakes⟩ := htakes
      have hi : t.insert (s.slot s.cursor).key (s.slot s.cursor).value = (.ok old, _) :=
        Prod.ext hold rfl
      simp only [hlive, if_true]
      rw [hi]
      exact ih hnext htakes _

theorem migrate_ok {p : Progress} (hcursor : s.cursor ≤ s.slotCount)
    (hok : s.migrate t limit = (.ok p, s', t')) :
    ∃ n, s.cursor + n ≤ s.slotCount ∧ Copies s t n s' t' ∧
      p.moved = (s.stretch s.cursor n).length ∧ p.moved ≤ limit ∧
      (p.complete = true ↔ s.cursor + n = s.slotCount) ∧
      (p.complete = false → limit ≤ p.moved) := by
  unfold migrate at hok
  split at hok
  · cases hok
  cases hloop : migrateLoop s t 0 limit (s.slotCount - s.cursor) with
  | mk result tables =>
    obtain ⟨source, target⟩ := tables
    rw [hloop] at hok
    cases result with
    | error e => cases hok
    | ok moved =>
      cases hok
      obtain ⟨n, hn, hcopies, hmoved, hearly, hle⟩ := migrateLoop_ok (by omega) hloop
      obtain rfl := hcopies.source_eq
      have hcomplete :
          decide (s.slotCount ≤ s.cursor + n) = true ↔ s.cursor + n = s.slotCount := by
        rw [decide_eq_true_eq]
        omega
      rw [Nat.zero_add] at hmoved
      refine ⟨n, by omega, hcopies, hmoved, hle (Nat.zero_le _), hcomplete, ?_⟩
      intro hrest
      have hlt := of_decide_eq_false hrest
      change ¬s.slotCount ≤ s.cursor + n at hlt
      exact hearly (by omega)

theorem migrate_isOk (hle : s.slotCount ≤ t.slotCount) (hcursor : s.cursor ≤ s.slotCount)
    (htakes : t.Takes (s.stretch s.cursor (s.slotCount - s.cursor))) (limit : Nat) :
    ∃ p, (s.migrate t limit).1 = .ok p := by
  obtain ⟨moved, hmoved⟩ := migrateLoop_isOk (by omega) htakes 0 limit
  rw [migrate, if_neg (Nat.not_lt.mpr hle)]
  dsimp only
  rw [hmoved]
  exact ⟨_, rfl⟩

end MemoryKit.KeyTable
