import Mathlib.Data.Finset.Card
import MemoryKit.Proofs.KeyTable.Lifetime

/-! # Storing keys in different orders

A key that is new parks in the first vacant slot from its home on. Keys that come in another order
may park in other slots, but the slots that are taken in the end are the same: two keys that come
next to each other can change places. So are the number of the keys that find no slot and, if all
find one, the value of every key.
-/

namespace MemoryKit

/-- The first of `count` places that is not taken, from a start on and round the end. -/
def firstGap (count : Nat) (taken : Finset Nat) (start : Nat) : Option Nat :=
  ((List.range count).find? fun d => (start + d) % count ∉ taken).map fun d => (start + d) % count

/-- Takes the first place that is left from a start on, if there is one. -/
def park (count : Nat) (taken : Finset Nat) (start : Nat) : Finset Nat :=
  match firstGap count taken start with
  | some i => insert i taken
  | none => taken

section Parking

variable {count start a b i : Nat} {taken : Finset Nat}

theorem firstGap_eq_some_iff (hpos : 0 < count) :
    firstGap count taken start = some i ↔
      ∃ d, (start + d) % count = i ∧ i ∉ taken ∧ ∀ e < d, (start + e) % count ∈ taken := by
  simp only [firstGap, Option.map_eq_some_iff, List.find?_range_eq_some, decide_eq_true_eq,
    List.mem_range, Bool.not_eq_true', decide_eq_false_iff_not, not_not]
  constructor
  · rintro ⟨d, ⟨hgap, -, hbefore⟩, rfl⟩
    exact ⟨d, rfl, hgap, hbefore⟩
  · rintro ⟨d, rfl, hgap, hbefore⟩
    refine ⟨d, ⟨hgap, ?_, hbefore⟩, rfl⟩
    -- A place further away than a whole round was passed before.
    by_contra hfar
    refine hgap ?_
    have hround := hbefore (d % count) (Nat.lt_of_lt_of_le (Nat.mod_lt d hpos) (Nat.not_lt.mp hfar))
    rwa [Nat.add_mod_mod] at hround

theorem firstGap_eq_none_iff (hpos : 0 < count) :
    firstGap count taken start = none ↔ ∀ i < count, i ∈ taken := by
  simp only [firstGap, Option.map_eq_none_iff, List.find?_range_eq_none, Bool.not_eq_true',
    decide_eq_false_iff_not, not_not]
  constructor
  · intro hall i hi
    have hmeet : (start + (i + (count - start % count)) % count) % count = i := by
      have hstart := Nat.mod_lt start hpos
      have hsplit := Nat.div_add_mod start count
      rw [Nat.add_mod_mod, show start + (i + (count - start % count)) =
        i + count * (start / count + 1) by rw [Nat.mul_succ]; omega,
        Nat.add_mul_mod_self_left, Nat.mod_eq_of_lt hi]
    exact hmeet ▸ hall _ (Nat.mod_lt _ hpos)
  · intro hall d _
    exact hall _ (Nat.mod_lt _ hpos)

theorem park_of_full (hpos : 0 < count) (h : ∀ i < count, i ∈ taken) (start : Nat) :
    park count taken start = taken := by
  rw [park, (firstGap_eq_none_iff hpos).mpr h]

theorem park_of_gap (h : firstGap count taken start = some i) :
    park count taken start = insert i taken := by
  rw [park, h]

theorem firstGap_insert_of_ne (hpos : 0 < count) (h : firstGap count taken start = some i)
    {j : Nat} (hij : i ≠ j) : firstGap count (insert j taken) start = some i := by
  obtain ⟨d, hd, hgap, hbefore⟩ := (firstGap_eq_some_iff hpos).mp h
  refine (firstGap_eq_some_iff hpos).mpr ⟨d, hd, ?_, fun e he => ?_⟩
  · exact Finset.mem_insert.not.mpr (not_or.mpr ⟨hij, hgap⟩)
  · exact Finset.mem_insert_of_mem (hbefore e he)

/-- Two searches that end at the same place go on together once it is taken. -/
theorem firstGap_insert_of_eq (hpos : 0 < count) (ha : firstGap count taken a = some i)
    (hb : firstGap count taken b = some i) {j : Nat}
    (hj : firstGap count (insert i taken) a = some j) :
    firstGap count (insert i taken) b = some j := by
  obtain ⟨d, hd, hi, hbefore⟩ := (firstGap_eq_some_iff hpos).mp ha
  obtain ⟨d', hd', -, hbefore'⟩ := (firstGap_eq_some_iff hpos).mp hb
  obtain ⟨f, hf, hgap, hbeforej⟩ := (firstGap_eq_some_iff hpos).mp hj
  have hfar : d < f := by
    rcases Nat.lt_trichotomy f d with hlt | rfl | hlt
    · exact absurd (Finset.mem_insert_of_mem (hf ▸ hbefore f hlt)) hgap
    · exact absurd (Finset.mem_insert.mpr (.inl (hf.symm.trans hd))) hgap
    · exact hlt
  have htogether (e : Nat) : (b + (d' + e)) % count = (a + (d + e)) % count := by
    rw [← Nat.add_assoc, ← Nat.add_assoc, Nat.add_mod, hd', ← hd, ← Nat.add_mod]
  refine (firstGap_eq_some_iff hpos).mpr ⟨d' + (f - d), ?_, hgap, fun e he => ?_⟩
  · rw [htogether, Nat.add_sub_cancel' (Nat.le_of_lt hfar), hf]
  · rcases Nat.lt_or_ge e d' with hlt | hge
    · exact Finset.mem_insert_of_mem (hbefore' e hlt)
    · obtain ⟨e, rfl⟩ := Nat.exists_eq_add_of_le hge
      rw [htogether]
      exact hbeforej _ (by omega)

theorem park_insert_of_eq (hpos : 0 < count) (ha : firstGap count taken a = some i)
    (hb : firstGap count taken b = some i) :
    park count (insert i taken) a = park count (insert i taken) b := by
  cases hj : firstGap count (insert i taken) a with
  | some j => rw [park_of_gap hj, park_of_gap (firstGap_insert_of_eq hpos ha hb hj)]
  | none =>
    have hfull := (firstGap_eq_none_iff hpos).mp hj
    rw [park_of_full hpos hfull, park_of_full hpos hfull]

/-- Two that park one after the other take the same two places in either order. -/
theorem park_comm (hpos : 0 < count) (taken : Finset Nat) (a b : Nat) :
    park count (park count taken a) b = park count (park count taken b) a := by
  cases ha : firstGap count taken a with
  | none =>
    have hfull := (firstGap_eq_none_iff hpos).mp ha
    simp only [park_of_full hpos hfull]
  | some i =>
    cases hb : firstGap count taken b with
    | none =>
      have hfull := (firstGap_eq_none_iff hpos).mp hb
      simp only [park_of_full hpos hfull]
    | some j =>
      rw [park_of_gap ha, park_of_gap hb]
      by_cases hij : i = j
      · subst hij
        exact park_insert_of_eq hpos hb ha
      · rw [park_of_gap (firstGap_insert_of_ne hpos hb (Ne.symm hij)),
          park_of_gap (firstGap_insert_of_ne hpos ha hij), Finset.insert_comm]

end Parking

namespace KeyTable

variable {t t' : KeyTable} {key value : UInt64} {i j : Nat} {entries order : List (UInt64 × UInt64)}

def claimedSlots (t : KeyTable) : Finset Nat :=
  (Finset.range t.slotCount).filter fun i => (t.slot i).isClaimed

theorem mem_claimedSlots :
    i ∈ t.claimedSlots ↔ i < t.slotCount ∧ (t.slot i).key ≠ nullKey := by
  rw [claimedSlots, Finset.mem_filter, Finset.mem_range]
  exact and_congr_right fun _ => bne_iff_ne

theorem mod_mem_claimedSlots : i % t.slotCount ∈ t.claimedSlots ↔ (t.slot i).key ≠ nullKey := by
  rw [mem_claimedSlots, slot_mod]
  exact and_iff_right (Nat.mod_lt i t.slotCount_pos)

theorem claimedSlots_setSlot {s : Slot} (hs : s.key ≠ nullKey) (j : Nat) :
    (t.setSlot j s).claimedSlots = Insert.insert (j % t.slotCount) t.claimedSlots := by
  ext i
  rw [Finset.mem_insert, mem_claimedSlots, mem_claimedSlots, slotCount_setSlot, slot_setSlot]
  by_cases hi : i < t.slotCount
  · rw [Nat.mod_eq_of_lt hi, eq_comm (a := i)]
    split
    · next hij => exact iff_of_true ⟨hi, hs⟩ (.inl hij)
    · next hij => rw [or_iff_right hij]
  · refine iff_of_false (fun h => hi h.1) ?_
    rintro (rfl | ⟨hlt, -⟩)
    · exact hi (Nat.mod_lt j t.slotCount_pos)
    · exact hi hlt

theorem park_of_locate (hl : t.locate key = some j) (hj : (t.slot j).key ≠ key) :
    park t.slotCount t.claimedSlots (t.home key) =
      Insert.insert (j % t.slotCount) t.claimedSlots := by
  obtain ⟨d, -, rfl, hend, hbefore⟩ := seek_eq_some hl
  refine park_of_gap ((firstGap_eq_some_iff t.slotCount_pos).mpr ⟨d, rfl, ?_, fun e he => ?_⟩)
  · exact mod_mem_claimedSlots.not.mpr (not_not.mpr (hend.resolve_left hj))
  · exact mod_mem_claimedSlots.mpr (hbefore e he).2

theorem IsProbing.claimedSlots_set (h : t.IsProbing) (hk : key ≠ nullKey) (value : UInt64) :
    (t.set key value).2.claimedSlots =
      if key ∈ t.claimants then t.claimedSlots
      else park t.slotCount t.claimedSlots (t.home key) := by
  unfold KeyTable.set positionFor
  rw [if_neg hk]
  cases hl : t.locate key with
  | none =>
    have hall (i : Nat) (hi : i < t.slotCount) : i ∈ t.claimedSlots :=
      mem_claimedSlots.mpr ⟨hi, claimed_of_locate_eq_none hl i⟩
    rw [park_of_full t.slotCount_pos hall, ite_self]
  | some j =>
    simp only [claimedSlots_setSlot (s := ⟨key, value⟩) hk]
    by_cases hj : (t.slot j).key = key
    · have hclaimed : j % t.slotCount ∈ t.claimedSlots := mod_mem_claimedSlots.mpr (hj ▸ hk)
      rw [if_pos (mem_claimants.mpr ⟨hk, j, hj⟩), Finset.insert_eq_of_mem hclaimed]
    · have hvacant := (key_of_locate hl).resolve_left hj
      have hnew : key ∉ t.claimants := fun hc => by
        obtain ⟨-, i, hi⟩ := mem_claimants.mp hc
        exact h.unclaimed_of_locate hk hl hvacant i hi
      rw [if_neg hnew, park_of_locate hl hj]

theorem set_of_locate (hk : key ≠ nullKey) (hl : t.locate key = some j) (value : UInt64) :
    t.set key value = (.ok (t.slot j).value, t.setSlot j ⟨key, value⟩) := by
  simp only [KeyTable.set, positionFor, if_neg hk, hl]

theorem set_of_locate_eq_none (hk : key ≠ nullKey) (hl : t.locate key = none) (value : UInt64) :
    t.set key value = (.error .full, t) := by
  simp only [KeyTable.set, positionFor, if_neg hk, hl]

theorem IsProbing.set_cases (h : t.IsProbing) (hk : key ≠ nullKey) (value : UInt64) :
    (t.set key value = (.error .full, t) ∧ key ∉ t.claimants ∧
        t.claimants.card = t.slotCount) ∨
      ∃ old t', t.set key value = (.ok old, t') ∧ t'.IsProbing ∧ t'.slotCount = t.slotCount ∧
        t'.claimants = Insert.insert key t.claimants ∧
        ∀ other, t'.get other = if other = key then value else t.get other := by
  cases hl : t.locate key with
  | none =>
    obtain ⟨hnew, hfull⟩ := (h.locate_eq_none_iff hk).mp hl
    exact .inl ⟨set_of_locate_eq_none hk hl value, hnew, hfull⟩
  | some j =>
    have hset := set_of_locate hk hl value
    exact .inr ⟨_, _, hset, h.set hset⟩

/-- The table after keys are stored, the first one first. Keys that are refused are passed over. -/
def setAll (t : KeyTable) (entries : List (UInt64 × UInt64)) : KeyTable :=
  entries.foldl (fun t e => (t.set e.1 e.2).2) t

theorem setAll_cons (t : KeyTable) (e : UInt64 × UInt64) (entries : List (UInt64 × UInt64)) :
    t.setAll (e :: entries) = (t.set e.1 e.2).2.setAll entries :=
  rfl

def isFull : Except KeyTableError UInt64 → Bool
  | .error .full => true
  | _ => false

def answers (t : KeyTable) : List (UInt64 × UInt64) → List (Except KeyTableError UInt64)
  | [] => []
  | e :: entries => (t.set e.1 e.2).1 :: (t.set e.1 e.2).2.answers entries

def refusals (t : KeyTable) (entries : List (UInt64 × UInt64)) : Nat :=
  (t.answers entries).countP isFull

theorem refusals_cons (t : KeyTable) (e : UInt64 × UInt64) (entries : List (UInt64 × UInt64)) :
    t.refusals (e :: entries) =
      (t.set e.1 e.2).2.refusals entries + if isFull (t.set e.1 e.2).1 then 1 else 0 :=
  List.countP_cons ..

structure Storable (entries : List (UInt64 × UInt64)) : Prop where
  nodup : (entries.map Prod.fst).Nodup
  key_ne : ∀ e ∈ entries, e.1 ≠ nullKey
  value_ne : ∀ e ∈ entries, e.2 ≠ nullValue

theorem Storable.perm (hs : Storable entries) (h : order.Perm entries) : Storable order where
  nodup := (h.map Prod.fst).nodup_iff.mpr hs.nodup
  key_ne e he := hs.key_ne e (h.mem_iff.mp he)
  value_ne e he := hs.value_ne e (h.mem_iff.mp he)

theorem storable_cons {e : UInt64 × UInt64} :
    Storable (e :: entries) ↔
      (e.1 ≠ nullKey ∧ e.2 ≠ nullValue ∧ e.1 ∉ entries.map Prod.fst) ∧ Storable entries := by
  constructor
  · rintro ⟨hnodup, hkey, hvalue⟩
    obtain ⟨hnot, hrest⟩ := List.nodup_cons.mp hnodup
    obtain ⟨hk, hkeys⟩ := List.forall_mem_cons.mp hkey
    obtain ⟨hv, hvalues⟩ := List.forall_mem_cons.mp hvalue
    exact ⟨⟨hk, hv, hnot⟩, hrest, hkeys, hvalues⟩
  · rintro ⟨⟨hk, hv, hnot⟩, hrest, hkeys, hvalues⟩
    exact ⟨List.nodup_cons.mpr ⟨hnot, hrest⟩, List.forall_mem_cons.mpr ⟨hk, hkeys⟩,
      List.forall_mem_cons.mpr ⟨hv, hvalues⟩⟩

/-- What storing a key does to the claimed slots, going by the keys that had one at the start. -/
def arrive (t : KeyTable) (taken : Finset Nat) (e : UInt64 × UInt64) : Finset Nat :=
  if e.1 ∈ t.claimants then taken else park t.slotCount taken (t.home e.1)

theorem arrive_comm (t : KeyTable) (taken : Finset Nat) (e f : UInt64 × UInt64) :
    t.arrive (t.arrive taken e) f = t.arrive (t.arrive taken f) e := by
  unfold arrive
  split <;> split
  · rfl
  · rfl
  · rfl
  · exact park_comm t.slotCount_pos taken (t.home e.1) (t.home f.1)

theorem IsProbing.arrive_congr (h : t.IsProbing) (hk : key ≠ nullKey) (value : UInt64)
    {f : UInt64 × UInt64} (hf : f.1 ≠ key) (taken : Finset Nat) :
    (t.set key value).2.arrive taken f = t.arrive taken f := by
  obtain ⟨he, -, -⟩ | ⟨old, t', he, -, hslots, hclaimants, -⟩ := h.set_cases hk value
  · rw [he]
  · rw [he]
    simp only [arrive, home, hslots, hclaimants, Finset.mem_insert, hf, false_or]

theorem IsProbing.claimedSlots_setAll (h : t.IsProbing) (hs : Storable entries) :
    (t.setAll entries).claimedSlots = entries.foldl t.arrive t.claimedSlots := by
  induction entries generalizing t with
  | nil => rfl
  | cons e entries ih =>
    obtain ⟨⟨hk, -, hnew⟩, hrest⟩ := storable_cons.mp hs
    have hnext : (t.set e.1 e.2).2.claimedSlots = t.arrive t.claimedSlots e :=
      h.claimedSlots_set hk e.2
    have hprobing := (h.set_spec e.1 e.2).2.1
    refine (ih hprobing hrest).trans ?_
    rw [hnext, List.foldl_cons]
    refine List.foldl_ext _ _ _ fun taken f hf => ?_
    refine h.arrive_congr hk e.2 (fun heq => hnew ?_) taken
    exact heq ▸ List.mem_map_of_mem hf

theorem IsProbing.claimedSlots_setAll_perm (h : t.IsProbing) (hs : Storable entries)
    (hperm : order.Perm entries) :
    (t.setAll order).claimedSlots = (t.setAll entries).claimedSlots := by
  rw [h.claimedSlots_setAll hs, h.claimedSlots_setAll (hs.perm hperm)]
  exact hperm.foldl_eq' (fun e _ f _ taken => t.arrive_comm taken e f) _

def keysIn (entries : List (UInt64 × UInt64)) : Finset UInt64 := (entries.map Prod.fst).toFinset

@[simp] theorem keysIn_nil : keysIn [] = ∅ := rfl

@[simp] theorem keysIn_cons (e : UInt64 × UInt64) (entries : List (UInt64 × UInt64)) :
    keysIn (e :: entries) = Insert.insert e.1 (keysIn entries) := by
  rw [keysIn, List.map_cons, List.toFinset_cons]
  rfl

theorem mem_keysIn : key ∈ keysIn entries ↔ key ∈ entries.map Prod.fst := List.mem_toFinset

theorem notMem_union_keysIn {keys : Finset UInt64} (h : key ∉ keys)
    (hnew : key ∉ entries.map Prod.fst) : key ∉ keys ∪ keysIn entries := by
  rw [Finset.mem_union, not_or, mem_keysIn]
  exact ⟨h, hnew⟩

theorem keysIn_perm (h : order.Perm entries) : keysIn order = keysIn entries :=
  List.toFinset_eq_of_perm _ _ (h.map Prod.fst)

theorem IsProbing.refusals_eq (h : t.IsProbing) (hs : Storable entries) :
    t.refusals entries = (t.claimants ∪ keysIn entries).card - t.slotCount := by
  induction entries generalizing t with
  | nil =>
    rw [keysIn_nil, Finset.union_empty, Nat.sub_eq_zero_of_le h.card_claimants_le]
    rfl
  | cons e entries ih =>
    obtain ⟨⟨hk, -, hnew⟩, hrest⟩ := storable_cons.mp hs
    rw [keysIn_cons, Finset.union_insert, refusals_cons]
    obtain ⟨he, hslot, hfull⟩ | ⟨old, t', he, h', hslots, hclaimants, -⟩ := h.set_cases hk e.2
    · have hnot : e.1 ∉ t.claimants ∪ keysIn entries := notMem_union_keysIn hslot hnew
      have hle : t.slotCount ≤ (t.claimants ∪ keysIn entries).card :=
        hfull ▸ Finset.card_le_card Finset.subset_union_left
      simp only [he, ih h hrest, Finset.card_insert_of_notMem hnot, isFull, if_true]
      omega
    · simp only [he, ih h' hrest, hclaimants, hslots, Finset.insert_union, isFull,
        Bool.false_eq_true, if_false, Nat.add_zero]

theorem mem_present : key ∈ t.contents.present ↔ t.get key ≠ nullValue :=
  Finset.mem_filter.trans (and_iff_right_of_imp mem_claimants_of_get)

theorem IsProbing.size_setAll (h : t.IsProbing) (hs : Storable entries) :
    (t.setAll entries).size + t.refusals entries =
      (t.contents.present ∪ keysIn entries).card := by
  induction entries generalizing t with
  | nil =>
    rw [keysIn_nil, Finset.union_empty]
    exact h.size_eq
  | cons e entries ih =>
    obtain ⟨⟨hk, hv, hnew⟩, hrest⟩ := storable_cons.mp hs
    rw [keysIn_cons, Finset.union_insert, refusals_cons, setAll_cons]
    obtain ⟨he, hslot, hfull⟩ | ⟨old, t', he, h', hslots, hclaimants, hget⟩ := h.set_cases hk e.2
    · have hnot : e.1 ∉ t.contents.present ∪ keysIn entries :=
        notMem_union_keysIn (fun hp => hslot (Finset.mem_filter.mp hp).1) hnew
      have hcount := ih h hrest
      simp only [he, Finset.card_insert_of_notMem hnot, ← hcount, isFull, if_true]
      rfl
    · have hpresent : t'.contents.present = Insert.insert e.1 t.contents.present := by
        ext key
        rw [Finset.mem_insert, mem_present, mem_present, hget]
        split
        · next heq => exact iff_of_true hv (.inl heq)
        · next hne => rw [or_iff_right hne]
      have hcount := ih h' hrest
      rw [hpresent, Finset.insert_union] at hcount
      simp only [he]
      exact hcount

theorem IsProbing.get_setAll (h : t.IsProbing) (hs : Storable entries)
    (hall : t.refusals entries = 0) :
    (∀ e ∈ entries, (t.setAll entries).get e.1 = e.2) ∧
      ∀ key ∉ entries.map Prod.fst, (t.setAll entries).get key = t.get key := by
  induction entries generalizing t with
  | nil => exact ⟨nofun, fun _ _ => rfl⟩
  | cons e entries ih =>
    obtain ⟨⟨hk, -, hnew⟩, hrest⟩ := storable_cons.mp hs
    rw [refusals_cons] at hall
    obtain ⟨he, -, -⟩ | ⟨old, t', he, h', -, -, hget⟩ := h.set_cases hk e.2
    · rw [he] at hall
      cases hall
    · have hnext : t.setAll (e :: entries) = t'.setAll entries := by rw [setAll_cons, he]
      simp only [he] at hall
      obtain ⟨hstored, hother⟩ := ih h' hrest hall
      rw [hnext]
      refine ⟨List.forall_mem_cons.mpr ⟨?_, hstored⟩, fun key hnot => ?_⟩
      · rw [hother e.1 hnew, hget, if_pos rfl]
      · obtain ⟨hne, hnot⟩ := not_or.mp (List.mem_cons.not.mp hnot)
        rw [hother key hnot, hget, if_neg hne]

structure SameEnd (s s' : KeyTable) (refused refused' : Nat) : Prop where
  claimed : ∀ i, (s.slot i).isClaimed = (s'.slot i).isClaimed
  size : s.size = s'.size
  refused_eq : refused = refused'
  get : refused = 0 → ∀ key, s.get key = s'.get key

theorem isClaimed_eq_of_claimedSlots (hslots : t'.slotCount = t.slotCount)
    (h : t'.claimedSlots = t.claimedSlots) (i : Nat) :
    (t'.slot i).isClaimed = (t.slot i).isClaimed := by
  rw [Bool.eq_iff_iff, Slot.isClaimed, Slot.isClaimed, bne_iff_ne, bne_iff_ne,
    ← mod_mem_claimedSlots, ← mod_mem_claimedSlots, hslots, h]

theorem IsProbing.setAll (h : t.IsProbing) (entries : List (UInt64 × UInt64)) :
    (t.setAll entries).IsProbing ∧ (t.setAll entries).slotCount = t.slotCount := by
  induction entries generalizing t with
  | nil => exact ⟨h, rfl⟩
  | cons e entries ih =>
    obtain ⟨-, hprobing, hslots, -⟩ := h.set_spec e.1 e.2
    obtain ⟨hprobing', hslots'⟩ := ih hprobing
    exact ⟨hprobing', hslots'.trans hslots⟩

theorem IsProbing.sameEnd_perm (h : t.IsProbing) (hs : Storable entries)
    (hperm : order.Perm entries) :
    SameEnd (t.setAll order) (t.setAll entries) (t.refusals order) (t.refusals entries) := by
  have hs' := hs.perm hperm
  have hrefused : t.refusals order = t.refusals entries := by
    rw [h.refusals_eq hs, h.refusals_eq hs', keysIn_perm hperm]
  refine ⟨fun i => ?_, ?_, hrefused, fun hall key => ?_⟩
  · have hslots := (h.setAll order).2.trans (h.setAll entries).2.symm
    exact isClaimed_eq_of_claimedSlots hslots (h.claimedSlots_setAll_perm hs hperm) i
  · have hsize := h.size_setAll hs
    have hsize' := h.size_setAll hs'
    rw [keysIn_perm hperm, ← hsize, hrefused] at hsize'
    exact Nat.add_right_cancel hsize'
  · obtain ⟨hstored, hother⟩ := h.get_setAll hs' hall
    obtain ⟨hstored', hother'⟩ := h.get_setAll hs (hrefused ▸ hall)
    by_cases hkey : key ∈ entries.map Prod.fst
    · obtain ⟨e, he, rfl⟩ := List.mem_map.mp hkey
      rw [hstored e (hperm.mem_iff.mpr he), hstored' e he]
    · have hkey' : key ∉ order.map Prod.fst := (hperm.map Prod.fst).mem_iff.not.mpr hkey
      rw [hother key hkey', hother' key hkey]

end KeyTable

end MemoryKit
