import Mathlib.Data.List.Nodup
import Mathlib.Data.List.Perm.Subperm
import MemoryKit.SlotPool.Basic

/-! # The stack of free slots

The links of the free slots form a stack that begins at the head of the pool. Every slot is either
on the stack, once, or handed out, and the count of free slots is the height of the stack.
-/

namespace MemoryKit.SlotPool

variable {α : Type} {p p' : SlotPool α} {free : List UInt32} {i j : UInt32} {s : Slot α}

def Stacked (p : SlotPool α) : UInt32 → List UInt32 → Prop
  | i, [] => i = nullIndex
  | i, j :: free => i = j ∧ ∃ s, p.slot? j = some s ∧ p.Stacked s.next free

structure HasStack (p : SlotPool α) (free : List UInt32) : Prop where
  stacked : p.Stacked p.head.index free
  nodup : free.Nodup
  mem_iff : ∀ i s, p.slot? i = some s → (i ∈ free ↔ s.inUse = false)
  available_eq : p.available.toNat = free.length
  capacity_le : p.capacity ≤ maxPoolCapacity

theorem lt_of_slot? (h : p.slot? i = some s) : i.toNat < p.capacity :=
  (Array.getElem?_eq_some_iff.mp h).1

theorem lt_of_get? {value : α} (h : p.get? i = some value) : i.toNat < p.capacity := by
  obtain ⟨s, hs, -⟩ := Option.map_eq_some_iff.mp h
  exact lt_of_slot? hs

theorem exists_slot? (h : i.toNat < p.capacity) : ∃ s, p.slot? i = some s :=
  ⟨_, Array.getElem?_eq_getElem h⟩

theorem slot?_nullIndex (h : p.capacity ≤ maxPoolCapacity) : p.slot? nullIndex = none :=
  Array.getElem?_eq_none (Nat.le_trans h (by decide))

namespace Stacked

theorem congr (h : p.Stacked i free)
    (hl : ∀ j ∈ free, (p'.slot? j).map Slot.next = (p.slot? j).map Slot.next) :
    p'.Stacked i free := by
  induction free generalizing i with
  | nil => exact h
  | cons j free ih =>
    obtain ⟨rfl, s, hs, hrest⟩ := h
    have hs' := hl i List.mem_cons_self
    rw [hs, Option.map_some, Option.map_eq_some_iff] at hs'
    obtain ⟨s', hs', hn⟩ := hs'
    exact ⟨rfl, s', hs', hn ▸ ih hrest fun j hj => hl j (List.mem_cons_of_mem i hj)⟩

theorem exists_slot? (h : p.Stacked i free) (hj : j ∈ free) : ∃ s, p.slot? j = some s := by
  induction free generalizing i with
  | nil => cases hj
  | cons k free ih =>
    obtain ⟨-, s, hs, hrest⟩ := h
    rcases List.mem_cons.mp hj with rfl | hj
    · exact ⟨s, hs⟩
    · exact ih hrest hj

end Stacked

theorem slot?_create {capacity : Nat} {init : UInt32 → α} (h : create capacity init = .ok p)
    (i : UInt32) :
    p.slot? i = if i.toNat < capacity then
      some ⟨nextOnFullStack capacity i.toNat, false, init i⟩ else none := by
  unfold create at h
  split at h
  · cases h
  · cases h
    simp only [slot?, Array.getElem?_ofFn]
    split <;> simp

theorem toNat_ofNat_of_lt {capacity n : Nat} (hle : capacity ≤ maxPoolCapacity)
    (hn : n < capacity) : (UInt32.ofNat n).toNat = n :=
  UInt32.toNat_ofNat_of_lt' (Nat.lt_of_lt_of_le hn (Nat.le_trans hle (by decide)))

theorem le_of_create {capacity : Nat} {init : UInt32 → α} (h : create capacity init = .ok p) :
    capacity ≤ maxPoolCapacity ∧ p.capacity = capacity := by
  unfold create at h
  split at h
  · cases h
  · next hle =>
    cases h
    exact ⟨Nat.not_lt.mp hle, Array.size_ofFn⟩

theorem stacked_create {capacity : Nat} {init : UInt32 → α} (h : create capacity init = .ok p)
    (n count : Nat) (hn : n + count = capacity) :
    p.Stacked (if n < capacity then .ofNat n else nullIndex)
      ((List.range' n count).map .ofNat) := by
  induction count generalizing n with
  | zero =>
    rw [if_neg (by omega)]
    rfl
  | succ count ih =>
    have htop := toNat_ofNat_of_lt (le_of_create h).1 (show n < capacity by omega)
    rw [if_pos (by omega)]
    refine ⟨rfl, _, by rw [slot?_create h, htop, if_pos (by omega)], ?_⟩
    exact ih (n + 1) (by omega)

theorem nodup_indices {capacity : Nat} (hle : capacity ≤ maxPoolCapacity) :
    ((List.range capacity).map UInt32.ofNat).Nodup := by
  refine List.Nodup.map_on (fun m hm n hn he => ?_) List.nodup_range
  rw [← toNat_ofNat_of_lt hle (List.mem_range.mp hm), he,
    toNat_ofNat_of_lt hle (List.mem_range.mp hn)]

theorem mem_indices {capacity : Nat} (hle : capacity ≤ maxPoolCapacity) :
    i ∈ (List.range capacity).map UInt32.ofNat ↔ i.toNat < capacity := by
  rw [List.mem_map]
  constructor
  · rintro ⟨n, hn, rfl⟩
    rw [toNat_ofNat_of_lt hle (List.mem_range.mp hn)]
    exact List.mem_range.mp hn
  · intro hi
    exact ⟨i.toNat, List.mem_range.mpr hi, by simp⟩

theorem hasStack_create {capacity : Nat} {init : UInt32 → α} (h : create capacity init = .ok p) :
    p.HasStack ((List.range capacity).map .ofNat) := by
  obtain ⟨hle, hcap⟩ := le_of_create h
  refine ⟨?_, nodup_indices hle, fun i s hs => ?_, ?_, hcap ▸ hle⟩
  · have hs := stacked_create h 0 capacity (Nat.zero_add _)
    rw [List.range_eq_range']
    unfold create at h
    split at h <;> cases h
    exact hs
  · rw [slot?_create h] at hs
    split at hs
    · next hi =>
      cases hs
      exact iff_of_true ((mem_indices hle).mpr hi) rfl
    · cases hs
  · rw [List.length_map, List.length_range]
    unfold create at h
    split at h <;> cases h
    exact UInt64.toNat_ofNat_of_lt' (Nat.lt_of_le_of_lt hle (by decide))

theorem length_le_of_lt {l : List UInt32} {bound : Nat} (hnd : l.Nodup)
    (hlt : ∀ i ∈ l, i.toNat < bound) : l.length ≤ bound := by
  have hsub : l.map UInt32.toNat ⊆ List.range bound := fun n hn => by
    obtain ⟨i, hi, rfl⟩ := List.mem_map.mp hn
    exact List.mem_range.mpr (hlt i hi)
  have hnd' : (l.map UInt32.toNat).Nodup := hnd.map fun i j he => UInt32.toNat_inj.mp he
  simpa using (hnd'.subperm hsub).length_le

namespace HasStack

variable (h : p.HasStack free)

include h

theorem exists_slot? (hi : i ∈ free) : ∃ s, p.slot? i = some s := h.stacked.exists_slot? hi

theorem ne_nullIndex (hi : i ∈ free) : i ≠ nullIndex := by
  rintro rfl
  obtain ⟨s, hs⟩ := h.exists_slot? hi
  rw [slot?_nullIndex h.capacity_le] at hs
  cases hs

theorem length_le : free.length ≤ p.capacity :=
  length_le_of_lt h.nodup fun i hi => by
    obtain ⟨s, hs⟩ := h.exists_slot? hi
    exact lt_of_slot? hs

theorem congr (hhead : p'.head = p.head) (havailable : p'.available = p.available)
    (hcapacity : p'.capacity = p.capacity)
    (hslot : ∀ j, (p'.slot? j).map (fun s => (s.next, s.inUse)) =
      (p.slot? j).map fun s => (s.next, s.inUse)) : p'.HasStack free := by
  refine ⟨?_, h.nodup, fun j s hs => ?_, havailable ▸ h.available_eq, hcapacity ▸ h.capacity_le⟩
  · rw [hhead]
    refine h.stacked.congr fun j _ => ?_
    simpa [Option.map_map, Function.comp_def] using congrArg (Option.map Prod.fst) (hslot j)
  · have he := hslot j
    rw [hs, Option.map_some, eq_comm, Option.map_eq_some_iff] at he
    obtain ⟨s', hs', he⟩ := he
    rw [h.mem_iff j s' hs', (Prod.mk.inj he).2]

theorem modify (i : UInt32) (f : α → α) : (p.modify i f).HasStack free := by
  refine h.congr (head_modify ..) (available_modify ..) (capacity_modify ..) fun j => ?_
  rw [slot?_modify]
  split
  · next hij => rw [← hij, Option.map_map]; rfl
  · rfl

end HasStack

theorem get?_setSlot (hs : p.slot? i = some s) (next : UInt32) (inUse : Bool) (j : UInt32) :
    (p.setSlot i ⟨next, inUse, s.value⟩).get? j = p.get? j := by
  unfold get?
  rw [slot?_setSlot]
  split
  · next hij =>
    rw [← hij, hs]
    rfl
  · rfl

theorem get?_deallocate (p : SlotPool α) (i j : UInt32) : (p.deallocate i).2.get? j = p.get? j := by
  unfold deallocate
  split
  · rfl
  · next hs =>
    split
    · exact get?_setSlot hs _ _ j
    · rfl

@[simp] theorem capacity_deallocate (p : SlotPool α) (i : UInt32) :
    (p.deallocate i).2.capacity = p.capacity := by
  unfold deallocate
  split
  · rfl
  · split
    · exact capacity_setSlot ..
    · rfl

theorem allocate_nil (h : p.HasStack []) : p.allocate = (none, p) := by
  have hnull : p.head.isNull = true := beq_iff_eq.mpr h.stacked
  rw [allocate, if_pos hnull]

theorem allocate_cons (h : p.HasStack (i :: free)) :
    ∃ p', p.allocate = (some i, p') ∧ p'.HasStack free ∧ (∀ j, p'.get? j = p.get? j) ∧
      p'.capacity = p.capacity := by
  obtain ⟨hi, s, hs, hrest⟩ := h.stacked
  obtain ⟨hnot, hnd⟩ := List.nodup_cons.mp h.nodup
  have hnull : p.head.isNull = false := by
    rw [TaggedIndex.isNull, hi, beq_eq_false_iff_ne]
    exact h.ne_nullIndex List.mem_cons_self
  unfold allocate
  simp only [hnull, hi, hs, Bool.false_eq_true, if_false]
  refine ⟨_, rfl, ⟨?_, hnd, fun j s' hs' => ?_, ?_, ?_⟩, fun j => ?_, capacity_setSlot ..⟩
  · refine Stacked.congr (p := p) hrest fun j hj => ?_
    have hne : i ≠ j := fun he => hnot (he ▸ hj)
    exact congrArg _ ((slot?_setSlot p i j _).trans (if_neg hne))
  · have hs' := (slot?_setSlot p i j _).symm.trans hs'
    split at hs'
    · next hij =>
      rw [hs] at hs'
      cases hs'
      exact iff_of_false (hij ▸ hnot) Bool.noConfusion
    · next hij =>
      rw [← h.mem_iff j s' hs', List.mem_cons, or_iff_right (Ne.symm hij)]
  · have hlen := h.available_eq
    have hle := h.length_le
    rw [List.length_cons] at hlen hle
    have hone : (1 : UInt64) ≤ p.available := UInt64.le_iff_toNat_le.mpr (by rw [hlen]; simp)
    rw [UInt64.toNat_sub_of_le _ _ hone, hlen]
    rfl
  · exact Nat.le_trans (Nat.le_of_eq (capacity_setSlot ..)) h.capacity_le
  · exact get?_setSlot hs _ _ j

theorem deallocate_used (h : p.HasStack free) (hi : i ∉ free) (hlt : i.toNat < p.capacity) :
    ∃ p', p.deallocate i = (.ok (), p') ∧ p'.HasStack (i :: free) ∧ (∀ j, p'.get? j = p.get? j) ∧
      p'.capacity = p.capacity := by
  obtain ⟨s, hs⟩ := exists_slot? hlt
  have hused : s.inUse = true := by
    rwa [h.mem_iff i s hs, Bool.not_eq_false] at hi
  unfold deallocate
  simp only [hs, hused, if_true]
  refine ⟨_, rfl, ⟨⟨rfl, { s with next := p.head.index, inUse := false }, ?_, ?_⟩,
    List.nodup_cons.mpr ⟨hi, h.nodup⟩, fun j s' hs' => ?_, ?_, ?_⟩,
    fun j => get?_setSlot hs _ _ j, capacity_setSlot ..⟩
  · refine (slot?_setSlot p i i _).trans ?_
    rw [if_pos rfl, hs]
    rfl
  · refine Stacked.congr (p := p) h.stacked fun j hj => ?_
    have hne : i ≠ j := fun he => hi (he ▸ hj)
    exact congrArg _ ((slot?_setSlot p i j _).trans (if_neg hne))
  · have hs' := (slot?_setSlot p i j _).symm.trans hs'
    split at hs'
    · next hij =>
      rw [hs] at hs'
      cases hs'
      exact iff_of_true (hij ▸ List.mem_cons_self) rfl
    · next hij =>
      rw [← h.mem_iff j s' hs', List.mem_cons, or_iff_right (Ne.symm hij)]
  · have hlen := h.available_eq
    have hle := Nat.le_trans h.length_le h.capacity_le
    rw [UInt64.toNat_add, hlen, List.length_cons]
    exact Nat.mod_eq_of_lt (Nat.lt_of_le_of_lt (Nat.succ_le_succ hle) (by decide))
  · exact Nat.le_trans (Nat.le_of_eq (capacity_setSlot ..)) h.capacity_le

theorem countP_slots {l : List UInt32} (hl : l.Nodup) (hcap : p.capacity ≤ maxPoolCapacity)
    {q : Slot α → Bool} (h : ∀ i, i ∈ l ↔ ∃ s, p.slot? i = some s ∧ q s = true) :
    p.slots.toList.countP q = l.length := by
  let marked (n : Nat) : Bool := p.slots[n]?.any q
  have hmap : p.slots.toList.map q = (List.range p.capacity).map marked := by
    refine List.ext_getElem (by simp [capacity]) fun n h₁ h₂ => ?_
    rw [List.length_map, Array.length_toList] at h₁
    simp [marked, h₁]
  have hcount : p.slots.toList.countP q = ((List.range p.capacity).filter marked).length := by
    rw [← List.countP_eq_length_filter]
    have hid := congrArg (List.countP id) hmap
    rwa [List.countP_map, List.countP_map] at hid
  rw [hcount, ← l.length_map UInt32.toNat]
  refine List.Perm.length_eq ((List.perm_ext_iff_of_nodup (List.nodup_range.filter _)
    (hl.map fun i j he => UInt32.toNat_inj.mp he)).mpr fun n => ?_)
  rw [List.mem_filter, List.mem_range, List.mem_map]
  constructor
  · rintro ⟨hn, hm⟩
    have hi := toNat_ofNat_of_lt hcap hn
    obtain ⟨s, hs, hq⟩ := (Option.any_eq_true q _).mp hm
    exact ⟨.ofNat n, (h _).mpr ⟨s, by rw [slot?, hi, hs], hq⟩, hi⟩
  · rintro ⟨i, hi, rfl⟩
    obtain ⟨s, hs, hq⟩ := (h i).mp hi
    exact ⟨lt_of_slot? hs, by simp [marked, show p.slots[i.toNat]? = some s from hs, hq]⟩

end MemoryKit.SlotPool
