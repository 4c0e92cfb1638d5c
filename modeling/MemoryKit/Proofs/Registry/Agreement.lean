import MemoryKit.Proofs.KeyTable.Operations
import MemoryKit.Proofs.SlotPool.FreeStack
import MemoryKit.Registry.Basic

/-! # Records and the lookup

The records in use have different keys, and the lookup holds their slots under these keys and
nothing else. A slot is in use exactly while it is handed out by the pool. All of this depends on an
outline of each record only, and it is kept when a slot begins or ends to be used together with its
key.
-/

namespace MemoryKit.Registry

variable {P H : Type}

def InUse (slots : SlotPool (EntryRecord P H)) (i : UInt32) (d : EntryRecord P H) : Prop :=
  slots.get? i = some d ∧ d.state ≠ none

/-- The key of a record, whether it is in use, and whether it is a placeholder. -/
def EntryRecord.outline (d : EntryRecord P H) : UInt64 × Bool × Bool :=
  (d.key, d.state.isSome, d.state == some .placeholder)

def EntryRecord.isCounted (d : EntryRecord P H) : Bool :=
  d.state.isSome && d.state != some .placeholder

def usedCount (slots : SlotPool (EntryRecord P H)) : Nat :=
  (slots.values.filter EntryRecord.isCounted).length

/--
The lookup holds the slots in use under their keys. The slots in `fixed` are the placeholders, those
in `free` are the ones to be handed out, in that order.
-/
structure Agree (slots : SlotPool (EntryRecord P H)) (lookup : KeyTable)
    (fixed free : List UInt32) : Prop where
  stack : slots.HasStack free
  probing : lookup.IsProbing
  mem_free_iff : ∀ i d, slots.get? i = some d → (i ∈ free ↔ d.state = none)
  found : ∀ i d, InUse slots i d → lookup.get d.key = i.toUInt64
  held : ∀ key, lookup.get key ≠ nullValue → ∃ i d, InUse slots i d ∧ d.key = key
  nodup_fixed : fixed.Nodup
  mem_fixed_iff : ∀ i, i ∈ fixed ↔ ∃ d, slots.get? i = some d ∧ d.state = some .placeholder

theorem outline_eq_iff {d d' : EntryRecord P H} :
    d.outline = d'.outline ↔ d.key = d'.key ∧ (d.state = none ↔ d'.state = none) ∧
      (d.state = some .placeholder ↔ d'.state = some .placeholder) := by
  rw [EntryRecord.outline, EntryRecord.outline, Prod.mk.injEq, Prod.mk.injEq]
  refine and_congr_right fun _ => and_congr ?_ ?_
  · cases d.state <;> cases d'.state <;> simp
  · rw [Bool.eq_iff_iff, beq_iff_eq, beq_iff_eq]

theorem toUInt32_toUInt64 (i : UInt32) : i.toUInt64.toUInt32 = i := by simp

theorem toUInt64_ne_nullValue (i : UInt32) : i.toUInt64 ≠ nullValue := by
  intro h
  have hi := i.toNat_lt
  have hn := congrArg UInt64.toNat h
  rw [UInt32.toNat_toUInt64, show nullValue.toNat = 18446744073709551615 from rfl] at hn
  omega

theorem toUInt64_inj {i j : UInt32} (h : i.toUInt64 = j.toUInt64) : i = j := by
  rw [← toUInt32_toUInt64 i, h, toUInt32_toUInt64]

variable {slots slots' : SlotPool (EntryRecord P H)} {lookup lookup' : KeyTable}
  {fixed free : List UInt32} {i j : UInt32} {d d' : EntryRecord P H} {key : UInt64}

def SameOutlines (slots slots' : SlotPool (EntryRecord P H)) : Prop :=
  ∀ j, (slots'.get? j).map EntryRecord.outline = (slots.get? j).map EntryRecord.outline

namespace SameOutlines

variable (ho : SameOutlines slots slots')

include ho

theorem symm : SameOutlines slots' slots := fun j => (ho j).symm

theorem exists_record (hd : slots.get? j = some d) : ∃ d', slots'.get? j = some d' ∧
    d'.key = d.key ∧ (d'.state = none ↔ d.state = none) ∧
      (d'.state = some .placeholder ↔ d.state = some .placeholder) := by
  have he := ho j
  rw [hd, Option.map_some, Option.map_eq_some_iff] at he
  obtain ⟨d', hd', he⟩ := he
  exact ⟨d', hd', outline_eq_iff.mp he⟩

theorem exists_inUse (hu : InUse slots j d) : ∃ d', InUse slots' j d' ∧ d'.key = d.key := by
  obtain ⟨d', hd', hkey, hnone, -⟩ := ho.exists_record hu.1
  exact ⟨d', ⟨hd', mt hnone.mp hu.2⟩, hkey⟩

theorem exists_placeholder (hd : ∃ d, slots.get? j = some d ∧ d.state = some .placeholder) :
    ∃ d', slots'.get? j = some d' ∧ d'.state = some .placeholder := by
  obtain ⟨d, hd, hp⟩ := hd
  obtain ⟨d', hd', -, -, hfixed⟩ := ho.exists_record hd
  exact ⟨d', hd', hfixed.mpr hp⟩

end SameOutlines

def Replaces (slots slots' : SlotPool (EntryRecord P H)) (i : UInt32) (d : EntryRecord P H) :
    Prop :=
  ∀ j, slots'.get? j = if i = j then some d else slots.get? j

namespace Replaces

variable (hr : Replaces slots slots' i d)

include hr

theorem get?_self : slots'.get? i = some d := by rw [hr, if_pos rfl]

theorem get?_of_ne (hij : i ≠ j) : slots'.get? j = slots.get? j := by rw [hr, if_neg hij]

theorem inUse_iff (hij : i ≠ j) : InUse slots' j d' ↔ InUse slots j d' := by
  rw [InUse, InUse, hr.get?_of_ne hij]

theorem eq_or_ne (hd : slots'.get? j = some d') :
    i = j ∧ d = d' ∨ i ≠ j ∧ slots.get? j = some d' := by
  by_cases hij : i = j
  · subst hij
    exact Or.inl ⟨rfl, Option.some.inj (hr.get?_self.symm.trans hd)⟩
  · exact Or.inr ⟨hij, hr.get?_of_ne hij ▸ hd⟩

theorem trans {slots'' : SlotPool (EntryRecord P H)} (hr' : Replaces slots' slots'' i d') :
    Replaces slots slots'' i d' := fun j => by
  rw [hr' j]
  split
  · rfl
  · next hij => exact hr.get?_of_ne hij

end Replaces

namespace Agree

section

variable (h : Agree slots lookup fixed free)

include h

theorem eq_of_key_eq (hu : InUse slots i d) (hu' : InUse slots j d') (hk : d.key = d'.key) :
    i = j := by
  apply toUInt64_inj
  rw [← h.found i d hu, hk, h.found j d' hu']

theorem exists_inUse (hv : lookup.get key ≠ nullValue) :
    ∃ i d, lookup.get key = i.toUInt64 ∧ InUse slots i d ∧ d.key = key := by
  obtain ⟨i, d, hu, rfl⟩ := h.held key hv
  exact ⟨i, d, h.found i d hu, hu, rfl⟩

theorem not_mem_free (hu : InUse slots i d) : i ∉ free := fun hi =>
  hu.2 ((h.mem_free_iff i d hu.1).mp hi)

theorem exists_free (hi : i ∈ free) : ∃ d, slots.get? i = some d ∧ d.state = none := by
  obtain ⟨s, hs⟩ := h.stack.exists_slot? hi
  have hd : slots.get? i = some s.value := by rw [SlotPool.get?, hs]; rfl
  exact ⟨s.value, hd, (h.mem_free_iff i _ hd).mp hi⟩

theorem perm_fixed {fixed' : List UInt32} (hperm : fixed.Perm fixed') :
    Agree slots lookup fixed' free :=
  { h with
    nodup_fixed := hperm.nodup_iff.mp h.nodup_fixed
    mem_fixed_iff := fun i => by rw [← hperm.mem_iff, h.mem_fixed_iff i] }

theorem congr (hs : slots'.HasStack free) (ho : SameOutlines slots slots')
    (hp : lookup'.IsProbing) (hl : ∀ key, lookup'.get key = lookup.get key) :
    Agree slots' lookup' fixed free := by
  refine ⟨hs, hp, fun j d' hd' => ?_, fun j d' hu' => ?_, fun key hv => ?_, h.nodup_fixed,
    fun j => ?_⟩
  · obtain ⟨d, hd, -, hnone, -⟩ := ho.symm.exists_record hd'
    rw [h.mem_free_iff j d hd, hnone]
  · obtain ⟨d, hu, hkey⟩ := ho.symm.exists_inUse hu'
    rw [hl, ← hkey, h.found j d hu]
  · rw [hl] at hv
    obtain ⟨j, d, hu, rfl⟩ := h.held key hv
    obtain ⟨d', hu', hkey⟩ := ho.exists_inUse hu
    exact ⟨j, d', hu', hkey⟩
  · rw [h.mem_fixed_iff j]
    exact ⟨ho.exists_placeholder, ho.symm.exists_placeholder⟩

theorem modify {f : EntryRecord P H → EntryRecord P H}
    (hf : ∀ d, slots.get? i = some d → (f d).outline = d.outline) :
    Agree (slots.modify i f) lookup fixed free := by
  refine h.congr (h.stack.modify i f) (fun j => ?_) h.probing fun _ => rfl
  rw [SlotPool.get?_modify]
  split
  · next hij =>
    subst hij
    cases hd : slots.get? i with
    | none => rfl
    | some d => exact congrArg some (hf d hd)
  · rfl

theorem key_ne (hkey : lookup.get key = nullValue) (hu : InUse slots i d) : d.key ≠ key := by
  rintro rfl
  exact toUInt64_ne_nullValue i ((h.found i d hu).symm.trans hkey)

theorem not_mem_fixed (hi : i ∈ free) : i ∉ fixed := by
  obtain ⟨d, hd, hnone⟩ := h.exists_free hi
  rw [h.mem_fixed_iff i]
  rintro ⟨d', hd', hp⟩
  cases hd.symm.trans hd'
  rw [hnone] at hp
  cases hp

end

theorem begin_use {state : EntryState} (h : Agree slots lookup fixed (i :: free))
    (hs : slots'.HasStack free) (hr : Replaces slots slots' i d) (hstate : d.state = some state)
    (hp : lookup'.IsProbing)
    (hl : ∀ key, lookup'.get key = if key = d.key then i.toUInt64 else lookup.get key)
    (hkey : lookup.get d.key = nullValue) :
    Agree slots' lookup' (if state = .placeholder then i :: fixed else fixed) free := by
  have hused : InUse slots' i d := ⟨hr.get?_self, by simp [hstate]⟩
  have hfixed := h.not_mem_fixed List.mem_cons_self
  refine ⟨hs, hp, fun j d' hd' => ?_, fun j d' hu => ?_, fun key hv => ?_, ?_, fun j => ?_⟩
  · rcases hr.eq_or_ne hd' with ⟨rfl, rfl⟩ | ⟨hij, hd'⟩
    · exact iff_of_false (List.nodup_cons.mp h.stack.nodup).1 hused.2
    · rw [← h.mem_free_iff j d' hd', List.mem_cons, or_iff_right (Ne.symm hij)]
  · rcases hr.eq_or_ne hu.1 with ⟨rfl, rfl⟩ | ⟨hij, hd'⟩
    · rw [hl, if_pos rfl]
    · have hu : InUse slots j d' := ⟨hd', hu.2⟩
      rw [hl, if_neg (h.key_ne hkey hu), h.found j d' hu]
  · rw [hl] at hv
    split at hv
    · next hk => exact ⟨i, d, hused, hk.symm⟩
    · obtain ⟨j, d', hu, hk⟩ := h.held key hv
      have hij : i ≠ j := by
        rintro rfl
        exact h.not_mem_free hu List.mem_cons_self
      exact ⟨j, d', (hr.inUse_iff hij).mpr hu, hk⟩
  · split
    · exact List.nodup_cons.mpr ⟨hfixed, h.nodup_fixed⟩
    · exact h.nodup_fixed
  · by_cases hij : i = j
    · subst hij
      simp only [hr.get?_self, Option.some.injEq, exists_eq_left', hstate]
      split
      · next hp => simp [hp]
      · next hp => simp [hp, hfixed]
    · rw [hr.get?_of_ne hij, ← h.mem_fixed_iff j]
      split
      · rw [List.mem_cons, or_iff_right (Ne.symm hij)]
      · rfl

theorem end_use (h : Agree slots lookup fixed free) (hu : InUse slots i d)
    (hno : d.state ≠ some .placeholder) (hs : slots'.HasStack (i :: free))
    (hr : Replaces slots slots' i d') (hstate : d'.state = none) (hp : lookup'.IsProbing)
    (hl : ∀ key, lookup'.get key = if key = d.key then nullValue else lookup.get key) :
    Agree slots' lookup' fixed (i :: free) := by
  refine ⟨hs, hp, fun j d₁ hd₁ => ?_, fun j d₁ hu₁ => ?_, fun key hv => ?_, h.nodup_fixed,
    fun j => ?_⟩
  · rcases hr.eq_or_ne hd₁ with ⟨rfl, rfl⟩ | ⟨hij, hd₁⟩
    · exact iff_of_true List.mem_cons_self hstate
    · rw [← h.mem_free_iff j d₁ hd₁, List.mem_cons, or_iff_right (Ne.symm hij)]
  · rcases hr.eq_or_ne hu₁.1 with ⟨rfl, rfl⟩ | ⟨hij, hd₁⟩
    · exact absurd hstate hu₁.2
    · have hu₂ : InUse slots j d₁ := ⟨hd₁, hu₁.2⟩
      rw [hl, if_neg fun hk => hij (h.eq_of_key_eq hu hu₂ hk.symm), h.found j d₁ hu₂]
  · rw [hl] at hv
    split at hv
    · exact absurd rfl hv
    · next hk =>
      obtain ⟨j, d₁, hu₁, rfl⟩ := h.held key hv
      have hij : i ≠ j := by
        rintro rfl
        cases hu.1.symm.trans hu₁.1
        exact hk rfl
      exact ⟨j, d₁, (hr.inUse_iff hij).mpr hu₁, rfl⟩
  · rw [h.mem_fixed_iff j]
    by_cases hij : i = j
    · subst hij
      simp [hr.get?_self, hu.1, hno, hstate]
    · rw [hr.get?_of_ne hij]

theorem length_eq_countP (l : List (SlotPool.Slot (EntryRecord P H))) :
    l.length = l.countP (fun s => s.value.state.isNone) +
      l.countP (fun s => s.value.state == some .placeholder) +
      ((l.map SlotPool.Slot.value).filter EntryRecord.isCounted).length := by
  induction l with
  | nil => rfl
  | cons s l ih =>
    simp only [List.length_cons, List.countP_cons, List.map_cons, List.filter_cons]
    rcases hstate : s.value.state with - | state
    · simp [EntryRecord.isCounted, hstate]
      omega
    · by_cases hp : state = .placeholder
      · simp [EntryRecord.isCounted, hstate, hp]
        omega
      · simp [EntryRecord.isCounted, hstate, hp]
        omega

theorem capacity_eq (h : Agree slots lookup fixed free) :
    slots.capacity = free.length + fixed.length + usedCount slots := by
  have hfree : slots.slots.toList.countP (fun s => s.value.state.isNone) = free.length :=
    SlotPool.countP_slots h.stack.nodup h.stack.capacity_le fun i => by
      constructor
      · intro hi
        obtain ⟨d, hd, hnone⟩ := h.exists_free hi
        obtain ⟨s, hs, rfl⟩ := Option.map_eq_some_iff.mp hd
        exact ⟨s, hs, Option.isNone_iff_eq_none.mpr hnone⟩
      · rintro ⟨s, hs, hnone⟩
        exact (h.mem_free_iff i s.value (congrArg _ hs)).mpr (Option.isNone_iff_eq_none.mp hnone)
  have hfixed : slots.slots.toList.countP (fun s => s.value.state == some .placeholder) =
      fixed.length :=
    SlotPool.countP_slots h.nodup_fixed h.stack.capacity_le fun i => by
      rw [h.mem_fixed_iff i]
      constructor
      · rintro ⟨d, hd, hp⟩
        obtain ⟨s, hs, rfl⟩ := Option.map_eq_some_iff.mp hd
        exact ⟨s, hs, beq_iff_eq.mpr hp⟩
      · rintro ⟨s, hs, hp⟩
        exact ⟨s.value, congrArg _ hs, beq_iff_eq.mp hp⟩
  rw [SlotPool.capacity, ← Array.length_toList, length_eq_countP, hfree, hfixed]
  rfl

end Agree

end MemoryKit.Registry
