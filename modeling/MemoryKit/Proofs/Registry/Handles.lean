import MemoryKit.Proofs.Registry.Agreement
import MemoryKit.Proofs.SlotPool.Values

/-! # The handles of records

The handles that the records of a registry hold, one after the other. A change of a single record
takes the handle of the old record out and puts that of the new one in.
-/

namespace MemoryKit.Registry

variable {P H : Type} {slots slots' : SlotPool (EntryRecord P H)} {i : UInt32}
  {d d' : EntryRecord P H}

def handles (slots : SlotPool (EntryRecord P H)) : List H :=
  slots.values.filterMap EntryRecord.handle

/-- The handles of the records in use. -/
def held (slots : SlotPool (EntryRecord P H)) : List H :=
  (slots.values.filter fun d => d.state.isSome).filterMap EntryRecord.handle

theorem handles_eq_nil (hcap : slots.capacity ≤ maxPoolCapacity)
    (h : ∀ i d, slots.get? i = some d → d.handle = none) : handles slots = [] := by
  apply List.filterMap_eq_nil_iff.mpr
  intro d hd
  obtain ⟨i, hi⟩ := (SlotPool.mem_values_iff hcap).mp hd
  exact h i d hi

theorem held_eq_handles (hcap : slots.capacity ≤ maxPoolCapacity)
    (h : ∀ i d, slots.get? i = some d → d.state = none → d.handle = none) :
    held slots = handles slots := by
  rw [held, List.filterMap_filter]
  apply List.filterMap_congr
  intro d hd
  obtain ⟨i, hi⟩ := (SlotPool.mem_values_iff hcap).mp hd
  split
  · rfl
  · next hs =>
    exact (h i d hi (Option.isNone_iff_eq_none.mp (by simpa using hs))).symm

theorem handles_congr (hcap : slots.capacity ≤ maxPoolCapacity)
    (hcapacity : slots'.capacity = slots.capacity)
    (h : ∀ j, (slots'.get? j).map EntryRecord.handle = (slots.get? j).map EntryRecord.handle) :
    handles slots' = handles slots := by
  have hvalues := congrArg (List.filterMap id) (SlotPool.map_values_congr hcap hcapacity h)
  rwa [List.filterMap_map, List.filterMap_map, Function.id_comp] at hvalues

theorem Replaces.exists_rest (hr : Replaces slots slots' i d') (hd : slots.get? i = some d)
    (hcap : slots.capacity ≤ maxPoolCapacity) (hcapacity : slots'.capacity = slots.capacity) :
    ∃ rest, (handles slots).Perm (d.handle.toList ++ rest) ∧
      (handles slots').Perm (d'.handle.toList ++ rest) := by
  obtain ⟨rest, hrest, hset⟩ := SlotPool.exists_rest_of_set
    ((SlotPool.getElem?_values slots i).trans hd) EntryRecord.handle
  refine ⟨rest, hrest, ?_⟩
  rw [handles, SlotPool.values_set hcap hcapacity hr]
  exact hset d'

end MemoryKit.Registry
