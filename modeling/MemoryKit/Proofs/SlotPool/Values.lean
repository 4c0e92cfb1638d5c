import Mathlib.Data.List.Perm.Basic
import MemoryKit.Proofs.SlotPool.FreeStack

/-! # The values of a pool

The values of all slots in a list, by index. The list changes with the value of a slot in one place,
and not at all when slots are handed out or returned.
-/

namespace MemoryKit.SlotPool

variable {α β : Type} {p p' : SlotPool α} {i : UInt32} {a a' : α}

theorem length_values (p : SlotPool α) : p.values.length = p.capacity := by
  rw [values, List.length_map, Array.length_toList, capacity]

theorem getElem?_values (p : SlotPool α) (i : UInt32) : p.values[i.toNat]? = p.get? i := by
  rw [values, List.getElem?_map, Array.getElem?_toList]
  rfl

theorem mem_values_iff (hcap : p.capacity ≤ maxPoolCapacity) :
    a ∈ p.values ↔ ∃ i, p.get? i = some a := by
  rw [List.mem_iff_getElem?]
  constructor
  · rintro ⟨n, hn⟩
    have hlt := (List.getElem?_eq_some_iff.mp hn).1
    rw [length_values] at hlt
    exact ⟨.ofNat n, by rw [← getElem?_values, toNat_ofNat_of_lt hcap hlt, hn]⟩
  · rintro ⟨i, hi⟩
    exact ⟨i.toNat, by rw [getElem?_values, hi]⟩

theorem map_values_congr {g : α → β} (hcap : p.capacity ≤ maxPoolCapacity)
    (hcapacity : p'.capacity = p.capacity)
    (h : ∀ i, (p'.get? i).map g = (p.get? i).map g) : p'.values.map g = p.values.map g := by
  apply List.ext_getElem?
  intro n
  rw [List.getElem?_map, List.getElem?_map]
  by_cases hn : n < p.capacity
  · have hi := toNat_ofNat_of_lt hcap hn
    rw [← hi, getElem?_values, getElem?_values, h]
  · rw [List.getElem?_eq_none (by rw [length_values]; omega),
      List.getElem?_eq_none (by rw [length_values]; omega)]

theorem values_set (hcap : p.capacity ≤ maxPoolCapacity) (hcapacity : p'.capacity = p.capacity)
    (h : ∀ j, p'.get? j = if i = j then some a' else p.get? j) :
    p'.values = p.values.set i.toNat a' := by
  apply List.ext_getElem?
  intro n
  by_cases hn : n < p.capacity
  · have hj := toNat_ofNat_of_lt hcap hn
    rw [← hj, getElem?_values, h, List.getElem?_set, getElem?_values]
    by_cases hij : i = .ofNat n
    · rw [if_pos hij, if_pos (congrArg _ hij), if_pos (by rwa [length_values, hij, hj])]
    · rw [if_neg hij, if_neg fun he => hij (UInt32.toNat_inj.mp he)]
  · rw [List.getElem?_eq_none (by rw [length_values]; omega),
      List.getElem?_eq_none (by rw [List.length_set, length_values]; omega)]

theorem exists_rest_of_set {l : List α} {n : Nat} (hn : l[n]? = some a) (g : α → Option β) :
    ∃ rest, (l.filterMap g).Perm ((g a).toList ++ rest) ∧
      ∀ a', ((l.set n a').filterMap g).Perm ((g a').toList ++ rest) := by
  obtain ⟨hlt, rfl⟩ := List.getElem?_eq_some_iff.mp hn
  have hcons (b : α) (l : List α) : (b :: l).filterMap g = (g b).toList ++ l.filterMap g := by
    cases hb : g b with
    | none => exact List.filterMap_cons_none hb
    | some c => exact List.filterMap_cons_some hb
  refine ⟨(l.take n).filterMap g ++ (l.drop (n + 1)).filterMap g, ?_, ?_⟩
  · conv_lhs => rw [← List.take_append_drop n l, List.drop_eq_getElem_cons hlt]
    rw [List.filterMap_append, hcons]
    exact List.perm_append_comm_assoc ..
  · intro a'
    rw [List.set_eq_take_cons_drop a' hlt, List.filterMap_append, hcons]
    exact List.perm_append_comm_assoc ..

end MemoryKit.SlotPool
