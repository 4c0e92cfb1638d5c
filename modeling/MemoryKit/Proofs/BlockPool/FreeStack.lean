import Mathlib.Data.List.Nodup
import MemoryKit.BlockPool

/-! # The stack of free blocks

The links of the free blocks form a stack that begins at the top of the pool. Every block is either
on the stack, once, or handed out, and the count of free blocks is the height of the stack.
-/

namespace MemoryKit.BlockPool

variable {p p' : BlockPool} {free : List Nat} {i j : Nat}

/-- The links lead from a place of the stack through the free blocks, top first, and end there. -/
def Stacked (p : BlockPool) : Option Nat → List Nat → Prop
  | top, [] => top = none
  | top, i :: free =>
    top = some i ∧ ∃ below, p.links[i]? = some (.free below) ∧ p.Stacked below free

structure HasStack (p : BlockPool) (free : List Nat) : Prop where
  stacked : p.Stacked p.top free
  nodup : free.Nodup
  mem_iff : ∀ i, i ∈ free ↔ ∃ below, p.links[i]? = some (.free below)
  available_eq : p.available = free.length

theorem Stacked.congr {top : Option Nat} (h : p.Stacked top free)
    (hl : ∀ j ∈ free, p'.links[j]? = p.links[j]?) : p'.Stacked top free := by
  induction free generalizing top with
  | nil => exact h
  | cons i free ih =>
    obtain ⟨htop, below, hi, hrest⟩ := h
    refine ⟨htop, below, (hl i List.mem_cons_self).trans hi, ?_⟩
    exact ih hrest fun j hj => hl j (List.mem_cons_of_mem i hj)

/-- A place is the same once it has been a word, as every index below the greatest capacity is. -/
theorem Link.placeOfWord_placeWord {place : Option Nat} (h : ∀ i ∈ place, i < maxPoolCapacity) :
    placeOfWord (placeWord place) = place := by
  cases place with
  | none => rfl
  | some i =>
    have hi : (UInt32.ofNat i).toNat = i :=
      UInt32.toNat_ofNat_of_lt' (Nat.lt_trans (h i rfl) (by decide))
    have hne : UInt32.ofNat i ≠ nullIndex := by
      intro he
      rw [he] at hi
      exact absurd (h i rfl) (hi ▸ by decide)
    rw [placeWord, placeOfWord, if_neg hne, hi]

theorem Link.ofWord_toWord {l : Link} (h : ∀ i, l = .free (some i) → i < maxPoolCapacity) :
    ofWord l.toWord = l := by
  cases l with
  | taken => rfl
  | free below =>
    have hbelow : ∀ i ∈ below, i < maxPoolCapacity := fun i hi => h i (congrArg Link.free hi)
    have hne : placeWord below ≠ takenWord := by
      intro he
      have hplace := placeOfWord_placeWord hbelow
      rw [he] at hplace
      exact absurd (hbelow _ hplace.symm) (by decide)
    rw [toWord, ofWord, if_neg hne, placeOfWord_placeWord hbelow]

theorem Stacked.lt_of_mem {top : Option Nat} (h : p.Stacked top free) :
    ∀ i ∈ top, i < p.capacity := by
  cases free with
  | nil =>
    obtain rfl : top = none := h
    nofun
  | cons j free =>
    obtain ⟨rfl, below, hj, -⟩ := h
    rintro i ⟨⟩
    exact (Array.getElem?_eq_some_iff.mp hj).1

theorem Stacked.below_lt {top : Option Nat} (h : p.Stacked top free) (hi : i ∈ free)
    (hl : p.links[i]? = some (.free (some j))) : j < p.capacity := by
  induction free generalizing top with
  | nil => cases hi
  | cons k free ih =>
    obtain ⟨-, below, hk, hrest⟩ := h
    rcases List.mem_cons.mp hi with rfl | hi
    · cases hk.symm.trans hl
      exact hrest.lt_of_mem j rfl
    · exact ih hrest hi

theorem HasStack.ofWord_toWord (h : p.HasStack free) (hcap : p.capacity ≤ maxPoolCapacity) :
    (∀ (i : Nat) (l : Link), p.links[i]? = some l → Link.ofWord l.toWord = l) ∧
      Link.placeOfWord (Link.placeWord p.top) = p.top := by
  constructor
  · intro i l hl
    apply Link.ofWord_toWord
    rintro j rfl
    have hi : i ∈ free := (h.mem_iff i).mpr ⟨_, hl⟩
    exact Nat.lt_of_lt_of_le (h.stacked.below_lt hi hl) hcap
  · apply Link.placeOfWord_placeWord
    intro i hi
    exact Nat.lt_of_lt_of_le (h.stacked.lt_of_mem i hi) hcap

theorem getElem?_fullStack (capacity i : Nat) :
    (fullStack capacity)[i]? =
      if i < capacity then some (.free (if i + 1 < capacity then some (i + 1) else none))
      else none := by
  rw [fullStack, Array.getElem?_ofFn]
  split <;> rfl

theorem stacked_untouched (arena : Arena) (blockSize stride : Nat) {capacity n count : Nat}
    (hn : n + count = capacity) :
    (untouched arena blockSize stride capacity).Stacked (if n < capacity then some n else none)
      (List.range' n count) := by
  induction count generalizing n with
  | zero =>
    rw [if_neg (by omega)]
    rfl
  | succ count ih =>
    rw [if_pos (by omega)]
    refine ⟨rfl, _, (getElem?_fullStack capacity n).trans (if_pos (by omega)), ?_⟩
    exact ih (by omega)

theorem hasStack_untouched (arena : Arena) (blockSize stride capacity : Nat) :
    (untouched arena blockSize stride capacity).HasStack (List.range capacity) where
  stacked := List.range_eq_range' ▸ stacked_untouched arena blockSize stride (Nat.zero_add capacity)
  nodup := List.nodup_range
  mem_iff i := by
    rw [List.mem_range, untouched, getElem?_fullStack]
    constructor
    · intro hi
      exact ⟨_, if_pos hi⟩
    · rintro ⟨below, hi⟩
      by_contra hlt
      rw [if_neg hlt] at hi
      cases hi
  available_eq := List.length_range.symm

theorem deallocate_foreign (hi : p.capacity ≤ i) :
    p.deallocate i = (.error (.foreignIndex i), p) := by
  simp only [deallocate, Array.getElem?_eq_none hi]

namespace HasStack

variable (h : p.HasStack free)

include h

theorem link_eq_taken (hlt : i < p.capacity) (hi : i ∉ free) : p.links[i]? = some .taken := by
  have hlink := Array.getElem?_eq_getElem hlt
  cases hl : p.links[i] with
  | taken => rw [hlink, hl]
  | free below => exact absurd ((h.mem_iff i).mpr ⟨below, hl ▸ hlink⟩) hi

theorem isTaken_iff : p.isTaken i = true ↔ i < p.capacity ∧ i ∉ free := by
  rw [isTaken, beq_iff_eq]
  constructor
  · intro hi
    refine ⟨(Array.getElem?_eq_some_iff.mp hi).1, fun hmem => ?_⟩
    obtain ⟨below, hfree⟩ := (h.mem_iff i).mp hmem
    cases hi.symm.trans hfree
  · rintro ⟨hlt, hi⟩
    exact h.link_eq_taken hlt hi

theorem isSome_block?_iff : (p.block? i).isSome ↔ i < p.capacity ∧ i ∉ free := by
  rw [← h.isTaken_iff, block?]
  split <;> simp [*]

theorem overwrite (i : Nat) (bytes : List UInt8) : (p.overwrite i bytes).HasStack free := by
  unfold BlockPool.overwrite
  split
  · exact ⟨h.stacked.congr fun _ _ => rfl, h.nodup, h.mem_iff, h.available_eq⟩
  · exact h

theorem deallocate_mem (hi : i ∈ free) : p.deallocate i = (.error (.doubleFree i), p) := by
  obtain ⟨below, hi⟩ := (h.mem_iff i).mp hi
  simp only [deallocate, hi]

theorem deallocate_taken (hlt : i < p.capacity) (hi : i ∉ free) :
    ∃ p', p.deallocate i = (.ok (), p') ∧ p'.HasStack (i :: free) ∧ p'.arena = p.arena ∧
      p'.stride = p.stride ∧ p'.capacity = p.capacity := by
  have hlink := h.link_eq_taken hlt hi
  simp only [deallocate, hlink]
  refine ⟨_, rfl, ⟨⟨rfl, p.top, ?_, ?_⟩, List.nodup_cons.mpr ⟨hi, h.nodup⟩, fun j => ?_, ?_⟩,
    rfl, rfl, Array.size_setIfInBounds⟩
  · exact Array.getElem?_setIfInBounds_self_of_lt hlt
  · refine Stacked.congr (p := p) h.stacked fun j hj => ?_
    have hne : i ≠ j := fun he => hi (he ▸ hj)
    exact Array.getElem?_setIfInBounds_ne hne
  · rw [List.mem_cons, Array.getElem?_setIfInBounds]
    split
    · next hij => exact iff_of_true (.inl hij.symm) ⟨p.top, if_pos hlt⟩
    · next hij => rw [h.mem_iff, or_iff_right (Ne.symm hij)]
  · exact congrArg (· + 1) h.available_eq

end HasStack

theorem allocate_nil (h : p.HasStack []) :
    p.allocate = ⟨none, p, [.debug s!"Pool exhausted ({p.capacity} blocks)"]⟩ := by
  have htop : p.top = none := h.stacked
  simp only [allocate, htop]

theorem allocate_cons (h : p.HasStack (i :: free)) :
    ∃ p', p.allocate = .quiet (some i) p' ∧ p'.HasStack free ∧ p'.arena = p.arena ∧
      p'.stride = p.stride ∧ p'.capacity = p.capacity := by
  obtain ⟨htop, below, hi, hrest⟩ := h.stacked
  obtain ⟨hnot, hnd⟩ := List.nodup_cons.mp h.nodup
  simp only [allocate, htop, hi]
  refine ⟨_, rfl, ⟨?_, hnd, fun j => ?_, ?_⟩, rfl, rfl, Array.size_setIfInBounds⟩
  · refine Stacked.congr (p := p) hrest fun j hj => ?_
    have hne : i ≠ j := fun he => hnot (he ▸ hj)
    exact Array.getElem?_setIfInBounds_ne hne
  · rw [Array.getElem?_setIfInBounds]
    split
    · next hij => simp [← hij, hnot]
    · next hij => rw [← h.mem_iff, List.mem_cons, or_iff_right (Ne.symm hij)]
  · exact congrArg (· - 1) h.available_eq

end MemoryKit.BlockPool
