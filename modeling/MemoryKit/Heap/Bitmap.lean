/-! # Bitmaps

A bitmap is a set of numbers below 32. The search for the least member from a number on masks the
members below it and counts the zeros at the low end.
-/

namespace MemoryKit

/-- A set of numbers below 32. -/
abbrev Bitmap : Type := BitVec 32

namespace Bitmap

def empty : Bitmap := 0#32

def contains (b : Bitmap) (i : Nat) : Bool := b.getLsbD i

def insert (b : Bitmap) (i : Nat) : Bitmap := b ||| (1#32 <<< i)

def erase (b : Bitmap) (i : Nat) : Bitmap := b &&& ~~~(1#32 <<< i)

def isEmpty (b : Bitmap) : Bool := b == 0#32

def lowest? (b : Bitmap) : Option Nat := if b.isEmpty then none else some b.ctz.toNat

def fromOn (b : Bitmap) (i : Nat) : Bitmap := b &&& (BitVec.allOnes 32 <<< i)

def lowestFrom? (b : Bitmap) (i : Nat) : Option Nat := (b.fromOn i).lowest?

@[simp] theorem contains_empty (i : Nat) : empty.contains i = false := by
  simp [empty, contains]

theorem contains_insert (b : Bitmap) {i j : Nat} (hi : i < 32) :
    (b.insert i).contains j = (b.contains j || i == j) := by
  simp only [contains, insert, BitVec.getLsbD_or, BitVec.getLsbD_shiftLeft, BitVec.getLsbD_one]
  congr 1
  rw [Bool.eq_iff_iff]
  simp
  omega

theorem contains_erase (b : Bitmap) (i j : Nat) :
    (b.erase i).contains j = (b.contains j && i != j) := by
  simp only [contains, erase, BitVec.getLsbD_and, BitVec.getLsbD_not, BitVec.getLsbD_shiftLeft,
    BitVec.getLsbD_one]
  by_cases hj : j < 32
  · rw [Bool.eq_iff_iff]
    simp [hj]
    omega
  · simp [BitVec.getLsbD_of_ge b j (by omega)]

theorem isEmpty_iff {b : Bitmap} : b.isEmpty = true ↔ ∀ i, b.contains i = false := by
  simp only [isEmpty, beq_iff_eq, contains]
  constructor
  · rintro rfl i
    simp
  · intro h
    apply BitVec.eq_of_getLsbD_eq
    intro i _
    simp [h i]

theorem contains_fromOn (b : Bitmap) (i j : Nat) :
    (b.fromOn i).contains j = (b.contains j && decide (i ≤ j)) := by
  simp only [contains, fromOn, BitVec.getLsbD_and, BitVec.getLsbD_shiftLeft, BitVec.getLsbD_allOnes]
  by_cases hj : j < 32
  · by_cases hij : i ≤ j
    · simp [hj, hij]
      omega
    · simp [hj, hij]
  · simp [BitVec.getLsbD_of_ge b j (by omega)]

theorem contains_of_lowest? {b : Bitmap} {i : Nat} (h : b.lowest? = some i) :
    b.contains i = true := by
  unfold lowest? at h
  split at h
  · cases h
  · next hb =>
    cases h
    exact BitVec.getLsbD_true_ctz_of_ne_zero (by simpa [isEmpty] using hb)

theorem lowest?_le {b : Bitmap} {i j : Nat} (h : b.lowest? = some i) (hj : b.contains j = true) :
    i ≤ j := by
  unfold lowest? at h
  split at h
  · cases h
  · cases h
    apply Nat.le_of_not_lt
    intro hlt
    rw [contains, BitVec.getLsbD_false_of_lt_ctz hlt] at hj
    cases hj

theorem lowest?_eq_none_iff {b : Bitmap} : b.lowest? = none ↔ ∀ i, b.contains i = false := by
  rw [← isEmpty_iff]
  unfold lowest?
  split <;> simp_all

end Bitmap

end MemoryKit
