/-! # Bounded numbers

Sizes, offsets and counters are natural numbers with explicit bounds: words of the memory stay below
`wordLimit`, sizes and addresses below `sizeLimit`. Subtractions wrap around, and roundings that
leave the range have no result.
-/

namespace MemoryKit

/-- Words of the memory are below this number. -/
def wordLimit : Nat := 1 <<< 32

/-- Sizes and addresses are below this number. -/
def sizeLimit : Nat := 1 <<< 64

def wrappingSub (limit a b : Nat) : Nat := (a + (limit - b % limit)) % limit

theorem wrappingSub_eq {limit a b : Nat} (hb : b ≤ a) (ha : a < limit) :
    wrappingSub limit a b = a - b := by
  unfold wrappingSub
  have : a + (limit - b) = a - b + limit := by omega
  rw [Nat.mod_eq_of_lt (Nat.lt_of_le_of_lt hb ha), this, Nat.add_mod_right,
    Nat.mod_eq_of_lt (by omega)]

def isPowerOfTwo (n : Nat) : Bool := n == 1 <<< n.log2

theorem isPowerOfTwo_iff {n : Nat} : isPowerOfTwo n = true ↔ ∃ k, n = 1 <<< k := by
  simp only [isPowerOfTwo, beq_iff_eq, Nat.one_shiftLeft]
  constructor
  · exact fun h => ⟨_, h⟩
  · rintro ⟨k, rfl⟩
    rw [Nat.log2_two_pow]

theorem pos_of_isPowerOfTwo {n : Nat} (h : isPowerOfTwo n = true) : 0 < n := by
  obtain ⟨k, rfl⟩ := isPowerOfTwo_iff.mp h
  exact Nat.one_shiftLeft k ▸ Nat.two_pow_pos k

def ceilTo (step value : Nat) : Nat := (value + (step - 1)) / step * step

theorem le_ceilTo {step : Nat} (value : Nat) (h : 0 < step) : value ≤ ceilTo step value := by
  have := Nat.div_add_mod (value + (step - 1)) step
  have := Nat.mod_lt (value + (step - 1)) h
  rw [Nat.mul_comm] at *
  unfold ceilTo
  omega

theorem ceilTo_lt {step : Nat} (value : Nat) (h : 0 < step) : ceilTo step value < value + step := by
  have : ceilTo step value ≤ value + (step - 1) := Nat.div_mul_le_self _ _
  omega

theorem dvd_ceilTo (step value : Nat) : step ∣ ceilTo step value := Nat.dvd_mul_left _ _

/--
Rounds a size up to a multiple of `step`. There is no result if adding `step - 1` already leaves
the numbers below `limit`.
-/
def ceilTo? (limit step value : Nat) : Option Nat :=
  if value + (step - 1) < limit then some (ceilTo step value) else none

theorem ceilTo?_eq_some_iff {limit step value r : Nat} :
    ceilTo? limit step value = some r ↔ value + (step - 1) < limit ∧ ceilTo step value = r := by
  rw [ceilTo?, Option.ite_none_right_eq_some, Option.some.injEq]

theorem ceilTo?_eq_none_iff {limit step value : Nat} :
    ceilTo? limit step value = none ↔ limit ≤ value + (step - 1) := by
  rw [ceilTo?, ite_eq_right_iff]
  simp

def checkedAdd (a b : Nat) : Option Nat := if a + b < sizeLimit then some (a + b) else none

def checkedMul (a b : Nat) : Option Nat := if a * b < sizeLimit then some (a * b) else none

end MemoryKit
