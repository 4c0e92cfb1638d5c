import MemoryKit.ConfigError
import MemoryKit.Memory

/-! # Regions and arenas

A region is a contiguous range of addresses, and an arena is a region together with its bytes.
Alignment is a matter of addresses: a region is aligned if its first address is.
-/

namespace MemoryKit

/-- The addresses `start, …, start + size - 1`. -/
structure Region where
  start : Nat
  size : Nat
  deriving DecidableEq, Repr

namespace Region

def isAligned (r : Region) (alignment : Nat) : Bool :=
  isPowerOfTwo alignment && r.start % alignment == 0

def offsetOf? (r : Region) (address : Nat) : Option Nat :=
  if r.start ≤ address ∧ address - r.start < r.size then some (address - r.start) else none

def contains (r : Region) (address : Nat) : Bool := (r.offsetOf? address).isSome

def address (r : Region) (offset : Nat) : Nat := r.start + offset

theorem offsetOf?_eq_some_iff {r : Region} {address offset : Nat} :
    r.offsetOf? address = some offset ↔ address = r.start + offset ∧ offset < r.size := by
  unfold offsetOf?
  split
  · simp only [Option.some.injEq]; omega
  · simp only [reduceCtorEq, false_iff]; omega

theorem offsetOf?_address {r : Region} {offset : Nat} (h : offset < r.size) :
    r.offsetOf? (r.address offset) = some offset :=
  offsetOf?_eq_some_iff.mpr ⟨rfl, h⟩

end Region

structure Arena extends Region where
  /-- Whether the memory was obtained for the arena and not lent to it. -/
  owned : Bool
  memory : Memory

namespace Arena

/-- Where the system places new memory of a size and an alignment, if it has any. -/
def System : Type := Nat → Nat → Option Nat

/-- No memory can be asked for that takes more bytes than this, rounded up to its alignment. -/
def requestLimit : Nat := (1 <<< 63) - 1

def provide (system : System) (size alignment : Nat) : Except ConfigError Arena :=
  if isPowerOfTwo alignment = false then .error (.invalidAlignment alignment)
  else if requestLimit < ceilTo alignment (max size 1) then .error (.outOfMemory size)
  else
    match system (max size 1) alignment with
    | none => .error (.outOfMemory size)
    | some start => .ok { start, size, owned := true, memory := .zeroed }

def borrow (address size : Nat) (memory : Memory) : Arena :=
  { start := address, size, owned := false, memory }

end Arena

end MemoryKit
