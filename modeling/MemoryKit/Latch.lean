/-! # Countdown latches

A latch counts outstanding work down to zero and fires there. Work can be added only before it
fires; a restart sets a new count.
-/

namespace MemoryKit

inductive LatchError where
  | alreadyReleased
  | underflow
  deriving DecidableEq, Repr

def LatchError.message : LatchError → String
  | .alreadyReleased => "the latch already reached zero"
  | .underflow => "released a latch that is already at zero"

/-- The number of work items that still keep waiters waiting. -/
structure Latch where
  outstanding : Nat
  deriving DecidableEq, Repr

namespace Latch

/-- A latch that fires after `count` releases; a negative count is zero. -/
def ofCount (count : Int) : Latch := ⟨count.toNat⟩

def isFired (l : Latch) : Bool := l.outstanding == 0

def reference (l : Latch) : Except LatchError Latch :=
  if l.isFired then .error .alreadyReleased else .ok ⟨l.outstanding + 1⟩

def release (l : Latch) : Except LatchError Latch :=
  if l.isFired then .error .underflow else .ok ⟨l.outstanding - 1⟩

def releaseMany (l : Latch) (count : Nat) : Nat × Latch :=
  (min count l.outstanding, ⟨l.outstanding - count⟩)

def text (l : Latch) : String := s!"CountdownLatch (outstanding: {l.outstanding})"

end Latch

end MemoryKit
