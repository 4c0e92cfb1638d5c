/-! # Rejected returns to a pool

Blocks and slots are returned by index. A return fails if the index is out of range or if nothing
was handed out under it.
-/

namespace MemoryKit

inductive PoolError where
  | foreignIndex (index : Nat)
  | doubleFree (index : Nat)
  deriving DecidableEq, Repr

def PoolError.message : PoolError → String
  | .foreignIndex index => s!"index {index} does not belong to this pool"
  | .doubleFree index => s!"block {index} is already free"

/-- The greatest number of blocks or slots; it keeps the null index out of range. -/
def maxPoolCapacity : Nat := 4294967294

end MemoryKit
