/-! # Rejected configurations

The reasons for which an arena, a pool, a queue, a key table or a heap cannot be set up.
-/

namespace MemoryKit

inductive ConfigError where
  | unaligned (alignment : Nat)
  | invalidAlignment (alignment : Nat)
  | capacityOverflow (requested max : Nat)
  | blockTooSmall (size : Nat)
  | arenaTooSmall (available required : Nat)
  | outOfMemory (bytes : Nat)
  deriving DecidableEq, Repr

def ConfigError.message : ConfigError → String
  | .unaligned alignment => s!"arena is not aligned to {alignment} bytes"
  | .invalidAlignment alignment => s!"alignment {alignment} is not a power of two"
  | .capacityOverflow requested max => s!"capacity {requested} exceeds the maximum of {max}"
  | .blockTooSmall size => s!"block size {size} is smaller than an index"
  | .arenaTooSmall available required =>
    s!"arena holds {available} bytes but {required} are required"
  | .outOfMemory bytes => s!"the system allocator could not provide {bytes} bytes"

end MemoryKit
