/-! # Labels of allocations

A label says what an allocation is for. Its words stay where they stand in memory for as long as the
program runs, and labels are told apart by where that is and how far it reaches: the same words at
another place are another label.
-/

namespace MemoryKit

structure Label where
  address : Nat
  words : String
  deriving DecidableEq, Repr

namespace Label

/-- The place of the words: their address and the number of their bytes. -/
def key (label : Label) : Nat × Nat := (label.address, label.words.utf8ByteSize)

/--
The label of an allocation that begins as a resized null pointer. Its words are the allocator's own,
and addresses of words are told apart by their distance from them.
-/
def resized : Label := ⟨0, "reallocate"⟩

end Label

end MemoryKit
