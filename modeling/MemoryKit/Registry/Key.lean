import MemoryKit.KeyTable

/-! # Keys of names

A name is looked up under a hash of its bytes. The hash avoids the key that marks a vacant place.
-/

namespace MemoryKit

def mixByte (hash : UInt64) (byte : UInt8) : UInt64 :=
  (hash ^^^ byte.toUInt64) * 0x100000001b3

/-- The key of a name: its bytes mixed one by one, where zero replaces the null key. -/
def keyOfName (name : String) : UInt64 :=
  let hash := name.toUTF8.foldl mixByte 0xcbf29ce484222325
  if hash = nullKey then 0 else hash

theorem keyOfName_ne_nullKey (name : String) : keyOfName name ≠ nullKey := by
  unfold keyOfName
  dsimp only
  split
  · decide
  · assumption

end MemoryKit
