import MemoryKit.Word

/-! # Size classes

Sizes are multiples of the granule. Sizes below 256 have a class each; every power of two from 256
on is cut into sixteen classes. A class holds the sizes from its least one up to the next class.
-/

namespace MemoryKit

def granule : Nat := 16

def headerSize : Nat := 16

/-- A class of sizes: the bin and the position in the bin. -/
structure SizeClass where
  bin : Nat
  sub : Nat
  deriving DecidableEq, Repr, Inhabited

namespace SizeClass

def binCount : Nat := 25

def subCount : Nat := 16

def count : Nat := binCount * subCount

/-- The least size that is not binned linearly. -/
def linearLimit : Nat := 256

def index (c : SizeClass) : Nat := c.bin * subCount + c.sub

def ofIndex (i : Nat) : SizeClass := ⟨i / subCount, i % subCount⟩

protected def le (c d : SizeClass) : Prop := c.bin < d.bin ∨ c.bin = d.bin ∧ c.sub ≤ d.sub

instance : LE SizeClass := ⟨SizeClass.le⟩

instance (c d : SizeClass) : Decidable (c ≤ d) :=
  inferInstanceAs (Decidable (c.bin < d.bin ∨ c.bin = d.bin ∧ c.sub ≤ d.sub))

def step (size : Nat) : Nat :=
  if size < linearLimit then 1 else 1 <<< (size.log2 - 4)

def ofSize (size : Nat) : SizeClass :=
  if size < linearLimit then ⟨0, size / granule⟩
  else ⟨size.log2 - 7, size / (1 <<< (size.log2 - 4)) - subCount⟩

/-- The least size that begins a class and is not below the given one, if it is a word. -/
def ceil? (size : Nat) : Option Nat := ceilTo? wordLimit (step size) size

/-- The size that a request is rounded up to, and the class at which the search for it begins. -/
def roundUp? (size : Nat) : Option (Nat × SizeClass) := (ceil? size).map fun r => (r, ofSize r)

def ceilOrSelf (size : Nat) : Nat := (ceil? size).getD size

end SizeClass

end MemoryKit
