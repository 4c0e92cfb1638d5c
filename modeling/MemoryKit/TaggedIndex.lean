/-! # Tagged indices

An index together with a counter of its changes, packed into one word. A cell that holds a tagged
index is changed by compare-exchange only. Every move counts the tag up, so that a cell that moved
away and back to an index differs from what was seen before, until the tag has gone round.
-/

namespace MemoryKit

def nullIndex : UInt32 := 0xffffffff

/-- An index and the number of moves that led to it, modulo `2 ^ 32`. -/
structure TaggedIndex where
  index : UInt32
  tag : UInt32
  deriving DecidableEq, Repr, Inhabited

namespace TaggedIndex

def null : TaggedIndex := ⟨nullIndex, 0⟩

def isNull (t : TaggedIndex) : Bool := t.index == nullIndex

/-- The move to another index, or to the same one again. -/
def withIndex (t : TaggedIndex) (index : UInt32) : TaggedIndex := ⟨index, t.tag + 1⟩

def toWord (t : TaggedIndex) : UInt64 := (t.tag.toUInt64 <<< 32) ||| t.index.toUInt64

def ofWord (w : UInt64) : TaggedIndex := ⟨w.toUInt32, (w >>> 32).toUInt32⟩

theorem toNat_toWord (t : TaggedIndex) : t.toWord.toNat = (t.tag.toNat <<< 32) + t.index.toNat := by
  have hi := t.index.toNat_lt
  have ht := t.tag.toNat_lt
  simp only [toWord, UInt64.toNat_or, UInt64.toNat_shiftLeft, UInt32.toNat_toUInt64]
  rw [show (32 : UInt64).toNat % 64 = 32 from rfl, Nat.shiftLeft_eq,
    Nat.mod_eq_of_lt (by omega), Nat.mul_comm, ← Nat.two_pow_add_eq_or_of_lt hi]

theorem ofWord_toWord (t : TaggedIndex) : ofWord t.toWord = t := by
  have hi := t.index.toNat_lt
  have ht := t.tag.toNat_lt
  have h := toNat_toWord t
  obtain ⟨index, tag⟩ := t
  simp only [ofWord, TaggedIndex.mk.injEq]
  constructor <;> apply UInt32.toNat_inj.mp
  · rw [UInt64.toNat_toUInt32, h]; simp only at *; omega
  · rw [UInt64.toNat_toUInt32, UInt64.toNat_shiftRight, h,
      show (32 : UInt64).toNat % 64 = 32 from rfl, Nat.shiftRight_eq_div_pow]
    simp only at *; omega

theorem toWord_ofWord (w : UInt64) : (ofWord w).toWord = w := by
  have hw := w.toNat_lt
  apply UInt64.toNat_inj.mp
  rw [toNat_toWord]
  simp only [ofWord, UInt64.toNat_toUInt32, UInt64.toNat_shiftRight]
  rw [show (32 : UInt64).toNat % 64 = 32 from rfl, Nat.shiftRight_eq_div_pow]
  omega

def text (t : TaggedIndex) : String :=
  if t.isNull then s!"TaggedIndex(null, tag: {t.tag})" else s!"TaggedIndex({t.index}, tag: {t.tag})"

structure Cell where
  value : TaggedIndex
  deriving DecidableEq, Repr, Inhabited

namespace Cell

/-- Whether a compare-exchange of the pair is one machine operation. The pair fits into a word. -/
def isLockFree : Bool := true

/--
Replaces the value if it is the expected one. The answer is the value found, marked by whether it
was the expected one.
-/
def compareExchange (c : Cell) (expected new : TaggedIndex) :
    Except TaggedIndex TaggedIndex × Cell :=
  if c.value = expected then (.ok c.value, ⟨new⟩) else (.error c.value, c)

def text (c : Cell) : String := "Atomic" ++ c.value.text

end Cell

end TaggedIndex

end MemoryKit
