import Std.Data.TreeMap
import MemoryKit.Word

/-! # Byte memory

A memory gives every offset a byte, zero until the first write. Words are four bytes, the least
significant first. Reading after a write gives the written value inside the written range and the
old one outside.
-/

namespace MemoryKit

/-- Bytes by offset; an offset that was never written holds zero. -/
structure Memory where
  cells : Std.TreeMap Nat UInt8 := {}

namespace Memory

def zeroed : Memory := {}

def byte (m : Memory) (offset : Nat) : UInt8 := m.cells.getD offset 0

def setByte (m : Memory) (offset : Nat) (value : UInt8) : Memory :=
  ⟨m.cells.insert offset value⟩

def read (m : Memory) (offset count : Nat) : List UInt8 :=
  (List.range count).map fun i => m.byte (offset + i)

def write (m : Memory) (offset : Nat) : List UInt8 → Memory
  | [] => m
  | b :: bytes => (m.setByte offset b).write (offset + 1) bytes

def copy (m : Memory) (source target count : Nat) : Memory :=
  m.write target (m.read source count)

/-- The word whose least significant byte is at the offset. -/
def word (m : Memory) (offset : Nat) : Nat :=
  (m.byte offset).toNat + 256 * (m.byte (offset + 1)).toNat +
    65536 * (m.byte (offset + 2)).toNat + 16777216 * (m.byte (offset + 3)).toNat

def wordBytes (value : Nat) : List UInt8 :=
  [.ofNat value, .ofNat (value / 256), .ofNat (value / 65536), .ofNat (value / 16777216)]

def setWord (m : Memory) (offset value : Nat) : Memory := m.write offset (wordBytes value)

@[simp] theorem byte_zeroed (offset : Nat) : zeroed.byte offset = 0 := by
  simp [byte, zeroed]

theorem byte_setByte (m : Memory) (offset i : Nat) (value : UInt8) :
    (m.setByte offset value).byte i = if offset = i then value else m.byte i := by
  simp only [byte, setByte]
  grind

theorem byte_write (m : Memory) (offset i : Nat) (bytes : List UInt8) :
    (m.write offset bytes).byte i =
      if offset ≤ i ∧ i < offset + bytes.length then bytes.getD (i - offset) 0 else m.byte i := by
  induction bytes generalizing m offset with
  | nil =>
    have : ¬ (offset ≤ i ∧ i < offset) := by omega
    simp [write, this]
  | cons b bytes ih =>
    rw [write, ih, byte_setByte]
    by_cases h : offset = i
    · subst h
      rw [if_neg (by omega), if_pos rfl, if_pos (by simp)]
      simp
    · by_cases h' : offset + 1 ≤ i ∧ i < offset + 1 + bytes.length
      · obtain ⟨k, rfl⟩ : ∃ k, i = offset + 1 + k := ⟨i - (offset + 1), by omega⟩
        have h₁ : offset + 1 + k - (offset + 1) = k := by omega
        have h₂ : offset + 1 + k - offset = k + 1 := by omega
        have h₃ : offset ≤ offset + 1 + k ∧ offset + 1 + k < offset + (b :: bytes).length := by
          simp only [List.length_cons]; omega
        rw [if_pos h', if_pos h₃, h₁, h₂, List.getD_cons_succ]
      · have h₃ : ¬ (offset ≤ i ∧ i < offset + (b :: bytes).length) := by
          simp only [List.length_cons]; omega
        rw [if_neg h', if_neg h, if_neg h₃]

theorem byte_write_of_outside {m : Memory} {offset i : Nat} {bytes : List UInt8}
    (h : i < offset ∨ offset + bytes.length ≤ i) : (m.write offset bytes).byte i = m.byte i := by
  rw [byte_write, if_neg (by omega)]

@[simp] theorem length_read (m : Memory) (offset count : Nat) :
    (m.read offset count).length = count := by
  simp [read]

theorem read_congr {m m' : Memory} {offset count : Nat}
    (h : ∀ i, offset ≤ i → i < offset + count → m.byte i = m'.byte i) :
    m.read offset count = m'.read offset count := by
  apply List.map_congr_left
  intro i hi
  have := List.mem_range.mp hi
  exact h _ (by omega) (by omega)

theorem read_write_of_disjoint {m : Memory} {offset i count : Nat} {bytes : List UInt8}
    (h : i + count ≤ offset ∨ offset + bytes.length ≤ i) :
    (m.write offset bytes).read i count = m.read i count :=
  read_congr fun _ _ _ => byte_write_of_outside (by omega)

theorem read_write (m : Memory) (offset : Nat) (bytes : List UInt8) :
    (m.write offset bytes).read offset bytes.length = bytes := by
  apply List.ext_getElem (length_read ..)
  intro i _ hi
  simp [read, byte_write, hi]

theorem byte_copy_of_outside (m : Memory) (source : Nat) {target count i : Nat}
    (h : i < target ∨ target + count ≤ i) : (m.copy source target count).byte i = m.byte i :=
  byte_write_of_outside (by rwa [length_read])

theorem byte_copy (m : Memory) (source target : Nat) {count i : Nat} (h : i < count) :
    (m.copy source target count).byte (target + i) = m.byte (source + i) := by
  have hr : target ≤ target + i ∧ target + i < target + (m.read source count).length := by
    rw [length_read]
    omega
  rw [copy, byte_write, if_pos hr, Nat.add_sub_cancel_left]
  simp [read, h]

theorem word_congr {m m' : Memory} {offset : Nat}
    (h : ∀ i, offset ≤ i → i < offset + 4 → m.byte i = m'.byte i) :
    m.word offset = m'.word offset := by
  simp only [word]
  rw [h offset (by omega) (by omega), h (offset + 1) (by omega) (by omega),
    h (offset + 2) (by omega) (by omega), h (offset + 3) (by omega) (by omega)]

theorem word_copy_of_outside (m : Memory) (source : Nat) {target count i : Nat}
    (h : i + 4 ≤ target ∨ target + count ≤ i) : (m.copy source target count).word i = m.word i :=
  word_congr fun _ _ _ => byte_copy_of_outside m source (by omega)

theorem word_copy (m : Memory) (source target : Nat) {count i : Nat} (h : i + 4 ≤ count) :
    (m.copy source target count).word (target + i) = m.word (source + i) := by
  have hbyte : ∀ j < 4, (m.copy source target count).byte (target + i + j) =
      m.byte (source + i + j) := fun j hj => by
    rw [Nat.add_assoc, Nat.add_assoc, byte_copy m source target (by omega)]
  have hfirst := hbyte 0 (by omega)
  simp only [Nat.add_zero] at hfirst
  simp only [word]
  rw [hfirst, hbyte 1 (by omega), hbyte 2 (by omega), hbyte 3 (by omega)]

theorem word_lt (m : Memory) (offset : Nat) : m.word offset < wordLimit := by
  have h₀ := (m.byte offset).toNat_lt
  have h₁ := (m.byte (offset + 1)).toNat_lt
  have h₂ := (m.byte (offset + 2)).toNat_lt
  have h₃ := (m.byte (offset + 3)).toNat_lt
  simp only [word, wordLimit]
  omega

theorem byte_setWord_of_outside {m : Memory} {offset i value : Nat}
    (h : i < offset ∨ offset + 4 ≤ i) : (m.setWord offset value).byte i = m.byte i :=
  byte_write_of_outside (by simpa [wordBytes] using h)

theorem word_setWord (m : Memory) (offset value : Nat) :
    (m.setWord offset value).word offset = value % wordLimit := by
  simp only [word, setWord, wordBytes, byte_write, List.length_cons, List.length_nil, wordLimit]
  simp
  omega

theorem word_setWord_of_disjoint {m : Memory} {offset i value : Nat}
    (h : i + 4 ≤ offset ∨ offset + 4 ≤ i) : (m.setWord offset value).word i = m.word i := by
  simp only [word]
  rw [byte_setWord_of_outside (by omega), byte_setWord_of_outside (by omega),
    byte_setWord_of_outside (by omega), byte_setWord_of_outside (by omega)]

end Memory

end MemoryKit
