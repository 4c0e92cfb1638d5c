import MemoryKit.Heap.FreeIndex
import MemoryKit.Memory

/-! # Block headers

A heap is cut into blocks, named by their offsets, that follow each other without gaps. Every block
begins with four words: its size, whose lowest bit tells whether it is used; the block before it;
and, in a free block, its neighbours in a free list or, in a used one, the tag and the offset of the
data.
-/

namespace MemoryKit

def noLink : Nat := 4294967295

def linkOfWord (w : Nat) : Option Nat := if w = noLink then none else some w

def wordOfLink (link : Option Nat) : Nat := link.getD noLink

def sizeOfWord (w : Nat) : Nat := w / granule * granule

def isUsedWord (w : Nat) : Bool := w % 2 == 1

/-- Memory cut into blocks, and the index of those that are free. -/
structure Heap where
  memory : Memory
  /-- The bytes that the blocks cover, a multiple of the granule. -/
  capacity : Nat
  index : FreeIndex

namespace Heap

def backField : Nat := 4

/-- The distance of the link to the free block before, and of the tag of a used block. -/
def prevField : Nat := 8

/-- The distance of the link to the free block after, and of the data offset of a used block. -/
def nextField : Nat := 12

def word (h : Heap) (offset : Nat) : Nat := h.memory.word offset

def setWord (h : Heap) (offset value : Nat) : Heap :=
  { h with memory := h.memory.setWord offset value }

def blockSize (h : Heap) (b : Nat) : Nat := sizeOfWord (h.word b)

def isUsed (h : Heap) (b : Nat) : Bool := isUsedWord (h.word b)

def before (h : Heap) (b : Nat) : Option Nat := linkOfWord (h.word (b + backField))

def behind (h : Heap) (b : Nat) : Option Nat :=
  if b + h.blockSize b < h.capacity then some (b + h.blockSize b) else none

def prevFree (h : Heap) (b : Nat) : Option Nat := linkOfWord (h.word (b + prevField))

def nextFree (h : Heap) (b : Nat) : Option Nat := linkOfWord (h.word (b + nextField))

def tag (h : Heap) (b : Nat) : Nat := h.word (b + prevField)

def user (h : Heap) (b : Nat) : Nat := h.word (b + nextField)

def setSize (h : Heap) (b size : Nat) (used : Bool) : Heap :=
  h.setWord b (size + used.toNat)

def mark (h : Heap) (b : Nat) (used : Bool) : Heap := h.setSize b (h.blockSize b) used

def setBefore (h : Heap) (b : Nat) (link : Option Nat) : Heap :=
  h.setWord (b + backField) (wordOfLink link)

def setPrevFree (h : Heap) (b : Nat) (link : Option Nat) : Heap :=
  h.setWord (b + prevField) (wordOfLink link)

def setNextFree (h : Heap) (b : Nat) (link : Option Nat) : Heap :=
  h.setWord (b + nextField) (wordOfLink link)

def setAllocation (h : Heap) (b user tag : Nat) : Heap :=
  (h.setWord (b + prevField) tag).setWord (b + nextField) user

/--
Whether `b` is a used block with its data at `user`. Only words in front of `user` are read, and
only if `user` lies in the heap.
-/
def isAllocation (h : Heap) (b user : Nat) : Bool :=
  b % granule == 0 && decide (b + headerSize ≤ user) && decide (user < h.capacity) &&
    h.isUsed b && h.user b == user && decide (user < b + h.blockSize b)

end Heap

end MemoryKit
