import MemoryKit.Heap.Bitmap
import MemoryKit.Heap.SizeClass

/-! # The index of free blocks

For every size class the index holds the first block of its list. Two levels of bitmaps tell which
lists and which bins are not empty, so that the search for a list takes two scans.
-/

namespace MemoryKit

/-- The heads of the free lists and the bitmaps of those that are not empty. -/
structure FreeIndex where
  heads : Vector (Option Nat) SizeClass.count
  /-- The bins that have a list with a block. -/
  bins : Bitmap
  /-- For every bin, the positions whose lists have a block. -/
  subs : Vector Bitmap SizeClass.binCount
  deriving DecidableEq

namespace FreeIndex

def empty : FreeIndex := ⟨.replicate _ none, .empty, .replicate _ .empty⟩

def head (x : FreeIndex) (c : SizeClass) : Option Nat := (x.heads[c.index]?).join

def subsOf (x : FreeIndex) (bin : Nat) : Bitmap := x.subs[bin]?.getD .empty

/-- Makes a block the first of a list, or the list empty; the bitmaps stay as they are. -/
def setHead (x : FreeIndex) (c : SizeClass) (head : Option Nat) : FreeIndex :=
  { x with heads := x.heads.setIfInBounds c.index head }

def mark (x : FreeIndex) (c : SizeClass) : FreeIndex :=
  { x with
    bins := x.bins.insert c.bin
    subs := x.subs.setIfInBounds c.bin ((x.subsOf c.bin).insert c.sub) }

/-- Marks a list as empty, and its bin if no other list of the bin has a block. -/
def unmark (x : FreeIndex) (c : SizeClass) : FreeIndex :=
  let rest := (x.subsOf c.bin).erase c.sub
  { x with
    bins := if rest.isEmpty then x.bins.erase c.bin else x.bins
    subs := x.subs.setIfInBounds c.bin rest }

def search (x : FreeIndex) (start : SizeClass) : Option SizeClass :=
  match (x.subsOf start.bin).lowestFrom? start.sub with
  | some sub => some ⟨start.bin, sub⟩
  | none =>
    match x.bins.lowestFrom? (start.bin + 1) with
    | none => none
    | some bin => ((x.subsOf bin).lowest?).map fun sub => ⟨bin, sub⟩

end FreeIndex

end MemoryKit
