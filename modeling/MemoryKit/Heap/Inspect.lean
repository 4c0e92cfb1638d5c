import MemoryKit.Heap.Header

/-! # Inspections

An inspection reads words one after the other and may choose each by what it has read before. It can
be run on a memory, and the offsets that it reads there can be listed. Walking over the blocks of a
heap is an inspection that ends in any memory, because every step goes on by at least a granule.
-/

namespace MemoryKit

/-- A computation that reads words. -/
inductive Inspect (α : Type) where
  | done (answer : α)
  | read (offset : Nat) (next : Nat → Inspect α)

namespace Inspect

variable {α β : Type}

def bind : Inspect α → (α → Inspect β) → Inspect β
  | .done a, f => f a
  | .read offset next, f => .read offset fun w => (next w).bind f

def run (m : Memory) : Inspect α → α
  | .done a => a
  | .read offset next => (next (m.word offset)).run m

def reads (m : Memory) : Inspect α → List Nat
  | .done _ => []
  | .read offset next => offset :: (next (m.word offset)).reads m

@[simp] theorem run_done (m : Memory) (a : α) : (done a).run m = a := rfl

@[simp] theorem run_read (m : Memory) (offset : Nat) (next : Nat → Inspect α) :
    (read offset next).run m = (next (m.word offset)).run m := rfl

@[simp] theorem reads_done (m : Memory) (a : α) : (done a).reads m = [] := rfl

@[simp] theorem reads_read (m : Memory) (offset : Nat) (next : Nat → Inspect α) :
    (read offset next).reads m = offset :: (next (m.word offset)).reads m := rfl

theorem run_bind (m : Memory) (x : Inspect α) (f : α → Inspect β) :
    (x.bind f).run m = (f (x.run m)).run m := by
  induction x with
  | done a => rfl
  | read offset next ih => exact ih (m.word offset)

theorem reads_bind (m : Memory) (x : Inspect α) (f : α → Inspect β) :
    (x.bind f).reads m = x.reads m ++ (f (x.run m)).reads m := by
  induction x with
  | done a => rfl
  | read offset next ih => exact congrArg (offset :: ·) (ih (m.word offset))

end Inspect

structure Heap.Block where
  offset : Nat
  size : Nat
  used : Bool
  deriving DecidableEq, Repr

namespace Heap

/--
Combines the blocks from an offset on, in the order of their addresses. A size of zero ends the
walk. The walk takes at most `steps` steps.
-/
def foldBlocks {β : Type} (capacity : Nat) (f : β → Block → β) (acc : β) (offset : Nat) :
    Nat → Inspect β
  | 0 => .done acc
  | steps + 1 =>
    if capacity ≤ offset then .done acc
    else
      .read offset fun w =>
        let size := sizeOfWord w
        if size = 0 then .done acc
        else foldBlocks capacity f (f acc ⟨offset, size, isUsedWord w⟩) (offset + size) steps

def maxBlocks (capacity : Nat) : Nat := capacity / granule

def inspectBlocks (capacity : Nat) : Inspect (List Block) :=
  (foldBlocks capacity (fun bs b => b :: bs) [] 0 (maxBlocks capacity)).bind fun reversed =>
    .done reversed.reverse

def inspectFree (capacity : Nat) : Inspect (Nat × Nat) :=
  foldBlocks capacity
    (fun (count, largest) b => if b.used then (count, largest) else (count + 1, max largest b.size))
    (0, 0) 0 (maxBlocks capacity)

def blocks (h : Heap) : List Block := (inspectBlocks h.capacity).run h.memory

end Heap

end MemoryKit
