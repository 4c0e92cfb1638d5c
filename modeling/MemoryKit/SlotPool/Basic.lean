import MemoryKit.ConfigError
import MemoryKit.PoolError
import MemoryKit.TaggedIndex

/-! # Pools of typed slots

Slots hold a value each for as long as the pool exists; handing a slot out only gives away its
index. The free slots form a stack whose head is a tagged index, so that threads can share it. This
module holds the operations of a single thread; the accesses they consist of are in
`MemoryKit.SlotPool.Interleaving`.
-/

namespace MemoryKit

structure SlotPool.Slot (α : Type) where
  /-- The slot below this one on the stack; without meaning while the slot is handed out. -/
  next : UInt32
  inUse : Bool
  value : α
  deriving DecidableEq, Repr, Inhabited

structure SlotPool (α : Type) where
  slots : Array (SlotPool.Slot α)
  head : TaggedIndex
  /-- The number of free slots, counted apart from the stack. -/
  available : UInt64
  deriving DecidableEq, Repr, Inhabited

namespace SlotPool

variable {α : Type}

def capacity (p : SlotPool α) : Nat := p.slots.size

def nextOnFullStack (capacity i : Nat) : UInt32 :=
  if i + 1 < capacity then .ofNat (i + 1) else nullIndex

def create (capacity : Nat) (init : UInt32 → α) : Except ConfigError (SlotPool α) :=
  if maxPoolCapacity < capacity then
    .error (.capacityOverflow capacity maxPoolCapacity)
  else
    .ok
      { slots := Array.ofFn (n := capacity) fun i =>
          { next := nextOnFullStack capacity i, inUse := false, value := init (.ofNat i) }
        head := ⟨if 0 < capacity then 0 else nullIndex, 0⟩
        available := .ofNat capacity }

def slot? (p : SlotPool α) (i : UInt32) : Option (Slot α) := p.slots[i.toNat]?

def setSlot (p : SlotPool α) (i : UInt32) (s : Slot α) : SlotPool α :=
  { p with slots := p.slots.setIfInBounds i.toNat s }

def get? (p : SlotPool α) (i : UInt32) : Option α := (p.slot? i).map Slot.value

def modify (p : SlotPool α) (i : UInt32) (f : α → α) : SlotPool α :=
  match p.slot? i with
  | none => p
  | some s => p.setSlot i { s with value := f s.value }

@[simp] theorem capacity_setSlot (p : SlotPool α) (i : UInt32) (s : Slot α) :
    (p.setSlot i s).capacity = p.capacity :=
  Array.size_setIfInBounds

theorem slot?_setSlot (p : SlotPool α) (i j : UInt32) (s : Slot α) :
    (p.setSlot i s).slot? j = if i = j then (p.slot? i).map fun _ => s else p.slot? j := by
  unfold slot? setSlot
  rw [Array.getElem?_setIfInBounds]
  by_cases h : i = j
  · subst h
    by_cases hi : i.toNat < p.slots.size <;> simp [hi]
  · rw [if_neg h, if_neg (fun he => h (UInt32.toNat_inj.mp he))]

theorem slot?_modify (p : SlotPool α) (i j : UInt32) (f : α → α) :
    (p.modify i f).slot? j =
      if i = j then (p.slot? i).map fun s => { s with value := f s.value } else p.slot? j := by
  unfold modify
  cases h : p.slot? i with
  | none =>
    by_cases hij : i = j
    · subst hij
      simp [h]
    · simp [hij]
  | some s => simp [slot?_setSlot, h]

theorem get?_modify (p : SlotPool α) (i j : UInt32) (f : α → α) :
    (p.modify i f).get? j = if i = j then (p.get? i).map f else p.get? j := by
  unfold get?
  rw [slot?_modify]
  split
  · simp [Option.map_map, Function.comp_def]
  · rfl

@[simp] theorem head_modify (p : SlotPool α) (i : UInt32) (f : α → α) :
    (p.modify i f).head = p.head := by
  unfold modify
  split <;> rfl

@[simp] theorem available_modify (p : SlotPool α) (i : UInt32) (f : α → α) :
    (p.modify i f).available = p.available := by
  unfold modify
  split <;> rfl

@[simp] theorem capacity_modify (p : SlotPool α) (i : UInt32) (f : α → α) :
    (p.modify i f).capacity = p.capacity := by
  unfold modify
  split
  · rfl
  · exact capacity_setSlot ..

def allocate (p : SlotPool α) : Option UInt32 × SlotPool α :=
  if p.head.isNull then (none, p)
  else
    match p.slot? p.head.index with
    | none => (none, p)
    | some s =>
      (some p.head.index,
        { p.setSlot p.head.index { s with inUse := true } with
          head := p.head.withIndex s.next
          available := p.available - 1 })

/-- Puts a slot that was handed out back on the stack. A call that fails changes nothing. -/
def deallocate (p : SlotPool α) (i : UInt32) : Except PoolError Unit × SlotPool α :=
  match p.slot? i with
  | none => (.error (.foreignIndex i.toNat), p)
  | some s =>
    if s.inUse then
      (.ok (), { p.setSlot i { s with next := p.head.index, inUse := false } with
        head := p.head.withIndex i
        available := p.available + 1 })
    else (.error (.doubleFree i.toNat), p)

def values (p : SlotPool α) : List α := p.slots.toList.map Slot.value

def text (p : SlotPool α) (kind : String) : String :=
  s!"ConcurrentPool<{kind}> (capacity: {p.capacity}, available: {p.available})"

end SlotPool

end MemoryKit
