import MemoryKit.ConfigError
import MemoryKit.Log
import MemoryKit.Word

/-! # Key tables

A table of fixed size maps keys to values by linear probing. A key claims a slot once and keeps it
when its value is removed; such a tombstone is freed only by rebuilding the table. A table can be
copied into another one bit by bit, where newer values win. An operation that can fail answers
with the table in either case, and leaves it as it was if it fails.
-/

namespace MemoryKit

def nullKey : UInt64 := 0xffffffffffffffff

def nullValue : UInt64 := 0xffffffffffffffff

inductive KeyTableError where
  | nullKey
  | full
  | tooSmall (source target : Nat)
  deriving DecidableEq, Repr

def KeyTableError.message : KeyTableError → String
  | .nullKey => "the null key can't be stored in the map"
  | .full => "every slot of the map is claimed"
  | .tooSmall source target => s!"cannot migrate {source} slots into {target} slots"

/-- A slot: the key that claimed it, if any, and its value, if any. -/
structure KeyTable.Slot where
  key : UInt64
  value : UInt64
  deriving DecidableEq, Repr, Inhabited

structure KeyTable where
  bits : Nat
  slots : Vector KeyTable.Slot (1 <<< bits)
  /-- The slot at which the migration into another table goes on. -/
  cursor : Nat

namespace KeyTable

namespace Slot

def vacant : Slot := ⟨nullKey, nullValue⟩

def isClaimed (s : Slot) : Bool := s.key != nullKey

def isLive (s : Slot) : Bool := s.key != nullKey && s.value != nullValue

def isTombstone (s : Slot) : Bool := s.key != nullKey && s.value == nullValue

end Slot

def empty (bits : Nat) : KeyTable := ⟨bits, .replicate _ .vacant, 0⟩

def slotCount (t : KeyTable) : Nat := t.slots.toArray.size

@[simp] theorem slotCount_eq (t : KeyTable) : t.slotCount = 1 <<< t.bits := t.slots.size_toArray

theorem mod_slotCount_lt (t : KeyTable) (i : Nat) : i % t.slotCount < 1 <<< t.bits := by
  rw [slotCount_eq, Nat.one_shiftLeft]
  exact Nat.mod_lt _ (Nat.two_pow_pos _)

def capacity (t : KeyTable) : Nat := t.slotCount / 2

def maxCapacity : Nat := (sizeLimit - 1) / 4

/-- The least exponent of two for `capacity` keys, which fill at most half of the slots. -/
def bitsFor (capacity : Nat) : Nat :=
  if capacity = 0 then 3 else max 3 ((2 * capacity - 1).log2 + 1)

def withCapacity (capacity : Nat) : Except ConfigError KeyTable :=
  if sizeLimit ≤ 2 * capacity ∨ sizeLimit ≤ 1 <<< bitsFor capacity then
    .error (.capacityOverflow capacity maxCapacity)
  else .ok (empty (bitsFor capacity))

def slot (t : KeyTable) (i : Nat) : Slot :=
  have := t.mod_slotCount_lt i
  t.slots[i % t.slotCount]

def setSlot (t : KeyTable) (i : Nat) (s : Slot) : KeyTable :=
  { t with slots := t.slots.set (i % t.slotCount) s (t.mod_slotCount_lt i) }

@[simp] theorem bits_setSlot (t : KeyTable) (i : Nat) (s : Slot) : (t.setSlot i s).bits = t.bits :=
  rfl

@[simp] theorem cursor_setSlot (t : KeyTable) (i : Nat) (s : Slot) :
    (t.setSlot i s).cursor = t.cursor :=
  rfl

theorem slot_setSlot (t : KeyTable) (i j : Nat) (s : Slot) :
    (t.setSlot i s).slot j = if i % t.slotCount = j % t.slotCount then s else t.slot j := by
  simp only [slot, setSlot, slotCount, Vector.size_toArray, Vector.getElem_set]

@[simp] theorem slot_empty (bits i : Nat) : (empty bits).slot i = .vacant := by
  simp only [slot, empty, Vector.getElem_replicate]

@[simp] theorem slot_mod (t : KeyTable) (i : Nat) : t.slot (i % t.slotCount) = t.slot i := by
  simp only [slot, Nat.mod_mod]

/-- The first of `steps` positions from `i` on that is vacant or belongs to the key. -/
def seek (t : KeyTable) (key : UInt64) (i : Nat) : Nat → Option Nat
  | 0 => none
  | steps + 1 =>
    let claimant := (t.slot i).key
    if claimant = key ∨ claimant = nullKey then some i else t.seek key (i + 1) steps

def home (t : KeyTable) (key : UInt64) : Nat := key.toNat % t.slotCount

/-- The position that belongs to the key, or the vacant one that it would claim. -/
def locate (t : KeyTable) (key : UInt64) : Option Nat := t.seek key (t.home key) t.slotCount

def find? (t : KeyTable) (key : UInt64) : Option Nat :=
  if key = nullKey then none
  else (t.locate key).filter fun i => (t.slot i).key == key

def positionFor (t : KeyTable) (key : UInt64) : Except KeyTableError Nat :=
  if key = nullKey then .error .nullKey
  else
    match t.locate key with
    | some i => .ok i
    | none => .error .full

/-- Stores a value. Answers the one before, null if there was none. -/
def set (t : KeyTable) (key value : UInt64) : Except KeyTableError UInt64 × KeyTable :=
  match t.positionFor key with
  | .error e => (.error e, t)
  | .ok i => (.ok (t.slot i).value, t.setSlot i ⟨key, value⟩)

/-- Stores a value unless there is one already. Answers the one before, null if there was none. -/
def insert (t : KeyTable) (key value : UInt64) : Except KeyTableError UInt64 × KeyTable :=
  match t.positionFor key with
  | .error e => (.error e, t)
  | .ok i =>
    let old := (t.slot i).value
    (.ok old, if old = nullValue then t.setSlot i ⟨key, value⟩ else t)

def get (t : KeyTable) (key : UInt64) : UInt64 :=
  match t.find? key with
  | some i => (t.slot i).value
  | none => nullValue

/-- Removes the value of a key, which keeps its slot. Answers the value, null if there was none. -/
def remove (t : KeyTable) (key : UInt64) : UInt64 × KeyTable :=
  match t.find? key with
  | some i => ((t.slot i).value, t.setSlot i ⟨key, nullValue⟩)
  | none => (nullValue, t)

def entries (t : KeyTable) : List (UInt64 × UInt64) :=
  (t.slots.toList.filter Slot.isLive).map fun s => (s.key, s.value)

def size (t : KeyTable) : Nat := t.entries.length

def clear (t : KeyTable) : KeyTable := empty t.bits

def tombstones (t : KeyTable) : Nat := t.slots.toList.countP Slot.isTombstone

def place (t : KeyTable) (key value : UInt64) : KeyTable :=
  match t.seek nullKey (t.home key) t.slotCount with
  | some i => t.setSlot i ⟨key, value⟩
  | none => t

def reclaim (t : KeyTable) : Outcome KeyTable Nat :=
  let count := t.tombstones
  if count = 0 then .quiet 0 t
  else
    let rebuilt := t.entries.foldl (fun r e => r.place e.1 e.2) (empty t.bits)
    ⟨count, { rebuilt with cursor := t.cursor }, [.debug s!"Reclaimed {count} tombstones"]⟩

structure Progress where
  moved : Nat
  complete : Bool
  deriving DecidableEq, Repr

/--
Visits at most `steps` slots from the cursor on and copies their entries, until `limit` entries
have been copied. An entry that the target has a value for already counts as copied.
-/
def migrateLoop (source target : KeyTable) (moved limit : Nat) :
    Nat → Except KeyTableError Nat × KeyTable × KeyTable
  | 0 => (.ok moved, source, target)
  | steps + 1 =>
    if limit ≤ moved then (.ok moved, source, target)
    else
      let s := source.slot source.cursor
      let source := { source with cursor := source.cursor + 1 }
      if s.isLive then
        match target.insert s.key s.value with
        | (.ok _, target) => migrateLoop source target (moved + 1) limit steps
        | (.error e, target) => (.error e, source, target)
      else migrateLoop source target moved limit steps

/--
Copies up to `limit` entries into another table, beginning where the last call ended. Answers the
source and the target as they are afterwards, also if a copy failed.
-/
def migrate (source target : KeyTable) (limit : Nat) :
    Except KeyTableError Progress × KeyTable × KeyTable :=
  if target.slotCount < source.slotCount then
    (.error (.tooSmall source.slotCount target.slotCount), source, target)
  else
    let (result, source, target) :=
      migrateLoop source target 0 limit (source.slotCount - source.cursor)
    (result.map fun moved => ⟨moved, source.slotCount ≤ source.cursor⟩, source, target)

def text (t : KeyTable) : String := s!"ConcurrentHashMap (slots: {t.slotCount})"

end KeyTable

end MemoryKit
