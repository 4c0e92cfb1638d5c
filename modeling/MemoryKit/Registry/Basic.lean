import MemoryKit.Queue.Basic
import MemoryKit.Registry.Config
import MemoryKit.Registry.Entry

/-! # Registries

A registry maps keys to entries. A request to make or unmake an entry changes its record at once and
puts its slot into a queue; the handle itself is created or destroyed when the queue is worked off.
Until then the entry shows its last handle or a placeholder.
-/

namespace MemoryKit

structure Registry.EntryRecord (P H : Type) where
  /-- How often the slot was given up. -/
  generation : UInt32 := 0
  key : UInt64 := 0
  name : String := ""
  path : Option String := none
  /-- Nothing while the slot is free. -/
  state : Option EntryState := none
  /-- What the next creation is made from. -/
  pending : Option P := none
  /-- The handle that was created last. -/
  handle : Option H := none
  /-- Whether the last creation failed without a handle to fall back on. -/
  failed : Bool := false
  queuedMake : Bool := false
  queuedUnmake : Bool := false

/-- The part of a registry that requests are addressed to. -/
structure Registry (P H : Type) where
  slots : SlotPool (Registry.EntryRecord P H)
  /-- The slots of the keys in use. -/
  lookup : KeyTable
  makes : Queue UInt32
  unmakes : Queue UInt32
  pending : Nat
  placeholders : Placeholders (Entry × H)
  /-- Whether the part that works off the queues has gone away. -/
  closed : Bool
  config : RegistryConfig

namespace Registry

variable {P H : Type}

def record? (r : Registry P H) (i : UInt32) : Option (EntryRecord P H) := r.slots.get? i

def modifyRecord (r : Registry P H) (i : UInt32) (f : EntryRecord P H → EntryRecord P H) :
    Registry P H :=
  { r with slots := r.slots.modify i f }

def find? (r : Registry P H) (e : Entry) : Option (EntryRecord P H) :=
  (r.record? e.index).filter fun d => d.generation == e.generation && d.state.isSome

def get (r : Registry P H) (key : UInt64) : Option Entry :=
  let value := r.lookup.get key
  if value = nullValue then none
  else (r.record? value.toUInt32).map fun d => ⟨value.toUInt32, d.generation⟩

/--
The handle that an entry shows: the one created last, or else a placeholder. Nothing is shown once
the registry is closed.
-/
def value (r : Registry P H) (e : Entry) : Option H :=
  if r.closed then none
  else
    (r.find? e).map fun d =>
      match d.handle with
      | some handle => handle
      | none => if d.failed then r.placeholders.failed.2 else r.placeholders.making.2

def state (r : Registry P H) (e : Entry) : Option EntryState := (r.find? e).bind EntryRecord.state

def name (r : Registry P H) (e : Entry) : Option String := (r.find? e).map EntryRecord.name

def path (r : Registry P H) (e : Entry) : Option String := (r.find? e).bind EntryRecord.path

def len (r : Registry P H) : Nat :=
  r.slots.capacity - r.slots.available.toNat - Placeholders.count

def isEmpty (r : Registry P H) : Bool := r.len == 0

def summary (len pending : Nat) : String := s!"(entries: {len}, pending: {pending})"

def text (r : Registry P H) : String := summary r.len r.pending

def droppedRequest (i : UInt32) : Record :=
  .error s!"Registry request queue is full, dropping request for {i}"

def enqueueMake (r : Registry P H) (i : UInt32) : Outcome (Registry P H) Bool :=
  let pushed := r.makes.push i
  if pushed.answer then
    ⟨true, { r with makes := pushed.state, pending := r.pending + 1 }, pushed.log⟩
  else ⟨false, { r with makes := pushed.state }, pushed.log ++ [droppedRequest i]⟩

def enqueueUnmake (r : Registry P H) (i : UInt32) : Outcome (Registry P H) Bool :=
  let pushed := r.unmakes.push i
  if pushed.answer then
    ⟨true, { r with unmakes := pushed.state, pending := r.pending + 1 }, pushed.log⟩
  else ⟨false, { r with unmakes := pushed.state }, pushed.log ++ [droppedRequest i]⟩

def dequeueMake (r : Registry P H) : Outcome (Registry P H) (Option UInt32) :=
  let popped := r.makes.tryPop
  let pending := if popped.answer.isSome then r.pending - 1 else r.pending
  ⟨popped.answer, { r with makes := popped.state, pending }, popped.log⟩

def dequeueUnmake (r : Registry P H) : Outcome (Registry P H) (Option UInt32) :=
  let popped := r.unmakes.tryPop
  let pending := if popped.answer.isSome then r.pending - 1 else r.pending
  ⟨popped.answer, { r with unmakes := popped.state, pending }, popped.log⟩

structure MakeRequest (P : Type) where
  key : UInt64
  name : String
  payload : P
  path : Option String
  /-- Whether an entry that was made already is made again. -/
  force : Bool

def inUse? (r : Registry P H) (key : UInt64) : Option (UInt32 × EntryRecord P H) :=
  let value := r.lookup.get key
  if value = nullValue then none
  else
    ((r.record? value.toUInt32).filter fun d => d.key == key && d.state.isSome).map fun d =>
      (value.toUInt32, d)

def releaseSlot (r : Registry P H) (i : UInt32) : Outcome (Registry P H) Unit :=
  match r.slots.deallocate i with
  | (.ok (), slots) => .quiet () { r with slots }
  | (.error e, slots) =>
    ⟨(), { r with slots }, [.error s!"Releasing registry entry {i}: {e.message}"]⟩

/-- Replaces the payload that an entry waits to be made from; the request has been queued. -/
def EntryRecord.rename (d : EntryRecord P H) (q : MakeRequest P) : EntryRecord P H :=
  { d with
    queuedMake := true
    name := q.name
    path := q.path
    pending := some q.payload
    state := some .making }

/-- Makes an entry that is in use again, unless that is not called for. -/
def remake (r : Registry P H) (i : UInt32) (d : EntryRecord P H) (q : MakeRequest P) :
    Outcome (Registry P H) (Except RegistryError Entry) :=
  let entry : Entry := ⟨i, d.generation⟩
  if d.state = some .placeholder ∨ d.state = some .made ∧ q.force = false then
    .quiet (.ok entry) r
  else if d.queuedMake then .quiet (.ok entry) (r.modifyRecord i (·.rename q))
  else
    let queued := r.enqueueMake i
    if queued.answer then
      ⟨.ok entry, queued.state.modifyRecord i (·.rename q), queued.log⟩
    else ⟨.error .full, queued.state, queued.log⟩

def EntryRecord.started (d : EntryRecord P H) (q : MakeRequest P) : EntryRecord P H :=
  { generation := d.generation
    key := q.key
    name := q.name
    path := q.path
    state := some .making
    pending := some q.payload }

def EntryRecord.vacated (d : EntryRecord P H) : EntryRecord P H := { generation := d.generation }

def start (r : Registry P H) (i : UInt32) (q : MakeRequest P) :
    Outcome (Registry P H) (Except RegistryError Entry) :=
  let started := r.modifyRecord i (·.started q)
  let generation := ((started.record? i).map EntryRecord.generation).getD 0
  let queued := started.enqueueMake i
  if queued.answer then
    ⟨.ok ⟨i, generation⟩, queued.state.modifyRecord i ({ · with queuedMake := true }), queued.log⟩
  else
    let (_, lookup) := queued.state.lookup.remove q.key
    let forgotten := { queued.state with lookup }
    let released := (forgotten.modifyRecord i EntryRecord.vacated).releaseSlot i
    ⟨.error .full, released.state, queued.log ++ released.log⟩

def makeNew (r : Registry P H) (q : MakeRequest P) :
    Outcome (Registry P H) (Except RegistryError Entry) :=
  match r.slots.allocate with
  | (none, slots) => .quiet (.error .full) { r with slots }
  | (some i, slots) =>
    match r.lookup.insert q.key i.toUInt64 with
    | (.error e, lookup) =>
      let released := { r with slots, lookup }.releaseSlot i
      ⟨.error (.ofKeyTable e), released.state, released.log⟩
    | (.ok old, lookup) =>
      let taken := { r with slots, lookup }
      if old = nullValue then taken.start i q
      else
        -- Only a lookup that disagrees with the records still has a value for the key.
        let released := taken.releaseSlot i
        ⟨.error .full, released.state, released.log⟩

/--
Asks for an entry to be made. An entry that was made stays as it is unless `force` is set; one that
still waits takes the new payload.
-/
def make (r : Registry P H) (q : MakeRequest P) :
    Outcome (Registry P H) (Except RegistryError Entry) :=
  if q.key = nullKey then .quiet (.error .nullKey) r
  else if r.closed then .quiet (.error .closed) r
  else
    match r.inUse? q.key with
    | some (i, d) => r.remake i d q
    | none => r.makeNew q

/-- The record of an entry that is to be given up; a payload that still waits is dropped. -/
def EntryRecord.condemned (d : EntryRecord P H) : EntryRecord P H :=
  { d with state := some .unmaking, pending := none }

def unmake (r : Registry P H) (e : Entry) : Outcome (Registry P H) (Except RegistryError Unit) :=
  match r.find? e with
  | none => .quiet (.error (.stale e)) r
  | some d =>
    if d.state = some .placeholder then .quiet (.error (.permanentEntry e)) r
    else if d.state = some .unmaking then .quiet (.ok ()) r
    else
      let condemned := r.modifyRecord e.index EntryRecord.condemned
      if d.queuedUnmake then .quiet (.ok ()) condemned
      else
        let queued := condemned.enqueueUnmake e.index
        if queued.answer then
          ⟨.ok (), queued.state.modifyRecord e.index ({ · with queuedUnmake := true }),
            queued.log⟩
        else ⟨.error .full, queued.state, queued.log⟩

end Registry

end MemoryKit
