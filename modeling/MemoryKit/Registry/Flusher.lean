import MemoryKit.Registry.Key
import MemoryKit.Registry.Session

/-! # Working off requests

The flusher of a registry owns the code that creates and destroys handles. It takes queued requests,
makes before unmakes, and runs that code for them. Removed keys leave tombstones in the lookup,
which is rebuilt after a flush once there have been more of them than keys it is meant for.
-/

namespace MemoryKit.Registry

variable {σ P H : Type}

/-- The code that creates and destroys handles, with a state of its own. -/
structure Lifetime (σ P H : Type) where
  /-- Creates a handle from a payload for the entry with a name, or tells why not. -/
  create : σ → P → String → Session P H (Except String H × σ)
  destroy : σ → H → Session P H σ

structure Flusher (σ P H : Type) where
  registry : Registry P H
  lifetime : σ
  /-- The number of keys removed from the lookup since it was rebuilt. -/
  removed : Nat

/--
Takes the payload of a slot that was queued for making, and its name. There is none if the request
was cancelled.
-/
def takeRequest (r : Registry P H) (i : UInt32) : Option (P × String) × Registry P H :=
  match r.record? i with
  | none => (none, r)
  | some d =>
    if d.state = some .making then
      (d.pending.map fun payload => (payload, d.name),
        r.modifyRecord i ({ · with queuedMake := false, pending := none }))
    else (none, r.modifyRecord i ({ · with queuedMake := false }))

/-- Whether a slot still waits for the creation that just ended, and for no other one. -/
def EntryRecord.isSettled (d : EntryRecord P H) : Bool :=
  d.state == some .making && d.pending.isNone

def EntryRecord.succeeded (d : EntryRecord P H) (handle : H) : EntryRecord P H :=
  { d with
    handle := some handle
    failed := false
    state := if d.isSettled then some .made else d.state }

def EntryRecord.defeated (d : EntryRecord P H) : EntryRecord P H :=
  { d with
    failed := d.handle.isNone || d.failed
    state :=
      if d.isSettled then some (if d.handle.isSome then .made else .failed) else d.state }

/-- Shows a new handle. Answers the one it replaces. -/
def installHandle (r : Registry P H) (i : UInt32) (handle : H) : Option H × Registry P H :=
  ((r.record? i).bind EntryRecord.handle, r.modifyRecord i (·.succeeded handle))

def noteFailure (r : Registry P H) (i : UInt32) : Registry P H :=
  r.modifyRecord i EntryRecord.defeated

def giveUp (r : Registry P H) (i : UInt32) : Option (Option H) × Registry P H :=
  match r.record? i with
  | none => (none, r)
  | some d =>
    if d.state = some .unmaking then
      let (_, lookup) := r.lookup.remove d.key
      (some d.handle, { r with lookup }.modifyRecord i fun d =>
        { d.vacated with generation := d.generation + 1 })
    else (none, r.modifyRecord i ({ · with queuedUnmake := false }))

def lostKey (key : UInt64) (e : KeyTableError) : Record :=
  .error s!"Moving key {key} into the compacted lookup: {e.message}"

def keepAll (t : KeyTable) : List (UInt64 × UInt64) → Outcome KeyTable Nat
  | [] => .quiet 0 t
  | (key, value) :: rest =>
    match t.insert key value with
    | (.ok _, t) => (keepAll t rest).map (· + 1)
    | (.error e, t) => (keepAll t rest).after [lostKey key e]

/-- Rebuilds the lookup without tombstones. Answers the number of keys it keeps. -/
def compact (r : Registry P H) : Outcome (Registry P H) Nat :=
  (keepAll (.empty r.lookup.bits) r.lookup.entries).lift ({ r with lookup := · })

namespace Flusher

variable (life : Lifetime σ P H)

def destroy (f : Flusher σ P H) (handle : H) : Outcome (Flusher σ P H) Unit :=
  let o := (life.destroy f.lifetime handle).run f.registry
  ⟨(), { f with registry := o.state, lifetime := o.answer }, o.log⟩

def destroyAny (f : Flusher σ P H) : Option H → Outcome (Flusher σ P H) Unit
  | some handle => f.destroy life handle
  | none => .quiet () f

/-- Ends a creation with its result. A handle that was replaced is destroyed. -/
def finishMake (f : Flusher σ P H) (i : UInt32) (name : String) :
    Except String H → Outcome (Flusher σ P H) Unit
  | .ok handle =>
    let (old, registry) := f.registry.installHandle i handle
    { f with registry }.destroyAny life old
  | .error reason =>
    ⟨(), { f with registry := f.registry.noteFailure i },
      [.warn s!"Making {Text.quoted name} failed: {reason}"]⟩

def makeOne (f : Flusher σ P H) (i : UInt32) : Outcome (Flusher σ P H) Unit :=
  match f.registry.takeRequest i with
  | (none, registry) => .quiet () { f with registry }
  | (some (payload, name), registry) =>
    let created := (life.create f.lifetime payload name).run registry
    let (result, lifetime) := created.answer
    ({ f with registry := created.state, lifetime }.finishMake life i name result).after created.log

def unmakeOne (f : Flusher σ P H) (i : UInt32) : Outcome (Flusher σ P H) Unit :=
  match f.registry.giveUp i with
  | (none, registry) => .quiet () { f with registry }
  | (some handle, registry) =>
    let released := registry.releaseSlot i
    let f := { f with registry := released.state, removed := f.removed + 1 }
    (f.destroyAny life handle).after released.log

/-- Carries out the next request, makes before unmakes. Answers whether there was one. -/
def flushOne (f : Flusher σ P H) : Outcome (Flusher σ P H) Bool :=
  let make := f.registry.dequeueMake
  let f := { f with registry := make.state }
  match make.answer with
  | some i => ((f.makeOne life i).map fun _ => true).after make.log
  | none =>
    let unmake := f.registry.dequeueUnmake
    let f := { f with registry := unmake.state }
    match unmake.answer with
    | some i => ((f.unmakeOne life i).map fun _ => true).after (make.log ++ unmake.log)
    | none => ⟨false, f, make.log ++ unmake.log⟩

def flushMany (f : Flusher σ P H) : (limit : Nat) → Outcome (Flusher σ P H) Nat
  | 0 => .quiet 0 f
  | limit + 1 =>
    let one := f.flushOne life
    if one.answer then
      ((one.state.flushMany limit).map (· + 1)).after one.log
    else ⟨0, one.state, one.log⟩

def compactIfDue (f : Flusher σ P H) : Outcome (Flusher σ P H) Unit :=
  if f.registry.lookup.capacity < f.removed then
    let o := f.registry.compact
    let removed := f.removed
    let kept := o.answer
    ⟨(), { f with registry := o.state, removed := 0 },
      o.log ++ [.debug
        s!"Compacted registry lookup after {removed} removals, kept {kept} keys"]⟩
  else .quiet () f

def flush (f : Flusher σ P H) (limit : Nat) : Outcome (Flusher σ P H) Nat :=
  let worked := f.flushMany life limit
  let compacted := worked.state.compactIfDue
  let count := worked.answer
  let done : List Record :=
    if 0 < count then [.debug s!"Flushed {count} registry requests"] else []
  ⟨count, compacted.state, worked.log ++ compacted.log ++ done⟩

def flushBatch (f : Flusher σ P H) : Outcome (Flusher σ P H) Nat :=
  f.flush life f.registry.config.flushBatch

def destroyAll (f : Flusher σ P H) : List UInt32 → Outcome (Flusher σ P H) Nat
  | [] => .quiet 0 f
  | i :: rest =>
    match (f.registry.record? i).bind EntryRecord.handle with
    | none => f.destroyAll rest
    | some handle =>
      let emptied := f.registry.modifyRecord i ({ · with handle := none })
      let one := { f with registry := emptied }.destroy life handle
      ((one.state.destroyAll rest).map (· + 1)).after one.log

def allSlots (f : Flusher σ P H) : List UInt32 :=
  (List.range f.registry.slots.capacity).map UInt32.ofNat

/-- Closes the registry and destroys every handle. No request is accepted or shown from here on. -/
def close (f : Flusher σ P H) : Outcome (Flusher σ P H) Unit :=
  let f := { f with registry := { f.registry with closed := true } }
  let o := f.destroyAll life f.allSlots
  let count := o.answer
  ⟨(), o.state, o.log ++ [.debug s!"Destroyed {count} registry handles"]⟩

structure Opening (P H : Type) where
  slots : SlotPool (EntryRecord P H)
  lookup : KeyTable
  /-- The placeholders created so far, the last one first. -/
  created : List (Entry × H)

def destroyAlone (s : σ) : List H → σ × List Record
  | [] => (s, [])
  | handle :: rest =>
    let (s, log) := (life.destroy s handle).runAlone
    let (s, logs) := destroyAlone s rest
    (s, log ++ logs)

def Opening.add (o : Opening P H) (name : String) (handle : H) :
    Except RegistryError (Opening P H) :=
  match o.slots.allocate with
  | (none, _) => .error .full
  | (some i, slots) =>
    let key := keyOfName name
    match o.lookup.insert key i.toUInt64 with
    | (.error e, _) => .error (.ofKeyTable e)
    | (.ok _, lookup) =>
      .ok
        { slots := slots.modify i fun d =>
            { d with key, name, state := some .placeholder, handle := some handle }
          lookup
          created := (⟨i, 0⟩, handle) :: o.created }

/-- Creates placeholders. If one fails, those before it are destroyed. -/
def openAll (s : σ) (o : Opening P H) :
    List (String × P) → Outcome σ (Except RegistryError (Opening P H))
  | [] => .quiet (.ok o) s
  | (name, payload) :: rest =>
    let ((result, s), log) := (life.create s payload name).runAlone
    match result with
    | .ok handle =>
      match o.add name handle with
      | .ok o => (openAll s o rest).after log
      | .error e => ⟨.error e, s, log⟩
    | .error reason =>
      let (s, logs) := destroyAlone life s (o.created.reverse.map Prod.snd)
      ⟨.error (.placeholder name reason), s, log ++ logs⟩

def foundations (config : RegistryConfig) :
    Except ConfigError (SlotPool (EntryRecord P H) × KeyTable × Queue UInt32) :=
  match checkedAdd config.capacity Placeholders.count with
  | none => .error (.capacityOverflow config.capacity (sizeLimit - 1 - Placeholders.count))
  | some total =>
    match SlotPool.create total fun _ => ({} : EntryRecord P H) with
    | .error e => .error e
    | .ok slots =>
      match KeyTable.withCapacity total with
      | .error e => .error e
      | .ok lookup => (Queue.create total).map fun requests => (slots, lookup, requests)

def create (config : RegistryConfig) (s : σ) (payloads : Placeholders P) :
    Outcome σ (Except RegistryError (Registry P H)) :=
  match foundations config with
  | .error e => .quiet (.error (.config e)) s
  | .ok (slots, lookup, requests) =>
    let opened := openAll life s ⟨slots, lookup, []⟩ payloads.named
    match opened.answer with
    | .error e => ⟨.error e, opened.state, opened.log⟩
    | .ok ⟨slots, lookup, [making, failed, missing]⟩ =>
      let capacity := config.capacity
      ⟨.ok { slots, lookup
             makes := requests
             unmakes := requests
             pending := 0
             placeholders := ⟨missing, failed, making⟩
             closed := false
             config },
        opened.state, opened.log ++ [.debug s!"Created registry with {capacity} entries"]⟩
    | .ok _ => ⟨.error .full, opened.state, opened.log⟩

end Flusher

/-- What is reported when the registry goes away: the requests that still wait. -/
def discard (r : Registry P H) : List Record := r.makes.close.log ++ r.unmakes.close.log

end MemoryKit.Registry
