import MemoryKit.KeyTable

/-! # Callers that share a key table

Storing a value consists of single atomic accesses: the keys on the way are loaded, a vacant slot is
claimed by a compare-exchange of its key, and the value is swapped in. Callers perform their
accesses in any order. A run by a schedule is one of these orders.
-/

namespace MemoryKit.KeyTable

/--
The access that a caller performs next inside of a call: to the key of the slot that lies some steps
behind the home of its own key, or to the value of the slot that its key has.
-/
inductive Access where
  | loadKey (steps : Nat)
  | claimKey (steps : Nat)
  | swapValue (i : Nat)
  deriving DecidableEq, Repr

inductive Next where
  | access (a : Access)
  | finished (answer : Except KeyTableError UInt64)

def Next.first (key : UInt64) : Next :=
  if key = nullKey then .finished (.error .nullKey) else .access (.loadKey 0)

def Next.pass (t : KeyTable) (steps : Nat) : Next :=
  if steps + 1 < t.slotCount then .access (.loadKey (steps + 1)) else .finished (.error .full)

def Access.perform (t : KeyTable) (key value : UInt64) : Access → Next × KeyTable
  | .loadKey steps =>
    let i := t.home key + steps
    let claimant := (t.slot i).key
    if claimant = key then (.access (.swapValue i), t)
    else if claimant = nullKey then (.access (.claimKey steps), t)
    else (.pass t steps, t)
  | .claimKey steps =>
    let i := t.home key + steps
    let s := t.slot i
    if s.key = nullKey then (.access (.swapValue i), t.setSlot i { s with key })
    else if s.key = key then (.access (.swapValue i), t)
    else (.pass t steps, t)
  | .swapValue i => (.finished (.ok (t.slot i).value), t.setSlot i { t.slot i with value })

/-- A caller: what it has yet to store, the call that it is inside of, and the answers it got. -/
structure Caller where
  waiting : List (UInt64 × UInt64)
  current : Option ((UInt64 × UInt64) × Access)
  answers : List (Except KeyTableError UInt64)

namespace Caller

def proceed (c : Caller) (e : UInt64 × UInt64) : Next → Caller
  | .access a => { c with current := some (e, a) }
  | .finished answer => { c with current := none, answers := c.answers ++ [answer] }

/-- The caller performs its next access or, between calls, begins the next one. -/
def turn (c : Caller) (t : KeyTable) : Caller × KeyTable :=
  match c.current with
  | some (e, a) =>
    let (next, t) := a.perform t e.1 e.2
    (c.proceed e next, t)
  | none =>
    match c.waiting with
    | [] => (c, t)
    | e :: waiting => ({ c with waiting }.proceed e (.first e.1), t)

def isDone (c : Caller) : Bool := c.current.isNone && c.waiting.isEmpty

end Caller

structure Crew where
  table : KeyTable
  callers : List Caller

namespace Crew

def atRest (table : KeyTable) (lists : List (List (UInt64 × UInt64))) : Crew :=
  ⟨table, lists.map fun waiting => ⟨waiting, none, []⟩⟩

def turn (c : Crew) (w : Nat) : Crew :=
  match c.callers[w]? with
  | none => c
  | some caller =>
    let (caller, table) := caller.turn c.table
    ⟨table, c.callers.set w caller⟩

def run (c : Crew) (schedule : List Nat) : Crew := schedule.foldl turn c

def isDone (c : Crew) : Bool := c.callers.all Caller.isDone

end Crew

end MemoryKit.KeyTable
