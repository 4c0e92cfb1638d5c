import MemoryKit.SlotPool.Basic

/-! # Threads that share a pool of slots

Allocation and return consist of single atomic accesses: loads and compare-exchanges of the head,
accesses to the fields of a slot, and updates of the count of free slots. Threads perform their
accesses in any order. A run by turns is one of these orders.
-/

namespace MemoryKit.SlotPool

variable {α : Type}

/-- The access that a thread performs next inside of a call, with what it has read before. -/
inductive Access where
  | loadHeadToTake
  | loadNext (head : TaggedIndex)
  | swapHeadToTake (head : TaggedIndex) (next : UInt32)
  | markTaken (index : UInt32)
  | countTaken (index : UInt32)
  | markReturned (index : UInt32)
  | loadHeadToReturn (index : UInt32)
  | storeNext (index : UInt32) (head : TaggedIndex)
  | swapHeadToReturn (index : UInt32) (head : TaggedIndex)
  | countReturned
  deriving DecidableEq, Repr

inductive CallResult where
  | taken (index : UInt32)
  | exhausted
  | returned
  | rejected (error : PoolError)
  deriving DecidableEq, Repr

inductive Next where
  | access (a : Access)
  | finished (r : CallResult)
  deriving DecidableEq, Repr

def Access.afterHead (head : TaggedIndex) : Next :=
  if head.isNull then .finished .exhausted else .access (.loadNext head)

def swapHead (p : SlotPool α) (expected new : TaggedIndex) :
    Except TaggedIndex TaggedIndex × SlotPool α :=
  let (result, cell) := TaggedIndex.Cell.compareExchange ⟨p.head⟩ expected new
  (result, { p with head := cell.value })

def Access.perform (p : SlotPool α) : Access → Next × SlotPool α
  | .loadHeadToTake => (afterHead p.head, p)
  | .loadNext head =>
    match p.slot? head.index with
    | some s => (.access (.swapHeadToTake head s.next), p)
    | none => (.finished .exhausted, p)
  | .swapHeadToTake head next =>
    match p.swapHead head (head.withIndex next) with
    | (.ok _, p) => (.access (.markTaken head.index), p)
    | (.error found, p) => (afterHead found, p)
  | .markTaken i =>
    match p.slot? i with
    | some s => (.access (.countTaken i), p.setSlot i { s with inUse := true })
    | none => (.access (.countTaken i), p)
  | .countTaken i => (.finished (.taken i), { p with available := p.available - 1 })
  | .markReturned i =>
    match p.slot? i with
    | none => (.finished (.rejected (.foreignIndex i.toNat)), p)
    | some s =>
      let next := if s.inUse then Next.access (.loadHeadToReturn i)
        else .finished (.rejected (.doubleFree i.toNat))
      (next, p.setSlot i { s with inUse := false })
  | .loadHeadToReturn i => (.access (.storeNext i p.head), p)
  | .storeNext i head =>
    match p.slot? i with
    | some s => (.access (.swapHeadToReturn i head), p.setSlot i { s with next := head.index })
    | none => (.access (.swapHeadToReturn i head), p)
  | .swapHeadToReturn i head =>
    match p.swapHead head (head.withIndex i) with
    | (.ok _, p) => (.access .countReturned, p)
    | (.error found, p) => (.access (.storeNext i found), p)
  | .countReturned => (.finished .returned, { p with available := p.available + 1 })

/-- A thread: the access it stands before, if it is inside of a call, and the slots it owns. -/
structure Worker where
  pending : Option Access
  owned : List UInt32
  /-- How often the head had moved when the current call began. -/
  since : Nat
  deriving DecidableEq, Repr

structure Crew (α : Type) where
  pool : SlotPool α
  workers : List Worker
  /-- How often the head has moved. -/
  moves : Nat

namespace Crew

def atRest (pool : SlotPool α) (count : Nat) : Crew α :=
  ⟨pool, List.replicate count ⟨none, [], 0⟩, 0⟩

def beginTake (c : Crew α) (w : Nat) : Crew α :=
  { c with workers := c.workers.modify w fun worker =>
      { worker with pending := some .loadHeadToTake, since := c.moves } }

def beginReturn (c : Crew α) (w : Nat) (i : UInt32) : Crew α :=
  { c with workers := c.workers.modify w fun worker =>
      { worker with
        pending := some (.markReturned i)
        owned := worker.owned.erase i
        since := c.moves } }

def Worker.proceed (worker : Worker) : Next → Worker
  | .access a => { worker with pending := some a }
  | .finished (.taken i) => { worker with pending := none, owned := i :: worker.owned }
  | .finished _ => { worker with pending := none }

def advance (c : Crew α) (w : Nat) : Crew α :=
  match c.workers[w]? with
  | some ⟨some a, _, _⟩ =>
    let head := c.pool.head
    let (next, pool) := a.perform c.pool
    { pool
      workers := c.workers.modify w (Worker.proceed · next)
      moves := if pool.head = head then c.moves else c.moves + 1 }
  | _ => c

/-- One move of any thread: the begin of a call or a single access. -/
inductive Step : Crew α → Crew α → Prop where
  | beginTake (c : Crew α) (w : Nat) (worker : Worker) :
      c.workers[w]? = some worker → worker.pending = none → Step c (c.beginTake w)
  | beginReturn (c : Crew α) (w : Nat) (worker : Worker) (i : UInt32) :
      c.workers[w]? = some worker → worker.pending = none → i ∈ worker.owned →
      Step c (c.beginReturn w i)
  | advance (c : Crew α) (w : Nat) (worker : Worker) :
      c.workers[w]? = some worker → worker.pending.isSome → Step c (c.advance w)

/--
A thread that is between calls returns what it owns and otherwise allocates, as long as it has
rounds left. Answers the rounds that remain.
-/
def takeTurn (c : Crew α) (w rounds : Nat) : Nat × Crew α :=
  match c.workers[w]? with
  | some ⟨some _, _, _⟩ => (rounds, c.advance w)
  | some ⟨none, i :: _, _⟩ => (rounds, c.beginReturn w i)
  | some ⟨none, [], _⟩ => if rounds = 0 then (0, c) else (rounds - 1, c.beginTake w)
  | none => (0, c)

def isAtRest (c : Crew α) : Bool :=
  c.workers.all fun worker => worker.pending.isNone && worker.owned.isEmpty

def turnsFrom (c : Crew α) (w : Nat) : List Nat → List Nat × Crew α
  | [] => ([], c)
  | rounds :: rest =>
    let (left, c) := c.takeTurn w rounds
    let (lefts, c) := c.turnsFrom (w + 1) rest
    (left :: lefts, c)

def byTurns (c : Crew α) (rounds : List Nat) : Nat → Crew α
  | 0 => c
  | turns + 1 =>
    if c.isAtRest && rounds.all (· == 0) then c
    else
      let (left, c) := c.turnsFrom 0 rounds
      c.byTurns left turns

end Crew

/--
Lets threads take and return a slot each, the given number of rounds, one access at a time by
turns. Of the threads that try at the same time one succeeds, which bounds the turns.
-/
def exercise (p : SlotPool α) (threads rounds : Nat) : SlotPool α :=
  let turns := (threads + 1) * (rounds + 1) * 64
  ((Crew.atRest p threads).byTurns (List.replicate threads rounds) turns).pool

end MemoryKit.SlotPool
