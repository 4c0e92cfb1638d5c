import MemoryKit.Log
import MemoryKit.SlotPool.Basic
import MemoryKit.Word

/-! # Bounded queues

A queue is a chain of nodes that come from a slot pool. Its first node, the dummy, carries no
value; a value sits in each node after it. Taking a value makes its node the new dummy, so that a
node goes back to the pool after two releases: one when its value is taken, one when the node after
it is. An operation that finds the tail not at the last node moves it on and starts over.
-/

namespace MemoryKit

structure Queue.Node (α : Type) where
  next : TaggedIndex := .null
  value : Option α := none
  /-- Whether the first of the two releases has happened. -/
  released : Bool := false
  deriving Repr, Inhabited

structure Queue (α : Type) where
  nodes : SlotPool (Queue.Node α)
  /-- The dummy. -/
  head : TaggedIndex
  /-- The last node, which is the dummy in an empty queue. -/
  tail : TaggedIndex
  capacity : Nat
  deriving Inhabited

namespace Queue

variable {α : Type}

/-- A queue without values: a node for each of them and one for the dummy. -/
def create (capacity : Nat) : Except ConfigError (Queue α) :=
  if maxPoolCapacity < capacity + 1 then
    .error (.capacityOverflow capacity (maxPoolCapacity - 1))
  else
    match SlotPool.create (capacity + 1) fun _ => ({} : Node α) with
    | .error e => .error e
    | .ok nodes =>
      match nodes.allocate with
      | (some dummy, nodes) =>
        .ok
          { nodes := nodes.modify dummy fun n => { n with released := true }
            head := ⟨dummy, 0⟩
            tail := ⟨dummy, 0⟩
            capacity }
      | (none, nodes) => .ok { nodes, head := .null, tail := .null, capacity }

def next (q : Queue α) (i : UInt32) : TaggedIndex :=
  match q.nodes.get? i with
  | some n => n.next
  | none => .null

/-- Releases a node; the second release returns it to the pool. -/
def release (q : Queue α) (i : UInt32) : Outcome (Queue α) Unit :=
  match q.nodes.get? i with
  | none => .quiet () q
  | some n =>
    if n.released then
      match q.nodes.deallocate i with
      | (.ok (), nodes) => .quiet () { q with nodes }
      | (.error e, nodes) =>
        ⟨(), { q with nodes }, [.error s!"Releasing queue node {i}: {e.message}"]⟩
    else .quiet () { q with nodes := q.nodes.modify i fun n => { n with released := true } }

/--
Links a node behind the last one. A tail that lags behind is moved on first, one node with each turn
of the loop.
-/
def link (q : Queue α) (i : UInt32) : (turns : Nat) → Queue α
  | 0 => q
  | turns + 1 =>
    let next := q.next q.tail.index
    if next.isNull then
      { q with
        nodes := q.nodes.modify q.tail.index fun n => { n with next := n.next.withIndex i }
        tail := q.tail.withIndex i }
    else { q with tail := q.tail.withIndex next.index }.link i turns

def push (q : Queue α) (value : α) : Outcome (Queue α) Bool :=
  match q.nodes.allocate with
  | (none, nodes) => ⟨false, { q with nodes }, [.debug "Queue node pool exhausted"]⟩
  | (some i, nodes) =>
    let nodes := nodes.modify i fun n =>
      { next := n.next.withIndex nullIndex, value := some value, released := false }
    .quiet true ({ q with nodes }.link i (q.capacity + 1))

/-- Takes the value of the first node, which is the new dummy. -/
def takeFirst (q : Queue α) (first : UInt32) : Outcome (Queue α) (Option α) :=
  let value := (q.nodes.get? first).bind Node.value
  let q' := { q with
    head := q.head.withIndex first
    nodes := q.nodes.modify first fun n => { n with value := none } }
  let dummy := q'.release q.head.index
  let node := dummy.state.release first
  ⟨value, node.state, dummy.log ++ node.log⟩

def tryPopWithin (q : Queue α) : (turns : Nat) → Outcome (Queue α) (Option α)
  | 0 => .quiet none q
  | turns + 1 =>
    let first := q.next q.head.index
    if q.head.index = q.tail.index then
      if first.isNull then .quiet none q
      else { q with tail := q.tail.withIndex first.index }.tryPopWithin turns
    else if first.isNull then q.tryPopWithin turns
    else q.takeFirst first.index

def tryPop (q : Queue α) : Outcome (Queue α) (Option α) := q.tryPopWithin (q.capacity + 1)

def isEmpty (q : Queue α) : Bool := (q.next q.head.index).isNull

def chainLength (q : Queue α) (i : UInt32) : Nat → Nat
  | 0 => 0
  | bound + 1 =>
    let next := q.next i
    if next.isNull then 0 else q.chainLength next.index bound + 1

/-- The number of values. A damaged chain counts as one more than the capacity. -/
def size (q : Queue α) : Nat := q.chainLength q.head.index (q.capacity + 1)

def takeMany (q : Queue α) : Nat → Outcome (Queue α) (List α)
  | 0 => .quiet [] q
  | bound + 1 =>
    let first := q.tryPop
    match first.answer with
    | none => ⟨[], first.state, first.log⟩
    | some value =>
      let rest := first.state.takeMany bound
      ⟨value :: rest.answer, rest.state, first.log ++ rest.log⟩

def clear (q : Queue α) : Outcome (Queue α) (List α) := q.takeMany (q.capacity + 1)

/-- Takes all values before the queue goes away, with a warning if there are any. -/
def close (q : Queue α) : Outcome (Queue α) (List α) :=
  let rest := q.clear
  let count := rest.answer.length
  if count = 0 then rest
  else { rest with
    log := rest.log ++ [.warn s!"Dropped a queue that still held {count} values"] }

/--
Sends values through the queue. A value for which there is no room is appended after the front has
been taken. Answers what was taken, without the values that stay in the queue.
-/
def relay (q : Queue α) : List α → Outcome (Queue α) (List α)
  | [] => .quiet [] q
  | value :: values =>
    let pushed := q.push value
    if pushed.answer then
      (pushed.state.relay values).after pushed.log
    else
      let front := pushed.state.tryPop
      let again := front.state.push value
      let rest := again.state.relay values
      ⟨front.answer.toList ++ rest.answer, rest.state,
        pushed.log ++ front.log ++ again.log ++ rest.log⟩

def text (q : Queue α) : String := s!"(capacity: {q.capacity})"

end Queue

end MemoryKit
