import MemoryKit.Queue.Basic

/-! # Queues with a waiting consumer

A consumer that finds the queue empty leaves a waker behind. The waker registered last is taken and
woken after a value has been appended. A consumer looks a second time after it has registered, for
a value that came in between.
-/

namespace MemoryKit

/-- A queue and the waker left by its consumer, if it has not been woken yet. -/
structure WaitingQueue (ω α : Type) where
  queue : Queue α
  waker : Option ω
  deriving Inhabited

namespace WaitingQueue

variable {ω α : Type}

def create (capacity : Nat) : Except ConfigError (WaitingQueue ω α) :=
  (Queue.create capacity).map fun queue => ⟨queue, none⟩

def enqueue (q : WaitingQueue ω α) (value : α) : Outcome (WaitingQueue ω α) Bool :=
  (q.queue.push value).lift ({ q with queue := · })

def wake (q : WaitingQueue ω α) : Option ω × WaitingQueue ω α := (q.waker, { q with waker := none })

def register (q : WaitingQueue ω α) (waker : ω) : WaitingQueue ω α := { q with waker := some waker }

def tryPop (q : WaitingQueue ω α) : Outcome (WaitingQueue ω α) (Option α) :=
  q.queue.tryPop.lift ({ q with queue := · })

/-- What pushing came to: whether there was room, and the waker that was woken. -/
structure Pushed (ω : Type) where
  accepted : Bool
  woken : Option ω
  deriving DecidableEq, Repr

def push (q : WaitingQueue ω α) (value : α) : Outcome (WaitingQueue ω α) (Pushed ω) :=
  let pushed := q.enqueue value
  if pushed.answer then
    let (woken, q) := pushed.state.wake
    ⟨⟨true, woken⟩, q, pushed.log⟩
  else ⟨⟨false, none⟩, pushed.state, pushed.log⟩

/-- Takes the value at the front, or leaves a waker and looks again. Nothing means to wait. -/
def poll (q : WaitingQueue ω α) (waker : ω) : Outcome (WaitingQueue ω α) (Option α) :=
  let first := q.tryPop
  match first.answer with
  | some _ => first
  | none => ((first.state.register waker).tryPop).after first.log

def text (q : WaitingQueue ω α) (kind : String) : String :=
  s!"AsyncConcurrentQueue<{kind}> {q.queue.text}"

def waiterText (kind : String) : String := s!"PopFuture<{kind}> ()"

end WaitingQueue

end MemoryKit
