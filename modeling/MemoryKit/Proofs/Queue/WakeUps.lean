import Mathlib.Logic.Function.Basic
import Mathlib.Logic.Relation
import MemoryKit.Proofs.Queue.Fifo
import MemoryKit.Queue.Waiting

/-! # Wake-ups

A consumer polls a queue that producers fill and that others empty too. Its poll consists of a look,
the registration of a waker and a second look, and a push of the appending and the wake-up. These
steps come in any order. A consumer that was told to wait while there is a value has been woken, or
a producer is about to wake it.
-/

namespace MemoryKit.WaitingQueue

variable {ω α ι : Type}

/-- Where the consumer stands, with the waker of the poll it is in or of the last one. -/
inductive Consumer (ω : Type) where
  /-- No poll is in progress, and the last one, if any, gave a value. -/
  | resting
  /-- The first look found nothing. -/
  | looked (waker : ω)
  | registered (waker : ω)
  /-- No poll is in progress, and the last one answered that there is nothing yet. -/
  | pending (waker : ω)

def Consumer.IsIdle : Consumer ω → Prop
  | .resting | .pending _ => True
  | .looked _ | .registered _ => False

inductive Event (ω : Type) where
  | registered (waker : ω)
  | woken (waker : ω)

structure Scene (ι ω α : Type) where
  queue : WaitingQueue ω α
  consumer : Consumer ω
  /-- Whether a producer has appended a value and has yet to wake the consumer. -/
  isWaking : ι → Bool
  /-- What happened to wakers, latest first. -/
  history : List (Event ω)

def Scene.before (q : WaitingQueue ω α) : Scene ι ω α := ⟨q, .resting, fun _ => false, []⟩

/-- One step of the consumer, of a producer or of somebody else who takes values. -/
inductive Step [DecidableEq ι] : Scene ι ω α → Scene ι ω α → Prop where
  | look (s : Scene ι ω α) (waker : ω) (h : s.consumer.IsIdle) :
    Step s { s with
      queue := s.queue.tryPop.state
      consumer := if s.queue.tryPop.answer.isSome then .resting else .looked waker }
  | register (s : Scene ι ω α) (waker : ω) (h : s.consumer = .looked waker) :
    Step s { s with
      queue := s.queue.register waker
      consumer := .registered waker
      history := .registered waker :: s.history }
  | lookAgain (s : Scene ι ω α) (waker : ω) (h : s.consumer = .registered waker) :
    Step s { s with
      queue := s.queue.tryPop.state
      consumer := if s.queue.tryPop.answer.isSome then .resting else .pending waker }
  | enqueue (s : Scene ι ω α) (i : ι) (value : α) (h : s.isWaking i = false) :
    Step s { s with
      queue := (s.queue.enqueue value).state
      isWaking := Function.update s.isWaking i (s.queue.enqueue value).answer }
  | wake (s : Scene ι ω α) (i : ι) (h : s.isWaking i = true) :
    Step s { s with
      queue := s.queue.wake.2
      isWaking := Function.update s.isWaking i false
      history := (s.queue.wake.1.map Event.woken).toList ++ s.history }
  | take (s : Scene ι ω α) : Step s { s with queue := s.queue.tryPop.state }

def Reachable [DecidableEq ι] (q : WaitingQueue ω α) : Scene ι ω α → Prop :=
  Relation.ReflTransGen Step (.before q)

/-- The waker that was registered last has been woken since. -/
def Signalled (waker : ω) (history : List (Event ω)) : Prop :=
  ∃ newer older, history = newer ++ .registered waker :: older ∧ .woken waker ∈ newer ∧
    ∀ other, .registered other ∉ newer

theorem Signalled.append_woken {waker : ω} {history : List (Event ω)}
    (h : Signalled waker history) (woken : Option ω) :
    Signalled waker ((woken.map Event.woken).toList ++ history) := by
  obtain ⟨newer, older, rfl, hmem, hlast⟩ := h
  refine ⟨(woken.map Event.woken).toList ++ newer, older, (List.append_assoc ..).symm,
    List.mem_append_right _ hmem, fun other ho => ?_⟩
  rcases List.mem_append.mp ho with ho | ho
  · cases woken <;> simp at ho
  · exact hlast other ho

section Values

variable {q : WaitingQueue ω α}

theorem tryPop_spec (h : q.queue.WellFormed) :
    q.tryPop.state.queue.WellFormed ∧ q.tryPop.answer = q.queue.toList.head? ∧
      q.tryPop.state.queue.toList = q.queue.toList.tail ∧
      q.tryPop.state.queue.capacity = q.queue.capacity := by
  obtain ⟨hw, hcapacity, hanswer, hl, -⟩ := h.tryPop
  exact ⟨hw, hanswer, hl, hcapacity⟩

theorem enqueue_spec (h : q.queue.WellFormed) (value : α) :
    (q.enqueue value).state.queue.WellFormed ∧
      ((q.enqueue value).answer = true ↔ q.queue.toList.length ≠ q.queue.capacity) ∧
      (q.enqueue value).state.queue.toList =
        q.queue.toList ++ (if (q.enqueue value).answer then [value] else []) ∧
      (q.enqueue value).state.queue.capacity = q.queue.capacity := by
  obtain ⟨hw, hcapacity, hanswer, hl, -⟩ := h.push value
  have ha : (q.enqueue value).answer = (q.queue.push value).answer := rfl
  have hs : (q.enqueue value).state.queue = (q.queue.push value).state := rfl
  rw [ha, hs, hanswer, hl]
  split
  · next hfull => exact ⟨hw, by simp [hfull], by simp, hcapacity⟩
  · next hroom => exact ⟨hw, by simp [hroom], by simp, hcapacity⟩

end Values

/-- A waker lies in its place since it was registered, or has been woken. -/
def Scene.Holds (s : Scene ι ω α) (waker : ω) : Prop :=
  Signalled waker s.history ∨
    s.queue.waker = some waker ∧ ∃ older, s.history = .registered waker :: older

structure Scene.IsAlert (s : Scene ι ω α) : Prop where
  wellFormed : s.queue.queue.WellFormed
  registered : ∀ waker, s.consumer = .registered waker → s.Holds waker
  pending : ∀ waker, s.consumer = .pending waker → s.Holds waker
  unseen : ∀ waker, s.consumer = .pending waker →
    Signalled waker s.history ∨ s.queue.queue.toList = [] ∨ ∃ i, s.isWaking i = true

namespace Scene

variable {s s' : Scene ι ω α}

theorem Holds.wake {waker : ω} (h : s.Holds waker) :
    Signalled waker ((s.queue.wake.1.map Event.woken).toList ++ s.history) := by
  rcases h with h | ⟨hwaker, older, hhistory⟩
  · exact h.append_woken _
  · refine ⟨[.woken waker], older, ?_, List.mem_singleton_self _, fun other ho => ?_⟩
    · simp [WaitingQueue.wake, hwaker, hhistory]
    · cases List.mem_singleton.mp ho

theorem IsAlert.tryPop (h : s.IsAlert) :
    ({ s with queue := s.queue.tryPop.state } : Scene ι ω α).IsAlert := by
  obtain ⟨hw, -, hl, -⟩ := tryPop_spec h.wellFormed
  refine ⟨hw, h.registered, h.pending, fun waker hc => ?_⟩
  rcases h.unseen waker hc with hs | hempty | hwaking
  · exact .inl hs
  · exact .inr (.inl (by rw [hl, hempty]; rfl))
  · exact .inr (.inr hwaking)

section Steps

variable [DecidableEq ι]

theorem IsAlert.step (h : s.IsAlert) (hstep : Step s s') : s'.IsAlert := by
  cases hstep with
  | look waker hidle =>
    obtain ⟨hw, -⟩ := tryPop_spec h.wellFormed
    refine ⟨hw, fun other hc => ?_, fun other hc => ?_, fun other hc => ?_⟩
    all_goals
      simp only at hc
      split at hc <;> cases hc
  | register waker hc =>
    refine ⟨h.wellFormed, fun other ho => ?_, fun other ho => ?_, fun other ho => ?_⟩
    · cases ho
      exact .inr ⟨rfl, s.history, rfl⟩
    · cases ho
    · cases ho
  | lookAgain waker hc =>
    obtain ⟨hw, hanswer, hl, -⟩ := tryPop_spec h.wellFormed
    refine ⟨hw, fun other ho => ?_, fun other ho => ?_, fun other ho => ?_⟩
    · simp only at ho
      split at ho <;> cases ho
    · simp only at ho
      split at ho
      · cases ho
      · cases ho
        exact h.registered waker hc
    · simp only at ho
      split at ho
      · cases ho
      · next hnone =>
        rw [hanswer, Option.not_isSome_iff_eq_none, List.head?_eq_none_iff] at hnone
        exact .inr (.inl (by rw [hl, hnone]; rfl))
  | enqueue i value hidle =>
    obtain ⟨hw, -, hl, -⟩ := enqueue_spec h.wellFormed value
    refine ⟨hw, h.registered, h.pending, fun waker hc => ?_⟩
    rcases h.unseen waker hc with hs | hempty | ⟨j, hj⟩
    · exact .inl hs
    · cases ha : (s.queue.enqueue value).answer with
      | false =>
        rw [ha, hempty] at hl
        exact .inr (.inl hl)
      | true => exact .inr (.inr ⟨i, Function.update_self ..⟩)
    · have hne : j ≠ i := fun he => Bool.false_ne_true (hidle.symm.trans (he ▸ hj))
      exact .inr (.inr ⟨j, (Function.update_of_ne hne ..).trans hj⟩)
  | wake i hwaking =>
    refine ⟨h.wellFormed, fun waker hc => ?_, fun waker hc => ?_, fun waker hc => ?_⟩
    · exact .inl (h.registered waker hc).wake
    · exact .inl (h.pending waker hc).wake
    · exact .inl (h.pending waker hc).wake
  | take => exact h.tryPop

theorem IsAlert.steps (h : s.IsAlert) (hsteps : Relation.ReflTransGen Step s s') :
    s'.IsAlert := by
  induction hsteps with
  | refl => exact h
  | tail _ hstep ih => exact ih.step hstep

end Steps

theorem isAlert_before {q : WaitingQueue ω α} (h : q.queue.WellFormed) :
    (before q : Scene ι ω α).IsAlert where
  wellFormed := h
  registered _ hc := by cases hc
  pending _ hc := by cases hc
  unseen _ hc := by cases hc

end Scene

theorem of_create {capacity : Nat} {q : WaitingQueue ω α} (h : create capacity = .ok q) :
    q.queue.WellFormed ∧ q.queue.capacity = capacity ∧ q.queue.toList = [] ∧ q.waker = none := by
  unfold create at h
  cases hq : Queue.create (α := α) capacity with
  | error e =>
    rw [hq] at h
    cases h
  | ok queue =>
    rw [hq] at h
    cases h
    obtain ⟨hw, hcapacity, hempty⟩ := Queue.toList_create hq
    exact ⟨hw, hcapacity, hempty, rfl⟩

section Calls

variable {q : WaitingQueue ω α}

theorem poll_of_isSome {waker : ω} (h : q.tryPop.answer.isSome = true) :
    q.poll waker = q.tryPop := by
  obtain ⟨value, hvalue⟩ := Option.isSome_iff_exists.mp h
  simp only [poll, hvalue]

theorem poll_of_none {waker : ω} (h : q.tryPop.answer = none) :
    q.poll waker = ((q.tryPop.state.register waker).tryPop).after q.tryPop.log := by
  simp only [poll, h]

theorem poll_of_empty (hw : q.queue.WellFormed) (h : q.queue.toList = []) (waker : ω) :
    (q.poll waker).state.queue.WellFormed ∧ (q.poll waker).answer = none ∧
      (q.poll waker).state.waker = some waker ∧ (q.poll waker).state.queue.toList = [] ∧
      (q.poll waker).state.queue.capacity = q.queue.capacity := by
  obtain ⟨hw', hanswer, hl, hcapacity⟩ := tryPop_spec hw
  rw [h] at hanswer hl
  have hregistered : (q.tryPop.state.register waker).queue.WellFormed := hw'
  obtain ⟨hw'', hanswer', hl', hcapacity'⟩ := tryPop_spec hregistered
  rw [show (q.tryPop.state.register waker).queue.toList = [] from hl] at hanswer' hl'
  rw [poll_of_none hanswer]
  exact ⟨hw'', hanswer', rfl, hl', hcapacity'.trans hcapacity⟩

theorem push_of_accepted {value : α} (h : (q.enqueue value).answer = true) :
    q.push value =
      ⟨⟨true, q.waker⟩, { (q.enqueue value).state with waker := none }, (q.enqueue value).log⟩ := by
  simp only [push, h, if_true]
  rfl

theorem push_of_refused {value : α} (h : (q.enqueue value).answer = false) :
    q.push value = ⟨⟨false, none⟩, (q.enqueue value).state, (q.enqueue value).log⟩ := by
  simp only [push, h, Bool.false_eq_true, if_false]

end Calls

namespace Scene

variable [DecidableEq ι]

theorem steps_poll (s : Scene ι ω α) (waker : ω) (h : s.consumer.IsIdle) :
    Relation.ReflTransGen Step s { s with
      queue := (s.queue.poll waker).state
      consumer := if (s.queue.poll waker).answer.isSome then .resting else .pending waker
      history := if s.queue.tryPop.answer.isSome then s.history
        else .registered waker :: s.history } := by
  have hlook := Relation.ReflTransGen.single (Step.look s waker h)
  cases hsome : s.queue.tryPop.answer.isSome with
  | true =>
    rw [hsome] at hlook
    rw [poll_of_isSome hsome, hsome]
    exact hlook
  | false =>
    rw [hsome] at hlook
    rw [poll_of_none (Option.not_isSome_iff_eq_none.mp (Bool.not_eq_true _ ▸ hsome))]
    exact (hlook.tail (.register _ waker rfl)).tail (.lookAgain _ waker rfl)

theorem steps_push (s : Scene ι ω α) (i : ι) (value : α) (h : s.isWaking i = false) :
    Relation.ReflTransGen Step s { s with
      queue := (s.queue.push value).state
      history := ((s.queue.push value).answer.woken.map Event.woken).toList ++ s.history } := by
  have henqueue := Relation.ReflTransGen.single (Step.enqueue s i value h)
  have hrest : Function.update s.isWaking i false = s.isWaking := h ▸ Function.update_eq_self i _
  cases ha : (s.queue.enqueue value).answer with
  | true =>
    rw [ha] at henqueue
    have hwake := henqueue.tail (.wake _ i (Function.update_self ..))
    rw [Function.update_idem, hrest] at hwake
    rw [push_of_accepted ha]
    exact hwake
  | false =>
    rw [ha, hrest] at henqueue
    rw [push_of_refused ha]
    exact henqueue

end Scene

inductive Call (ω α : Type) where
  | poll (waker : ω)
  | push (value : α)
  | tryPop

inductive Report (ω α : Type) where
  /-- A poll answered that there is nothing yet. -/
  | pending (waker : ω)
  | ready (value : α)
  | pushed (woken : Option ω)
  | refused
  | taken (value : Option α)

/-- The call decides which waker the next push finds. -/
def Report.Settles : Report ω α → Prop
  | .pending _ | .pushed _ => True
  | .ready _ | .refused | .taken _ => False

def serve (q : WaitingQueue ω α) : Call ω α → Report ω α × WaitingQueue ω α
  | .poll waker =>
    ((q.poll waker).answer.elim (.pending waker) .ready, (q.poll waker).state)
  | .push value =>
    (if (q.push value).answer.accepted then .pushed (q.push value).answer.woken else .refused,
      (q.push value).state)
  | .tryPop => (.taken q.tryPop.answer, q.tryPop.state)

def after (q : WaitingQueue ω α) (calls : List (Call ω α)) : WaitingQueue ω α :=
  calls.foldl (fun q c => (q.serve c).2) q

/-- What the calls came to, the last one first, in front of earlier reports. -/
def reports (q : WaitingQueue ω α) (earlier : List (Report ω α)) :
    List (Call ω α) → List (Report ω α)
  | [] => earlier
  | c :: calls => (q.serve c).2.reports ((q.serve c).1 :: earlier) calls

/-- A poll left this waker, and no push took it and no poll replaced it since. -/
def Awaits (waker : ω) (reports : List (Report ω α)) : Prop :=
  ∃ newer older, reports = newer ++ .pending waker :: older ∧ ∀ r ∈ newer, ¬ r.Settles

theorem awaits_cons {waker : ω} {r : Report ω α} {reports : List (Report ω α)} :
    Awaits waker (r :: reports) ↔ r = .pending waker ∨ ¬ r.Settles ∧ Awaits waker reports := by
  constructor
  · rintro ⟨newer, older, he, hnewer⟩
    cases newer with
    | nil =>
      cases he
      exact .inl rfl
    | cons r' newer =>
      cases he
      refine .inr ⟨hnewer r List.mem_cons_self, newer, older, rfl, fun r' hr => ?_⟩
      exact hnewer r' (List.mem_cons_of_mem r hr)
  · rintro (rfl | ⟨hr, newer, older, rfl, hnewer⟩)
    · exact ⟨[], reports, rfl, fun _ hr => by cases hr⟩
    · refine ⟨r :: newer, older, rfl, fun r' hr' => ?_⟩
      rcases List.mem_cons.mp hr' with rfl | hr'
      · exact hr
      · exact hnewer r' hr'

/-- The waker in its place is the one that a push should wake. -/
structure Keeps (q : WaitingQueue ω α) (capacity : Nat) (reports : List (Report ω α)) : Prop where
  wellFormed : q.queue.WellFormed
  capacity_eq : q.queue.capacity = capacity
  waker_iff : ∀ waker, q.waker = some waker ↔ Awaits waker reports

namespace Keeps

variable {q : WaitingQueue ω α} {capacity : Nat} {reports : List (Report ω α)}

theorem serve (h : q.Keeps capacity reports) (c : Call ω α) :
    (q.serve c).2.Keeps capacity ((q.serve c).1 :: reports) := by
  obtain ⟨hw, rfl, hwaker⟩ := h
  obtain ⟨hw', hanswer, -, hcapacity⟩ := tryPop_spec hw
  cases c with
  | tryPop =>
    refine ⟨hw', hcapacity, fun other => ?_⟩
    rw [awaits_cons, ← hwaker]
    simp [WaitingQueue.serve, Report.Settles, WaitingQueue.tryPop]
  | poll waker =>
    cases hl : q.queue.toList with
    | nil =>
      obtain ⟨hw'', hnone, hregistered, -, hcapacity'⟩ := poll_of_empty hw hl waker
      refine ⟨hw'', hcapacity', fun other => ?_⟩
      simp only [WaitingQueue.serve, hnone, hregistered, Option.elim_none]
      rw [awaits_cons]
      simp [Report.Settles]
    | cons value rest =>
      rw [hl] at hanswer
      have hsome : q.tryPop.answer.isSome = true := by rw [hanswer]; rfl
      simp only [WaitingQueue.serve, poll_of_isSome hsome]
      refine ⟨hw', hcapacity, fun other => ?_⟩
      rw [awaits_cons, ← hwaker, hanswer]
      simp [Report.Settles, WaitingQueue.tryPop]
  | push value =>
    obtain ⟨hwe, -, -, hcapacity'⟩ := enqueue_spec hw value
    cases ha : (q.enqueue value).answer with
    | true =>
      simp only [WaitingQueue.serve, push_of_accepted ha]
      refine ⟨hwe, hcapacity', fun other => ?_⟩
      rw [awaits_cons]
      simp [Report.Settles]
    | false =>
      simp only [WaitingQueue.serve, push_of_refused ha]
      refine ⟨hwe, hcapacity', fun other => ?_⟩
      rw [awaits_cons, ← hwaker]
      simp [Report.Settles, enqueue]

theorem after (h : q.Keeps capacity reports) (calls : List (Call ω α)) :
    (q.after calls).Keeps capacity (q.reports reports calls) := by
  induction calls generalizing q reports with
  | nil => exact h
  | cons c calls ih => exact ih (h.serve c)

theorem push (h : q.Keeps capacity reports) (value : α) :
    ((q.push value).answer.accepted = true ↔ q.queue.size < capacity) ∧
      ∀ waker, (q.push value).answer.woken = some waker ↔
        (q.push value).answer.accepted = true ∧ Awaits waker reports := by
  obtain ⟨hw, rfl, hwaker⟩ := h
  obtain ⟨-, hiff, -, -⟩ := enqueue_spec hw value
  have hroom : q.queue.size < q.queue.capacity ↔ q.queue.toList.length ≠ q.queue.capacity := by
    rw [hw.size_eq]
    exact ⟨Nat.ne_of_lt, Nat.lt_of_le_of_ne hw.length_le⟩
  rw [hroom, ← hiff]
  cases ha : (q.enqueue value).answer with
  | true =>
    rw [push_of_accepted ha]
    exact ⟨Iff.rfl, fun waker => by simp [hwaker]⟩
  | false =>
    rw [push_of_refused ha]
    exact ⟨Iff.rfl, fun waker => by simp⟩

end Keeps

/--
In whatever order the steps of a consumer, of producers and of others come, a consumer that was told
to wait while there is a value has been woken since it registered, or a producer that appended a
value is about to wake it. If calls do not overlap, a push wakes a waker just if it finds room and a
poll has left the waker since the last push that found room, and no poll replaced it.
-/
theorem no_wakeUp_lost [DecidableEq ι] {capacity : Nat} {q : WaitingQueue ω α}
    (h : create capacity = .ok q) :
    (∀ (s : Scene ι ω α) (waker : ω), Reachable q s → s.consumer = .pending waker →
      s.queue.queue.toList ≠ [] →
      Signalled waker s.history ∨ ∃ i, s.isWaking i = true) ∧
    ∀ calls value,
      let pushed := ((q.after calls).push value).answer
      (pushed.accepted = true ↔ (q.after calls).queue.size < capacity) ∧
        ∀ waker, pushed.woken = some waker ↔
          pushed.accepted = true ∧ Awaits waker (q.reports [] calls) := by
  obtain ⟨hw, hcapacity, -, hnone⟩ := of_create h
  constructor
  · intro s waker hs hpending hvalue
    rcases ((Scene.isAlert_before hw).steps hs).unseen waker hpending with hwoken | hempty | hwaking
    · exact .inl hwoken
    · exact absurd hempty hvalue
    · exact .inr hwaking
  · intro calls value
    have hstart : q.Keeps capacity [] := by
      refine ⟨hw, hcapacity, fun waker => ?_⟩
      rw [hnone]
      refine iff_of_false nofun ?_
      rintro ⟨newer, older, he, -⟩
      cases newer <;> cases he
    exact (hstart.after calls).push value

def singleQueue : WaitingQueue Nat Nat := ⟨Queue.singleQueue, none⟩

def lateScene : Scene (Fin 2) Nat Nat where
  queue := ((singleQueue.after [.poll 3]).enqueue 7).state
  consumer := .pending 3
  isWaking := Function.update (fun _ => false) 0 true
  history := [.registered 3]

theorem reachable_lateScene : Reachable singleQueue lateScene :=
  (Scene.steps_poll (.before singleQueue) 3 trivial).tail (.enqueue _ 0 7 rfl)

theorem no_wakeUp_lost_single :
    create 1 = .ok singleQueue ∧
      (Signalled 3 lateScene.history ∨ ∃ i, lateScene.isWaking i = true) ∧
      ((singleQueue.after [.poll 3, .poll 5]).push 7).answer.woken = some 5 ∧
      ((singleQueue.after [.poll 3, .push 7, .tryPop]).push 8).answer.woken = none := by
  have h : create 1 = .ok singleQueue := rfl
  obtain ⟨hscene, hcalls⟩ := @no_wakeUp_lost Nat Nat (Fin 2) _ 1 singleQueue h
  refine ⟨h, ?_, ?_, ?_⟩
  · exact hscene lateScene 3 reachable_lateScene rfl (by decide)
  · obtain ⟨haccepted, hwoken⟩ := hcalls [.poll 3, .poll 5] 7
    exact (hwoken 5).mpr ⟨haccepted.mpr (by decide), [], [.pending 3], rfl, nofun⟩
  · obtain ⟨-, hwoken⟩ := hcalls [.poll 3, .push 7, .tryPop] 8
    refine Option.eq_none_iff_forall_ne_some.mpr fun waker hw => ?_
    have hawaits : Awaits waker [.taken (some 7), .pushed (some 3), .pending 3] :=
      ((hwoken waker).mp hw).2
    simp [awaits_cons, Report.Settles] at hawaits

end MemoryKit.WaitingQueue
