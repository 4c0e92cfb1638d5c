import MemoryKit.Proofs.Queue.Operations

/-! # Queues as bounded lists

To its callers a queue is the list of its values, front first, which never grows longer than the
capacity. Which nodes hold the values, how often they were used before and how their tags went round
has no part in any answer or record.
-/

namespace MemoryKit.Queue

variable {α β : Type} {q : Queue α} {dummy : UInt32} {free : List UInt32}
  {cells : List (UInt32 × α)} {value : α}

def valuesFrom (q : Queue α) (i : UInt32) : Nat → List α
  | 0 => []
  | bound + 1 =>
    let next := q.next i
    if next.isNull then []
    else ((q.nodes.get? next.index).bind Node.value).toList ++ q.valuesFrom next.index bound

def toList (q : Queue α) : List α := q.valuesFrom q.head.index q.capacity

def WellFormed (q : Queue α) : Prop := ∃ dummy cells free, q.Holds dummy cells free

/--
The links lead from the head to the tail over a node for each value, the stack of the pool holds
the free nodes, and every node is in one of these two places and in no place twice.
-/
def IsPartitioned (q : Queue α) : Prop :=
  ∃ chain free, q.Linked q.head.index chain ∧ q.tail.index = chain.getLastD q.head.index ∧
    chain.length = q.toList.length ∧ q.nodes.Stacked q.nodes.head.index free ∧
    Exhausts (q.head.index :: chain ++ free) q.nodes.capacity

theorem isNull_next_of_linked (h : q.Linked dummy (cells.map Prod.fst)) :
    (q.next dummy).isNull = cells.isEmpty := by
  cases cells with
  | nil => exact beq_iff_eq.mpr h
  | cons c cells =>
    obtain ⟨hc, hne, -⟩ := h
    rw [TaggedIndex.isNull, hc]
    exact beq_eq_false_iff_ne.mpr hne

theorem valuesFrom_of_linked (h : q.Linked dummy (cells.map Prod.fst))
    (hf : ∀ c ∈ cells, ∃ n, q.nodes.get? c.1 = some n ∧ n.value = some c.2 ∧ n.released = false)
    {bound : Nat} (hb : cells.length ≤ bound) :
    q.valuesFrom dummy bound = cells.map Prod.snd := by
  induction cells generalizing dummy bound with
  | nil =>
    cases bound with
    | zero => rfl
    | succ bound => simp only [valuesFrom, isNull_next_of_linked h, List.isEmpty_nil, if_true]; rfl
  | cons c cells ih =>
    obtain ⟨bound, rfl⟩ : ∃ n, bound = n + 1 := ⟨bound - 1, by rw [List.length_cons] at hb; omega⟩
    obtain ⟨n, hn, hv, -⟩ := hf c List.mem_cons_self
    have hnull : (q.next dummy).isNull = false := isNull_next_of_linked h
    obtain ⟨hc, -, hrest⟩ := h
    have hf' := fun d hd => hf d (List.mem_cons_of_mem _ hd)
    have hrest := ih hrest hf' (Nat.le_of_succ_le_succ hb)
    simp only [valuesFrom, hnull, Bool.false_eq_true, if_false, hc, hn, Option.bind_some, hv, hrest]
    rfl

theorem chainLength_of_linked (h : q.Linked dummy (cells.map Prod.fst)) {bound : Nat}
    (hb : cells.length ≤ bound) : q.chainLength dummy bound = cells.length := by
  induction cells generalizing dummy bound with
  | nil =>
    cases bound with
    | zero => rfl
    | succ bound =>
      simp only [chainLength, isNull_next_of_linked h, List.isEmpty_nil, if_true]
      rfl
  | cons c cells ih =>
    obtain ⟨bound, rfl⟩ : ∃ n, bound = n + 1 := ⟨bound - 1, by rw [List.length_cons] at hb; omega⟩
    have hnull : (q.next dummy).isNull = false := isNull_next_of_linked h
    obtain ⟨hc, -, hrest⟩ := h
    simp only [chainLength, hnull, Bool.false_eq_true, if_false, hc,
      ih hrest (Nat.le_of_succ_le_succ hb), List.length_cons]

namespace Holds

variable (h : q.Holds dummy cells free)

include h

theorem toList_eq : q.toList = cells.map Prod.snd := by
  rw [toList, h.head_eq]
  exact valuesFrom_of_linked h.linked h.filled (by have := h.length_eq; omega)

theorem length_toList : q.toList.length = cells.length := by rw [h.toList_eq, List.length_map]

end Holds

namespace WellFormed

variable (h : q.WellFormed)

include h

theorem length_le : q.toList.length ≤ q.capacity := by
  obtain ⟨dummy, cells, free, h⟩ := h
  rw [h.length_toList]
  exact Nat.le.intro h.length_eq

theorem isEmpty_eq : q.isEmpty = q.toList.isEmpty := by
  obtain ⟨dummy, cells, free, h⟩ := h
  rw [isEmpty, h.head_eq, isNull_next_of_linked h.linked, h.toList_eq, List.isEmpty_map]

theorem size_eq : q.size = q.toList.length := by
  obtain ⟨dummy, cells, free, h⟩ := h
  rw [size, h.head_eq, h.length_toList]
  exact chainLength_of_linked h.linked (by have := h.length_eq; omega)

theorem available_eq : q.nodes.available.toNat = q.capacity - q.size := by
  obtain ⟨dummy, cells, free, hh⟩ := h
  rw [WellFormed.size_eq ⟨dummy, cells, free, hh⟩, hh.length_toList, hh.available_eq]

theorem isPartitioned : q.IsPartitioned := by
  obtain ⟨dummy, cells, free, h⟩ := h
  refine ⟨cells.map Prod.fst, free, ?_, ?_, ?_, h.stack.stacked, ?_⟩
  · exact h.head_eq ▸ h.linked
  · exact h.head_eq ▸ h.tail_eq
  · rw [List.length_map, h.length_toList]
  · exact h.head_eq ▸ h.exhausts

end WellFormed

structure Reads (q : Queue α) (o : Outcome (Queue α) β) (o' : Outcome (List α) β) : Prop where
  wellFormed : o.state.WellFormed
  capacity_eq : o.state.capacity = q.capacity
  answer_eq : o.answer = o'.answer
  toList_eq : o.state.toList = o'.state
  log_eq : o.log = o'.log

theorem Reads.refl (h : q.WellFormed) (answer : β) :
    q.Reads (.quiet answer q) (.quiet answer q.toList) := ⟨h, rfl, rfl, rfl, rfl⟩

theorem Reads.map {γ : Type} {o : Outcome (Queue α) β} {o' : Outcome (List α) β}
    (h : q.Reads o o') (f : β → γ) : q.Reads (o.map f) (o'.map f) :=
  ⟨h.wellFormed, h.capacity_eq, congrArg f h.answer_eq, h.toList_eq, h.log_eq⟩

theorem toList_create {capacity : Nat} (h : create capacity = .ok q) :
    q.WellFormed ∧ q.capacity = capacity ∧ q.toList = [] := by
  obtain ⟨dummy, free, hh, hcapacity⟩ := holds_create h
  exact ⟨⟨dummy, [], free, hh⟩, hcapacity, hh.toList_eq⟩

namespace WellFormed

theorem push (h : q.WellFormed) (value : α) :
    q.Reads (q.push value)
      (if q.toList.length = q.capacity then
        ⟨false, q.toList, [.debug "Queue node pool exhausted"]⟩
      else .quiet true (q.toList ++ [value])) := by
  obtain ⟨dummy, cells, free, hh⟩ := h
  have hlength := hh.length_eq
  rw [hh.length_toList]
  cases free with
  | nil =>
    rw [push_of_no_free hh, if_pos (show cells.length = q.capacity from hlength)]
    exact ⟨⟨dummy, cells, [], hh⟩, rfl, rfl, rfl, rfl⟩
  | cons i free =>
    obtain ⟨q', hpush, hh', hcapacity⟩ := push_of_free hh value
    rw [List.length_cons] at hlength
    rw [hpush, if_neg (by omega), hh.toList_eq]
    refine ⟨⟨dummy, _, free, hh'⟩, hcapacity, rfl, ?_, rfl⟩
    rw [Outcome.quiet_state, hh'.toList_eq, List.map_append]
    rfl

theorem tryPop (h : q.WellFormed) : q.Reads q.tryPop (.quiet q.toList.head? q.toList.tail) := by
  obtain ⟨dummy, cells, free, hh⟩ := h
  rw [hh.toList_eq]
  cases cells with
  | nil =>
    rw [tryPop_of_empty hh]
    exact ⟨⟨dummy, [], free, hh⟩, rfl, rfl, hh.toList_eq, rfl⟩
  | cons c cells =>
    obtain ⟨q', hpop, hh', hcapacity⟩ := tryPop_of_cons hh
    rw [hpop]
    exact ⟨⟨c.1, cells, _, hh'⟩, hcapacity, rfl, hh'.toList_eq, rfl⟩

theorem takeMany (h : q.WellFormed) (bound : Nat) :
    q.Reads (q.takeMany bound) (.quiet (q.toList.take bound) (q.toList.drop bound)) := by
  induction bound generalizing q with
  | zero => exact .refl h []
  | succ bound ih =>
    obtain ⟨hw, hcapacity, ha, hs, hlog⟩ := h.tryPop
    unfold Queue.takeMany
    cases hq : q.toList with
    | nil =>
      rw [hq] at ha hs
      simp only [ha, Outcome.quiet_answer, List.head?_nil]
      exact ⟨hw, hcapacity, rfl, hs, hlog⟩
    | cons value values =>
      rw [hq] at ha hs
      obtain ⟨hw', hcapacity', ha', hs', hlog'⟩ := ih hw
      rw [hs] at ha' hs'
      simp only [ha, Outcome.quiet_answer, List.head?_cons]
      refine ⟨hw', hcapacity'.trans hcapacity, congrArg (value :: ·) ha', hs', ?_⟩
      rw [hlog, hlog']
      rfl

theorem clear (h : q.WellFormed) : q.Reads q.clear (.quiet q.toList []) := by
  have hle := Nat.le_succ_of_le h.length_le
  have hr := h.takeMany (q.capacity + 1)
  rwa [List.take_of_length_le hle, List.drop_eq_nil_of_le hle] at hr

end WellFormed

def closeList (l : List α) : Outcome (List α) (List α) :=
  ⟨l, [], if l.length = 0 then []
    else [.warn s!"Dropped a queue that still held {l.length} values"]⟩

theorem WellFormed.close (h : q.WellFormed) : q.Reads q.close (closeList q.toList) := by
  obtain ⟨hw, hcapacity, ha, hs, hlog⟩ := h.clear
  unfold Queue.close closeList
  simp only [ha, Outcome.quiet_answer]
  split
  · exact ⟨hw, hcapacity, ha, hs, hlog⟩
  · refine ⟨hw, hcapacity, rfl, hs, ?_⟩
    rw [hlog]
    rfl

inductive Call (α : Type) where
  | push (value : α)
  | tryPop
  | clear
  | isEmpty
  | size

namespace Call

/-- What a call answers. A value that is refused is handed back. -/
def Answer : Call α → Type
  | .push _ => Except α Unit
  | .tryPop => Option α
  | .clear => List α
  | .isEmpty => Bool
  | .size => Nat

def entering : (c : Call α) → c.Answer → List α
  | .push value, .ok () => [value]
  | .push _, .error _ => []
  | .tryPop, _ | .clear, _ | .isEmpty, _ | .size, _ => []

def leaving : (c : Call α) → c.Answer → List α
  | .tryPop, value => Option.toList value
  | .clear, values => values
  | .push _, _ | .isEmpty, _ | .size, _ => []

end Call

def serve (q : Queue α) : (c : Call α) → Outcome (Queue α) c.Answer
  | .push value => (q.push value).map fun accepted => if accepted then .ok () else .error value
  | .tryPop => q.tryPop
  | .clear => q.clear
  | .isEmpty => .quiet q.isEmpty q
  | .size => .quiet q.size q

def after (q : Queue α) (calls : List (Call α)) : Queue α :=
  calls.foldl (fun q c => (q.serve c).state) q

def entered (q : Queue α) : List (Call α) → List α
  | [] => []
  | c :: calls => c.entering (q.serve c).answer ++ (q.serve c).state.entered calls

def left (q : Queue α) : List (Call α) → List α
  | [] => []
  | c :: calls => c.leaving (q.serve c).answer ++ (q.serve c).state.left calls

/-- A call on a list of at most so many values. -/
def serveList (capacity : Nat) (l : List α) : (c : Call α) → Outcome (List α) c.Answer
  | .push value =>
    if l.length = capacity then ⟨.error value, l, [.debug "Queue node pool exhausted"]⟩
    else .quiet (.ok ()) (l ++ [value])
  | .tryPop => .quiet l.head? l.tail
  | .clear => .quiet l []
  | .isEmpty => .quiet l.isEmpty l
  | .size => .quiet l.length l

def listAfter (capacity : Nat) (l : List α) (calls : List (Call α)) : List α :=
  calls.foldl (fun l c => (serveList capacity l c).state) l

theorem append_entering (capacity : Nat) (l : List α) (c : Call α) :
    l ++ c.entering (serveList capacity l c).answer =
      c.leaving (serveList capacity l c).answer ++ (serveList capacity l c).state := by
  cases c with
  | push value =>
    rw [serveList]
    split
    · exact List.append_nil l
    · rfl
  | tryPop =>
    cases l with
    | nil => rfl
    | cons value l => exact List.append_nil _
  | clear => rfl
  | isEmpty => exact List.append_nil l
  | size => exact List.append_nil l

namespace WellFormed

theorem serve (h : q.WellFormed) (c : Call α) :
    q.Reads (q.serve c) (serveList q.capacity q.toList c) := by
  cases c with
  | push value =>
    have hp := (h.push value).map fun accepted =>
      if accepted then Except.ok () else Except.error value
    split at hp
    · next hfull =>
      rw [serveList, if_pos hfull]
      exact hp
    · next hroom =>
      rw [serveList, if_neg hroom]
      exact hp
  | tryPop => exact h.tryPop
  | clear => exact h.clear
  | isEmpty => exact ⟨h, rfl, h.isEmpty_eq, rfl, rfl⟩
  | size => exact ⟨h, rfl, h.size_eq, rfl, rfl⟩

theorem after (h : q.WellFormed) (calls : List (Call α)) :
    (q.after calls).WellFormed ∧ (q.after calls).capacity = q.capacity ∧
      (q.after calls).toList = listAfter q.capacity q.toList calls := by
  induction calls generalizing q with
  | nil => exact ⟨h, rfl, rfl⟩
  | cons c calls ih =>
    obtain ⟨hw, hcapacity, -, hs, -⟩ := h.serve c
    obtain ⟨hw', hcapacity', hl⟩ := ih hw
    rw [hcapacity, hs] at hl
    exact ⟨hw', hcapacity'.trans hcapacity, hl⟩

theorem append_entered (h : q.WellFormed) (calls : List (Call α)) :
    q.toList ++ q.entered calls = q.left calls ++ (q.after calls).toList := by
  induction calls generalizing q with
  | nil => exact List.append_nil _
  | cons c calls ih =>
    obtain ⟨hw, -, ha, hs, -⟩ := h.serve c
    have hstep := append_entering q.capacity q.toList c
    rw [← ha, ← hs] at hstep
    calc q.toList ++ (c.entering (q.serve c).answer ++ (q.serve c).state.entered calls)
        = c.leaving (q.serve c).answer ++
            ((q.serve c).state.toList ++ (q.serve c).state.entered calls) := by
          rw [← List.append_assoc, hstep, List.append_assoc]
      _ = c.leaving (q.serve c).answer ++
            ((q.serve c).state.left calls ++ ((q.serve c).state.after calls).toList) := by
          rw [ih hw]
      _ = q.left (c :: calls) ++ (q.after (c :: calls)).toList := (List.append_assoc ..).symm

end WellFormed

theorem level_ne_error_of_serveList {capacity : Nat} {l : List α} {c : Call α} {r : Record}
    (h : r ∈ (serveList capacity l c).log) : r.level ≠ .error := by
  cases c with
  | push value =>
    rw [serveList] at h
    split at h
    · cases List.mem_singleton.mp h
      exact Level.noConfusion
    · cases h
  | tryPop | clear | isEmpty | size => cases h

theorem level_ne_error_of_closeList {l : List α} {r : Record} (h : r ∈ (closeList l).log) :
    r.level ≠ .error := by
  rw [closeList] at h
  split at h
  · cases h
  · cases List.mem_singleton.mp h
    exact Level.noConfusion

/--
After any calls a new queue holds the values that a list of at most as many as its capacity does,
and every next call answers and records what it does on the list. What entered has left in the same
order once the queue is closed. No node is lost on the way, and no release fails, which would be
recorded as an error.
-/
theorem answers_as_list {capacity : Nat} (h : create capacity = .ok q) (calls : List (Call α)) :
    (q.after calls).toList = listAfter capacity [] calls ∧
      (q.after calls).toList.length ≤ capacity ∧
      (∀ c, (q.after calls).Reads ((q.after calls).serve c)
        (serveList capacity (q.after calls).toList c)) ∧
      (q.after calls).Reads (q.after calls).close (closeList (q.after calls).toList) ∧
      q.entered calls = q.left calls ++ (q.after calls).close.answer ∧
      (q.after calls).IsPartitioned ∧
      (q.after calls).nodes.available.toNat = capacity - (q.after calls).size ∧
      (∀ c, ∀ r ∈ ((q.after calls).serve c).log, r.level ≠ .error) ∧
      ∀ r ∈ (q.after calls).close.log, r.level ≠ .error := by
  obtain ⟨hw, rfl, hempty⟩ := toList_create h
  obtain ⟨hw', hcapacity, hl⟩ := hw.after calls
  have hentered := hw.append_entered calls
  rw [hempty] at hl hentered
  have hserve := fun c => hw'.serve c
  have hclose := hw'.close
  rw [hcapacity] at hserve
  refine ⟨hl, hcapacity ▸ hw'.length_le, hserve, hclose, ?_, hw'.isPartitioned,
    hcapacity ▸ hw'.available_eq, ?_, ?_⟩
  · rw [hclose.answer_eq]
    exact hentered
  · intro c r hr
    exact level_ne_error_of_serveList ((hserve c).log_eq ▸ hr)
  · intro r hr
    exact level_ne_error_of_closeList (hclose.log_eq ▸ hr)

def singleQueue : Queue Nat where
  nodes :=
    { slots := #[⟨1, true, { released := true }⟩, ⟨nullIndex, false, {}⟩]
      head := ⟨1, 1⟩
      available := 1 }
  head := ⟨0, 0⟩
  tail := ⟨0, 0⟩
  capacity := 1

def singleCalls : List (Call Nat) := [.push 7, .push 8, .tryPop, .push 9, .tryPop, .push 10]

theorem answers_as_list_single :
    create 1 = .ok singleQueue ∧
      (singleQueue.after singleCalls).toList = [10] ∧
      ((singleQueue.after singleCalls).serve (.push 11)).answer = .error 11 ∧
      (singleQueue.after singleCalls).close.answer = [10] := by
  have h : create 1 = .ok singleQueue := rfl
  obtain ⟨hl, -, hserve, hclose, -⟩ := answers_as_list h singleCalls
  refine ⟨h, hl, (hserve (.push 11)).answer_eq.trans ?_, hclose.answer_eq.trans hl⟩
  rw [hl]
  rfl

end MemoryKit.Queue
