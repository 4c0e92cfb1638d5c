import MemoryKit.Proofs.Queue.Chain

/-! # What operations do to the chain

Appending a value takes the top of the free nodes and links it behind the tail; taking one returns
the dummy to the free nodes and makes the first node the dummy. No release fails, so that neither
writes a record unless there is no free node.
-/

namespace MemoryKit.Queue

variable {α : Type} {q : Queue α} {i dummy : UInt32} {free : List UInt32}
  {cells : List (UInt32 × α)} {value : α} {n : Node α}

theorem release_of_released (hn : q.nodes.get? i = some n) (hr : n.released = true)
    (hs : q.nodes.HasStack free) (hi : i ∉ free) :
    ∃ nodes, q.release i = .quiet () { q with nodes } ∧ nodes.HasStack (i :: free) ∧
      (∀ j, nodes.get? j = q.nodes.get? j) ∧ nodes.capacity = q.nodes.capacity := by
  obtain ⟨nodes, hd, hs', hget, hcapacity⟩ :=
    SlotPool.deallocate_used hs hi (SlotPool.lt_of_get? hn)
  refine ⟨nodes, ?_, hs', hget, hcapacity⟩
  simp only [release, hn, hr, hd, if_true]

theorem release_of_unreleased (hn : q.nodes.get? i = some n) (hr : n.released = false) :
    q.release i =
      .quiet () { q with nodes := q.nodes.modify i fun n => { n with released := true } } := by
  simp only [release, hn, hr, Bool.false_eq_true, if_false]

theorem exhausts_range {bound : Nat} (h : bound ≤ maxPoolCapacity) :
    Exhausts ((List.range bound).map .ofNat) bound :=
  ⟨SlotPool.nodup_indices h, fun _ => SlotPool.mem_indices h⟩

theorem holds_create {capacity : Nat} (h : create capacity = .ok q) :
    ∃ dummy free, q.Holds dummy [] free ∧ q.capacity = capacity := by
  unfold create at h
  split at h
  · cases h
  split at h
  · cases h
  · next nodes hc =>
    obtain ⟨hle, hnodes⟩ := SlotPool.le_of_create hc
    have hall := SlotPool.hasStack_create hc
    have hrange := exhausts_range hle
    rw [List.range_succ_eq_map, List.map_cons] at hall hrange
    obtain ⟨nodes', ha, hs, hget, hcapacity⟩ := SlotPool.allocate_cons hall
    rw [ha] at h
    cases h
    have hzero : (UInt32.ofNat 0).toNat < capacity + 1 := Nat.zero_lt_succ capacity
    have hdummy : nodes'.get? (.ofNat 0) = some {} := by
      rw [hget, SlotPool.get?, SlotPool.slot?_create hc, if_pos hzero]
      rfl
    have hspent : (nodes'.modify (.ofNat 0) fun n => { n with released := true }).get? (.ofNat 0) =
        some { released := true } := by
      rw [SlotPool.get?_modify, if_pos rfl, hdummy]
      rfl
    refine ⟨.ofNat 0, _, ⟨hs.modify _ fun n => { n with released := true }, ?_, ?_, rfl, rfl, ?_,
      ⟨_, hspent, rfl⟩, ?_⟩, rfl⟩
    · rw [SlotPool.capacity_modify, hcapacity, hnodes]
      exact hrange
    · rw [SlotPool.capacity_modify, hcapacity, hnodes]
    · rw [List.map_nil, Linked, next_of_get? hspent]
      rfl
    · intro c hc
      cases hc

/-- The first turn links a node, unless the tail lags behind. -/
theorem link_of_isNull (h : (q.next q.tail.index).isNull = true) (turns : Nat) :
    q.link i (turns + 1) =
      { q with
        nodes := q.nodes.modify q.tail.index fun n => { n with next := n.next.withIndex i }
        tail := q.tail.withIndex i } := by
  rw [link, if_pos h]

theorem push_of_no_free (h : q.Holds dummy cells []) (value : α) :
    q.push value = ⟨false, q, [.debug "Queue node pool exhausted"]⟩ := by
  rw [push, SlotPool.allocate_nil h.stack]

theorem push_of_free (h : q.Holds dummy cells (i :: free)) (value : α) :
    ∃ q', q.push value = .quiet true q' ∧ q'.Holds dummy (cells ++ [(i, value)]) free ∧
      q'.capacity = q.capacity := by
  obtain ⟨nodes, ha, hs, hget, hcapacity⟩ := SlotPool.allocate_cons h.stack
  have hi : i ∉ dummy :: cells.map Prod.fst := fun hc => h.notMem_free hc List.mem_cons_self
  have hne : i ≠ q.tail.index := fun he => hi (he ▸ h.tail_mem)
  obtain ⟨s, hsi⟩ := h.stack.exists_slot? List.mem_cons_self
  have hni : q.nodes.get? i = some s.value := by rw [SlotPool.get?, hsi]; rfl
  obtain ⟨t, ht⟩ := h.exists_node h.tail_mem
  let fill (n : Node α) : Node α :=
    { next := n.next.withIndex nullIndex, value := some value, released := false }
  let link (n : Node α) : Node α := { n with next := n.next.withIndex i }
  let q' : Queue α :=
    { q with
      nodes := (nodes.modify i fill).modify q.tail.index link
      tail := q.tail.withIndex i }
  have hget' (j : UInt32) : q'.nodes.get? j =
      if q.tail.index = j then some (link t) else if i = j then some (fill s.value)
      else q.nodes.get? j := by
    rw [SlotPool.get?_modify, SlotPool.get?_modify, SlotPool.get?_modify, hget, hget, if_neg hne,
      hget, ht, hni]
    rfl
  have hlast : q'.nodes.get? q.tail.index = some (link t) := by rw [hget', if_pos rfl]
  have hnew : q'.nodes.get? i = some (fill s.value) := by rw [hget', if_neg hne.symm, if_pos rfl]
  have hnodes : q'.nodes.capacity = q.nodes.capacity := by
    rw [SlotPool.capacity_modify, SlotPool.capacity_modify, hcapacity]
  have hnull : (Queue.next { q with nodes := nodes.modify i fill } q.tail.index).isNull = true := by
    rw [next, SlotPool.get?_modify, if_neg hne, hget, ← next]
    exact h.isNull_next_tail
  refine ⟨q', ?_, ?_, rfl⟩
  · rw [push, ha]
    exact congrArg (Outcome.quiet true) (link_of_isNull hnull q.capacity)
  refine h.append ((hs.modify i fill).modify _ link) hnodes rfl rfl rfl ?_
    ⟨_, hnew, rfl, rfl, rfl⟩ fun j n hj hn => ?_
  · rw [next_of_get? hlast]
    rfl
  · by_cases he : q.tail.index = j
    · subst he
      cases ht.symm.trans hn
      exact ⟨link t, hlast, rfl, rfl, fun hj => absurd rfl hj⟩
    · refine ⟨n, ?_, rfl, rfl, fun _ => rfl⟩
      have hij : i ≠ j := fun hij => hi (hij ▸ hj)
      rw [hget', if_neg he, if_neg hij, hn]

/-- The first turn decides, since the tail does not lag behind. -/
theorem tryPopWithin_succ (h : q.Holds dummy cells free) (turns : Nat) :
    q.tryPopWithin (turns + 1) =
      if cells = [] then .quiet none q else q.takeFirst (q.next q.head.index).index := by
  rw [tryPopWithin, h.head_eq]
  cases cells with
  | nil =>
    have hnull : (q.next dummy).isNull = true := beq_iff_eq.mpr h.linked
    have hlast := h.head_eq_tail_iff.mpr rfl
    rw [h.head_eq] at hlast
    rw [if_pos hlast, if_pos hnull, if_pos rfl]
  | cons c cells =>
    obtain ⟨hi, hne, -⟩ := h.linked
    have hnull : ¬(q.next dummy).isNull = true := by
      rw [TaggedIndex.isNull, hi, beq_iff_eq]
      exact hne
    have hlast : dummy ≠ q.tail.index := by
      rw [← h.head_eq, Ne, h.head_eq_tail_iff]
      exact List.cons_ne_nil c cells
    rw [if_neg hlast, if_neg hnull, if_neg (List.cons_ne_nil c cells)]

theorem tryPop_of_empty (h : q.Holds dummy [] free) : q.tryPop = .quiet none q := by
  rw [tryPop, tryPopWithin_succ h, if_pos rfl]

theorem takeFirst_of_cons (h : q.Holds dummy ((i, value) :: cells) free) :
    ∃ q', q.takeFirst i = .quiet (some value) q' ∧ q'.Holds i cells (dummy :: free) ∧
      q'.capacity = q.capacity := by
  have hdi : i ≠ dummy := fun he => (List.nodup_cons.mp h.nodup).1 (he ▸ List.mem_cons_self)
  obtain ⟨n, hn, hv, hr⟩ := h.filled _ List.mem_cons_self
  obtain ⟨d, hd, hrd⟩ := h.spent
  let take (n : Node α) : Node α := { n with value := none }
  let spend (n : Node α) : Node α := { n with released := true }
  let emptied : Queue α :=
    { q with head := q.head.withIndex i, nodes := q.nodes.modify i take }
  have hget (j : UInt32) :
      emptied.nodes.get? j = if i = j then some (take n) else q.nodes.get? j := by
    rw [SlotPool.get?_modify, hn]
    rfl
  -- The dummy is released for the second time, the first node for the first time.
  obtain ⟨nodes, hsecond, hs, hget', hcapacity⟩ := release_of_released (q := emptied)
    ((hget dummy).trans (by rw [if_neg hdi, hd])) hrd (h.stack.modify i take)
    (h.notMem_free List.mem_cons_self)
  have hni : nodes.get? i = some (take n) := by rw [hget', hget, if_pos rfl]
  have hfirst := release_of_unreleased (q := { emptied with nodes }) hni hr
  let q' : Queue α := { emptied with nodes := nodes.modify i spend }
  have hq' (j : UInt32) :
      q'.nodes.get? j = if i = j then some (spend (take n)) else q.nodes.get? j := by
    rw [SlotPool.get?_modify, hni, hget', hget]
    split <;> rfl
  have hnodes : q'.nodes.capacity = q.nodes.capacity := by
    rw [SlotPool.capacity_modify, hcapacity, SlotPool.capacity_modify]
  refine ⟨q', ?_, ?_, rfl⟩
  · simp only [takeFirst, hn, Option.bind_some, hv]
    change Outcome.mk _ (Queue.release (Queue.release emptied q.head.index).state i).state
      ((Queue.release emptied q.head.index).log ++
        (Queue.release (Queue.release emptied q.head.index).state i).log) = _
    rw [h.head_eq, hsecond, Outcome.quiet_state, hfirst]
    rfl
  · refine h.behead (hs.modify i spend) hnodes rfl rfl rfl
      ⟨spend (take n), by rw [hq', if_pos rfl], rfl⟩ (fun j => ?_)
      fun j hj => by rw [hq', if_neg hj]
    by_cases hij : i = j
    · subst hij
      rw [next, hq', if_pos rfl, next_of_get? hn]
    · rw [next, hq', if_neg hij, next]

theorem tryPop_of_cons (h : q.Holds dummy ((i, value) :: cells) free) :
    ∃ q', q.tryPop = .quiet (some value) q' ∧ q'.Holds i cells (dummy :: free) ∧
      q'.capacity = q.capacity := by
  obtain ⟨hi, -⟩ := h.linked
  rw [tryPop, tryPopWithin_succ h, if_neg (List.cons_ne_nil _ _), h.head_eq, hi]
  exact takeFirst_of_cons h

end MemoryKit.Queue
