import MemoryKit.Proofs.Queue.Fifo
import MemoryKit.Proofs.Registry.Requests
import MemoryKit.Registry.Flusher

/-! # Slots that wait

A slot waits in a queue exactly while its record is flagged, and never twice, so that a queue with
a place for every slot has room whenever a slot is to be queued. A record that is to be made or
unmade is flagged for it, except that one whose handle is being created has left its queue.
-/

namespace MemoryKit.Registry

variable {P H : Type} {r r' : Registry P H} {slots slots' : SlotPool (EntryRecord P H)}
  {q q' : Queue UInt32} {flag : EntryRecord P H → Bool} {i : UInt32} {d d' : EntryRecord P H}
  {c c' : Option UInt32} {b b' : Bool} {handle : H} {creating creating' : Prop}

/-- The queue holds the slots whose records are flagged, each once. -/
structure Tracks (q : Queue UInt32) (slots : SlotPool (EntryRecord P H))
    (flag : EntryRecord P H → Bool) : Prop where
  wellFormed : q.WellFormed
  capacity_eq : q.capacity = slots.capacity
  nodup : q.toList.Nodup
  mem_iff : ∀ i, i ∈ q.toList ↔ ∃ d, slots.get? i = some d ∧ flag d = true

structure SameWaiting (q q' : Queue UInt32) : Prop where
  wellFormed : q'.WellFormed
  capacity_eq : q'.capacity = q.capacity
  toList_eq : q'.toList = q.toList

/--
A slot whose flag was `b` and is `b'` now came to a queue, left it as the first one, or did neither.
-/
structure Requeued (q q' : Queue UInt32) (i : UInt32) (b b' : Bool) : Prop where
  wellFormed : q'.WellFormed
  capacity_eq : q'.capacity = q.capacity
  cases : b' = b ∧ q'.toList = q.toList ∨
    b = false ∧ b' = true ∧ q'.toList = q.toList ++ [i] ∨
    b = true ∧ b' = false ∧ q.toList = i :: q'.toList

theorem SameWaiting.requeued (h : SameWaiting q q') (hb : b' = b) : Requeued q q' i b b' :=
  ⟨h.wellFormed, h.capacity_eq, Or.inl ⟨hb, h.toList_eq⟩⟩

theorem sameWaiting_of_tryPop (h : q.WellFormed) (ha : q.tryPop.answer = none) :
    SameWaiting q q.tryPop.state ∧ q.toList = [] := by
  obtain ⟨hw, hcapacity, hanswer, htoList, -⟩ := h.tryPop
  have hempty : q.toList = [] := List.head?_eq_none_iff.mp (hanswer.symm.trans ha)
  refine ⟨⟨hw, hcapacity, htoList.trans ?_⟩, hempty⟩
  rw [hempty]
  rfl

theorem Requeued.length_eq (h : Requeued q q' i b b') :
    q'.toList.length + b.toNat = q.toList.length + b'.toNat := by
  obtain ⟨rfl, hl⟩ | ⟨rfl, rfl, hl⟩ | ⟨rfl, rfl, hl⟩ := h.cases
  · rw [hl]
  · rw [hl, List.length_append]
    rfl
  · rw [hl]
    rfl

namespace Tracks

variable (h : Tracks q slots flag)

include h

theorem sameWaiting : SameWaiting q q := ⟨h.wellFormed, rfl, rfl⟩

theorem congr (hq : SameWaiting q q') (hcapacity : slots'.capacity = slots.capacity)
    (hf : ∀ j, (slots'.get? j).map flag = (slots.get? j).map flag) : Tracks q' slots' flag := by
  have hcapacity' : q'.capacity = slots'.capacity := by
    rw [hq.capacity_eq, hcapacity, h.capacity_eq]
  refine ⟨hq.wellFormed, hcapacity', hq.toList_eq ▸ h.nodup, ?_⟩
  intro j
  have hj := hf j
  rw [hq.toList_eq, h.mem_iff j, ← Option.map_eq_some_iff, ← Option.map_eq_some_iff, hj]

theorem notMem (hd : slots.get? i = some d) (hf : flag d = false) : i ∉ q.toList := fun hi => by
  obtain ⟨d', hd', hf'⟩ := (h.mem_iff i).mp hi
  cases hd.symm.trans hd'
  rw [hf] at hf'
  cases hf'

theorem flag_of_nil (hl : q.toList = []) (hd : slots.get? i = some d) : flag d = false := by
  by_contra hf
  have hi := (h.mem_iff i).mpr ⟨d, hd, Bool.not_eq_false _ ▸ hf⟩
  rw [hl] at hi
  cases hi

theorem length_lt (hd : slots.get? i = some d) (hf : flag d = false) :
    q.toList.length < q.capacity := by
  have hnd : (i :: q.toList).Nodup := List.nodup_cons.mpr ⟨h.notMem hd hf, h.nodup⟩
  rw [h.capacity_eq]
  apply SlotPool.length_le_of_lt hnd
  intro j hj
  rcases List.mem_cons.mp hj with rfl | hj
  · exact SlotPool.lt_of_get? hd
  · obtain ⟨d', hd', -⟩ := (h.mem_iff j).mp hj
    exact SlotPool.lt_of_get? hd'

theorem push (hd : slots.get? i = some d) (hf : flag d = false) :
    (q.push i).answer = true ∧ (q.push i).log = [] ∧ Requeued q (q.push i).state i false true := by
  have hp := h.wellFormed.push i
  rw [if_neg (Nat.ne_of_lt (h.length_lt hd hf))] at hp
  obtain ⟨hw, hcapacity, ha, hs, hlog⟩ := hp
  exact ⟨ha, hlog, hw, hcapacity, Or.inr (Or.inl ⟨rfl, rfl, hs⟩)⟩

theorem pop (ha : q.tryPop.answer = some i) :
    ∃ d, slots.get? i = some d ∧ flag d = true ∧ Requeued q q.tryPop.state i true false := by
  obtain ⟨hw, hcapacity, hanswer, htoList, -⟩ := h.wellFormed.tryPop
  have hl : q.toList = i :: q.tryPop.state.toList := by
    rw [htoList]
    exact (List.cons_head?_tail (hanswer.symm.trans ha)).symm
  obtain ⟨d, hd, hf⟩ := (h.mem_iff i).mp (hl ▸ List.mem_cons_self)
  exact ⟨d, hd, hf, hw, hcapacity, Or.inr (Or.inr ⟨rfl, rfl, hl⟩)⟩

theorem requeue (hd : slots.get? i = some d) (hr : Replaces slots slots' i d')
    (hcapacity : slots'.capacity = slots.capacity) (hq : Requeued q q' i (flag d) (flag d')) :
    Tracks q' slots' flag := by
  have hmem (j : UInt32) (hij : i ≠ j) :
      (∃ d, slots'.get? j = some d ∧ flag d = true) ↔ j ∈ q.toList := by
    rw [hr.get?_of_ne hij, h.mem_iff j]
  have hself : (∃ d, slots'.get? i = some d ∧ flag d = true) ↔ flag d' = true := by
    rw [hr.get?_self]
    exact ⟨fun ⟨_, he, hf⟩ => Option.some.inj he ▸ hf, fun hf => ⟨d', rfl, hf⟩⟩
  have hi : i ∈ q.toList ↔ flag d = true := by
    rw [h.mem_iff i, hd]
    exact ⟨fun ⟨_, he, hf⟩ => Option.some.inj he ▸ hf, fun hf => ⟨d, rfl, hf⟩⟩
  have hcapacity' : q'.capacity = slots'.capacity := by
    rw [hq.capacity_eq, hcapacity, h.capacity_eq]
  obtain ⟨hf, hl⟩ | ⟨hf, hf', hl⟩ | ⟨-, hf', hl⟩ := hq.cases
  · refine ⟨hq.wellFormed, hcapacity', hl ▸ h.nodup, ?_⟩
    intro j
    by_cases hij : i = j
    · rw [← hij, hself, hf, hl, hi]
    · rw [hmem j hij, hl]
  · have hnot : i ∉ q.toList := h.notMem hd hf
    refine ⟨hq.wellFormed, hcapacity', ?_, ?_⟩
    · rw [hl]
      exact (List.nodup_cons.mpr ⟨hnot, h.nodup⟩).perm (List.perm_append_singleton i _).symm
    · intro j
      rw [hl, List.mem_append, List.mem_singleton]
      by_cases hij : i = j
      · rw [← hij, hself]
        exact iff_of_true (Or.inr rfl) hf'
      · rw [hmem j hij, or_iff_left (Ne.symm hij)]
  · obtain ⟨hnot, hnd⟩ := List.nodup_cons.mp (hl ▸ h.nodup)
    refine ⟨hq.wellFormed, hcapacity', hnd, ?_⟩
    intro j
    by_cases hij : i = j
    · rw [← hij, hself, hf']
      exact iff_of_false hnot Bool.false_ne_true
    · rw [hmem j hij, hl, List.mem_cons, or_iff_right (Ne.symm hij)]

end Tracks

/-- A record is flagged as its state calls for, also if its handle is being created. -/
structure EntryRecord.IsSound (d : EntryRecord P H) (creating : Prop) : Prop where
  vacant : d.state = none → d.handle = none ∧ d.queuedMake = false ∧ d.queuedUnmake = false
  making : d.state = some .making →
    d.pending.isSome = true ∧ d.queuedMake = true ∨ creating ∧ d.pending = none
  unmaking : d.state = some .unmaking → d.queuedUnmake = true

namespace EntryRecord.IsSound

variable (h : d.IsSound creating)

include h

theorem mono (hc : creating → creating') : d.IsSound creating' :=
  { h with making := fun hs => (h.making hs).imp_right (And.imp_left hc) }

theorem pending_of_making (hs : d.state = some .making) (hc : ¬creating) :
    d.pending.isSome = true ∧ d.queuedMake = true :=
  (h.making hs).resolve_right fun hn => hc hn.1

/-- A record that was asked for again while its handle was created waits again. -/
theorem pending_of_not_settled (hm : d.state = some .making) (hs : ¬d.isSettled = true) :
    d.pending.isSome = true ∧ d.queuedMake = true := by
  refine (h.making hm).resolve_right fun hn => hs ?_
  exact Bool.and_eq_true_iff.mpr ⟨beq_iff_eq.mpr hm, Option.isNone_iff_eq_none.mpr hn.2⟩

theorem succeeded (hs : d.state ≠ none) (handle : H) : (d.succeeded handle).IsSound creating' := by
  unfold EntryRecord.succeeded
  split
  · exact ⟨nofun, nofun, nofun⟩
  · next hno =>
    exact ⟨fun hn => absurd hn hs, fun hm => Or.inl (h.pending_of_not_settled hm hno), h.unmaking⟩

theorem defeated (hs : d.state ≠ none) : d.defeated.IsSound creating' := by
  unfold EntryRecord.defeated
  split
  · refine ⟨nofun, ?_, ?_⟩
    · intro hm
      dsimp only at hm
      split at hm <;> cases hm
    · intro hu
      dsimp only at hu
      split at hu <;> cases hu
  · next hno =>
    exact ⟨fun hn => absurd hn hs, fun hm => Or.inl (h.pending_of_not_settled hm hno), h.unmaking⟩

end EntryRecord.IsSound

theorem replaces_modifyRecord (hd : r.record? i = some d)
    (f : EntryRecord P H → EntryRecord P H) :
    Replaces r.slots (r.modifyRecord i f).slots i (f d) := fun j => by
  rw [modifyRecord, SlotPool.get?_modify, show r.slots.get? i = some d from hd]
  rfl

/-- The records are sound and the queues hold what they are flagged for. -/
structure Orderly (r : Registry P H) (creating : Option UInt32) : Prop where
  sound : ∀ i d, r.record? i = some d → d.IsSound (creating = some i)
  inUse : ∀ i, creating = some i → ∃ d, InUse r.slots i d
  makes : Tracks r.makes r.slots EntryRecord.queuedMake
  unmakes : Tracks r.unmakes r.slots EntryRecord.queuedUnmake
  pending_eq : r.pending = r.makes.toList.length + r.unmakes.toList.length

structure Resembles (r r' : Registry P H) : Prop where
  record?_eq : ∀ j, r'.record? j = r.record? j
  capacity_eq : r'.slots.capacity = r.slots.capacity
  makes : SameWaiting r.makes r'.makes
  unmakes : SameWaiting r.unmakes r'.unmakes
  pending_eq : r'.pending = r.pending

/--
One record is replaced, and its slot comes to the queues or leaves them with its flags, each of
which stands for one pending request.
-/
structure Revised (r r' : Registry P H) (i : UInt32) (d d' : EntryRecord P H) : Prop where
  record : r.record? i = some d
  replaces : Replaces r.slots r'.slots i d'
  capacity_eq : r'.slots.capacity = r.slots.capacity
  makes : Requeued r.makes r'.makes i d.queuedMake d'.queuedMake
  unmakes : Requeued r.unmakes r'.unmakes i d.queuedUnmake d'.queuedUnmake
  pending_eq : r'.pending + (d.queuedMake.toNat + d.queuedUnmake.toNat) =
    r.pending + (d'.queuedMake.toNat + d'.queuedUnmake.toNat)

theorem SameWaiting.trans {q'' : Queue UInt32} (h : SameWaiting q q') (h' : SameWaiting q' q'') :
    SameWaiting q q'' :=
  ⟨h'.wellFormed, h'.capacity_eq.trans h.capacity_eq, h'.toList_eq.trans h.toList_eq⟩

theorem Requeued.of_sameWaiting {q'' : Queue UInt32} (h : SameWaiting q q')
    (h' : Requeued q' q'' i b b') : Requeued q q'' i b b' :=
  ⟨h'.wellFormed, h'.capacity_eq.trans h.capacity_eq, h.toList_eq ▸ h'.cases⟩

namespace Resembles

variable {r'' : Registry P H} (h : Resembles r r')

include h

theorem trans (h' : Resembles r' r'') : Resembles r r'' :=
  ⟨fun j => (h'.record?_eq j).trans (h.record?_eq j), h'.capacity_eq.trans h.capacity_eq,
    h.makes.trans h'.makes, h.unmakes.trans h'.unmakes, h'.pending_eq.trans h.pending_eq⟩

theorem revised (h' : Revised r' r'' i d d') : Revised r r'' i d d' := by
  refine ⟨(h.record?_eq i).symm.trans h'.record, fun j => ?_,
    h'.capacity_eq.trans h.capacity_eq, h'.makes.of_sameWaiting h.makes,
    h'.unmakes.of_sameWaiting h.unmakes, ?_⟩
  · rw [h'.replaces j]
    exact if_congr Iff.rfl rfl (h.record?_eq j)
  · rw [← h.pending_eq]
    exact h'.pending_eq

end Resembles

namespace Orderly

variable (h : Orderly r c)

include h

theorem resembles_self : Resembles r r :=
  ⟨fun _ => rfl, rfl, h.makes.sameWaiting, h.unmakes.sameWaiting, rfl⟩

theorem congr (hr : Resembles r r') : Orderly r' c := by
  have hslots : ∀ j, r'.slots.get? j = r.slots.get? j := hr.record?_eq
  refine ⟨fun j d hd => h.sound j d ((hr.record?_eq j).symm.trans hd), fun j hj => ?_,
    h.makes.congr hr.makes hr.capacity_eq fun j => congrArg _ (hr.record?_eq j),
    h.unmakes.congr hr.unmakes hr.capacity_eq fun j => congrArg _ (hr.record?_eq j), ?_⟩
  · obtain ⟨d, hd, hs⟩ := h.inUse j hj
    exact ⟨d, (hslots j).trans hd, hs⟩
  · rw [hr.pending_eq, h.pending_eq, hr.makes.toList_eq, hr.unmakes.toList_eq]

theorem revise (hr : Revised r r' i d d') (hs : d'.IsSound (c' = some i))
    (hc : ∀ j, i ≠ j → (c' = some j ↔ c = some j)) (hu : c' = some i → d'.state ≠ none) :
    Orderly r' c' := by
  constructor
  · intro j e he
    obtain ⟨rfl, rfl⟩ | ⟨hij, he⟩ := hr.replaces.eq_or_ne he
    · exact hs
    · exact (h.sound j e he).mono (hc j hij).mpr
  · intro j hj
    by_cases hij : i = j
    · subst hij
      exact ⟨d', hr.replaces.get?_self, hu hj⟩
    · obtain ⟨e, he⟩ := h.inUse j ((hc j hij).mp hj)
      exact ⟨e, (hr.replaces.inUse_iff hij).mpr he⟩
  · exact h.makes.requeue hr.record hr.replaces hr.capacity_eq hr.makes
  · exact h.unmakes.requeue hr.record hr.replaces hr.capacity_eq hr.unmakes
  · have hpending := hr.pending_eq
    have hmakes := hr.makes.length_eq
    have hunmakes := hr.unmakes.length_eq
    rw [h.pending_eq] at hpending
    omega

theorem revised_modifyRecord (hd : r.record? i = some d)
    {f : EntryRecord P H → EntryRecord P H} (hm : (f d).queuedMake = d.queuedMake)
    (hu : (f d).queuedUnmake = d.queuedUnmake) : Revised r (r.modifyRecord i f) i d (f d) :=
  ⟨hd, replaces_modifyRecord hd f, SlotPool.capacity_modify ..,
    h.makes.sameWaiting.requeued hm, h.unmakes.sameWaiting.requeued hu, by rw [hm, hu]; rfl⟩

theorem flags_of_pending_eq_zero (hz : r.pending = 0) (hd : r.record? i = some d) :
    d.queuedMake = false ∧ d.queuedUnmake = false := by
  have hlength := h.pending_eq
  exact ⟨h.makes.flag_of_nil (List.eq_nil_of_length_eq_zero (by omega)) hd,
    h.unmakes.flag_of_nil (List.eq_nil_of_length_eq_zero (by omega)) hd⟩

end Orderly

end MemoryKit.Registry
