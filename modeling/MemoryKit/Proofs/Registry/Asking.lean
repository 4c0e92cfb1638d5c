import MemoryKit.Proofs.Registry.Waiting

/-! # What requests change

A request to make or unmake an entry revises one record or none. A slot is queued only if it does
not wait already, so that no request is turned away for lack of room in a queue, and none writes a
record to the log.
-/

namespace MemoryKit.Registry

variable {P H α : Type} {r r' : Registry P H} {i : UInt32} {d d' : EntryRecord P H}
  {c : Option UInt32} {q : MakeRequest P} {e : Entry} {free : List UInt32}

inductive Effect (r r' : Registry P H) : Prop where
  | none (h : Resembles r r')
  /-- An entry in use is to be made, perhaps again. -/
  | again (i : UInt32) (d : EntryRecord P H) (q : MakeRequest P) (hs : d.state ≠ .none)
    (h : Revised r r' i d (d.rename q))
  /-- A free slot begins to be used. -/
  | new (i : UInt32) (d : EntryRecord P H) (q : MakeRequest P) (hs : d.state = .none)
    (h : Revised r r' i d { d.started q with queuedMake := true })
  | condemn (i : UInt32) (d : EntryRecord P H) (hs : d.state ≠ .none)
    (h : Revised r r' i d { d.condemned with queuedUnmake := true })

/-- A request that leaves no record in the log has one of these effects. -/
def Serves (r : Registry P H) (o : Outcome (Registry P H) α) : Prop :=
  o.log = [] ∧ Effect r o.state

theorem enqueueMake_of_push (ha : (r.makes.push i).answer = true)
    (hlog : (r.makes.push i).log = []) :
    r.enqueueMake i =
      .quiet true { r with makes := (r.makes.push i).state, pending := r.pending + 1 } := by
  unfold enqueueMake
  simp only [ha, hlog, if_true]
  rfl

theorem enqueueUnmake_of_push (ha : (r.unmakes.push i).answer = true)
    (hlog : (r.unmakes.push i).log = []) :
    r.enqueueUnmake i =
      .quiet true { r with unmakes := (r.unmakes.push i).state, pending := r.pending + 1 } := by
  unfold enqueueUnmake
  simp only [ha, hlog, if_true]
  rfl

namespace Orderly

variable (h : Orderly r c)

include h

theorem revised_make (hd : r.record? i = some d) (hf : d.queuedMake = false)
    (hr : Replaces r.slots r'.slots i d') (hcapacity : r'.slots.capacity = r.slots.capacity)
    (hf' : d'.queuedMake = true) (hu : d'.queuedUnmake = d.queuedUnmake)
    (hmakes : r'.makes = (r.makes.push i).state) (hunmakes : r'.unmakes = r.unmakes)
    (hp : r'.pending = r.pending + 1) : Revised r r' i d d' := by
  obtain ⟨-, -, hq⟩ := h.makes.push hd hf
  refine ⟨hd, hr, hcapacity, by rwa [hmakes, hf, hf'], ?_, ?_⟩
  · rw [hunmakes]
    exact h.unmakes.sameWaiting.requeued hu
  · rw [hp, hf, hf', hu, Bool.toNat_false, Bool.toNat_true]
    omega

theorem revised_unmake (hd : r.record? i = some d) (hf : d.queuedUnmake = false)
    (hr : Replaces r.slots r'.slots i d') (hcapacity : r'.slots.capacity = r.slots.capacity)
    (hf' : d'.queuedUnmake = true) (hm : d'.queuedMake = d.queuedMake)
    (hunmakes : r'.unmakes = (r.unmakes.push i).state) (hmakes : r'.makes = r.makes)
    (hp : r'.pending = r.pending + 1) : Revised r r' i d d' := by
  obtain ⟨-, -, hq⟩ := h.unmakes.push hd hf
  refine ⟨hd, hr, hcapacity, ?_, by rwa [hunmakes, hf, hf'], ?_⟩
  · rw [hmakes]
    exact h.makes.sameWaiting.requeued hm
  · rw [hp, hf, hf', hm, Bool.toNat_false, Bool.toNat_true]
    omega

theorem serves_self {answer : α} : Serves r (.quiet answer r) := ⟨rfl, .none h.resembles_self⟩

theorem serves_remake (hd : r.record? i = some d) (hs : d.state ≠ none) :
    Serves r (r.remake i d q) := by
  unfold remake
  dsimp only
  split
  · exact h.serves_self
  split
  · next hf =>
    exact ⟨rfl, .again i d q hs (h.revised_modifyRecord (f := (·.rename q)) hd hf.symm rfl)⟩
  · next hf =>
    have hf : d.queuedMake = false := Bool.not_eq_true _ ▸ hf
    obtain ⟨ha, hlog, -⟩ := h.makes.push hd hf
    rw [enqueueMake_of_push ha hlog]
    refine ⟨rfl, .again i d q hs (h.revised_make hd hf ?_ ?_ rfl rfl rfl rfl rfl)⟩
    · exact replaces_modifyRecord hd (·.rename q)
    · exact SlotPool.capacity_modify ..

theorem serves_start (hd : r.record? i = some d) (hs : d.state = none) :
    Serves r (r.start i q) := by
  obtain ⟨-, hm, hu⟩ := (h.sound i d hd).vacant hs
  obtain ⟨ha, hlog, -⟩ := h.makes.push hd hm
  have hstarted := replaces_modifyRecord hd (·.started q)
  unfold start
  simp only [enqueueMake_of_push (r := r.modifyRecord i (·.started q)) ha hlog,
    Outcome.quiet_answer, if_true]
  refine ⟨rfl, .new i d q hs (h.revised_make hd hm ?_ ?_ rfl hu.symm rfl rfl rfl)⟩
  · exact hstarted.trans (replaces_modifyRecord hstarted.get?_self ({ · with queuedMake := true }))
  · exact (SlotPool.capacity_modify ..).trans (SlotPool.capacity_modify ..)

theorem resembles_of_get? {slots : SlotPool (EntryRecord P H)} (lookup : KeyTable)
    (hget : ∀ j, slots.get? j = r.slots.get? j) (hcapacity : slots.capacity = r.slots.capacity) :
    Resembles r { r with slots, lookup } :=
  ⟨hget, hcapacity, h.makes.sameWaiting, h.unmakes.sameWaiting, rfl⟩

end Orderly

theorem Serves.of_resembles {o : Outcome (Registry P H) α} (h : Resembles r r')
    (ho : Serves r' o) : Serves r o := by
  refine ⟨ho.1, ?_⟩
  cases ho.2 with
  | none h' => exact .none (h.trans h')
  | again i d q hs h' => exact .again i d q hs (h.revised h')
  | new i d q hs h' => exact .new i d q hs (h.revised h')
  | condemn i d hs h' => exact .condemn i d hs (h.revised h')

theorem Orderly.serves_makeNew (h : Orderly r c) (ha : Agree r.slots r.lookup r.fixed free)
    (hn : r.inUse? q.key = none) : Serves r (r.makeNew q) := by
  unfold makeNew
  cases free with
  | nil =>
    rw [SlotPool.allocate_nil ha.stack]
    exact h.serves_self
  | cons i free =>
    obtain ⟨slots, he, hs, hget, hcapacity⟩ := SlotPool.allocate_cons ha.stack
    obtain ⟨d, hd, hstate⟩ := ha.exists_free List.mem_cons_self
    rw [he]
    dsimp only
    rcases hi : r.lookup.insert q.key i.toUInt64 with ⟨e | old, lookup⟩
    · obtain ⟨slots', hrelease, -, hget', hcapacity'⟩ :=
        releaseSlot_eq (r := { r with slots, lookup }) hs (List.nodup_cons.mp ha.stack.nodup).1
          (hcapacity ▸ SlotPool.lt_of_get? hd)
      dsimp only
      rw [hrelease]
      exact ⟨rfl, .none (h.resembles_of_get? lookup (fun j => (hget' j).trans (hget j))
        (hcapacity'.trans hcapacity))⟩
    · obtain ⟨rfl, -, -⟩ := ha.probing.insert hi
      dsimp only
      rw [if_pos (ha.get_eq_null hn)]
      have hr := h.resembles_of_get? lookup hget hcapacity
      exact .of_resembles hr ((h.congr hr).serves_start ((hget i).trans hd) hstate)

theorem Orderly.serves_make (h : Orderly r c) (ha : r.Agrees) (q : MakeRequest P) :
    Serves r (r.make q) := by
  unfold make
  split
  · exact h.serves_self
  split
  · exact h.serves_self
  · cases hi : r.inUse? q.key with
    | some used =>
      obtain ⟨hu, -⟩ := inUse_of_inUse? hi
      exact h.serves_remake hu.1 hu.2
    | none =>
      obtain ⟨free, ha⟩ := ha
      exact h.serves_makeNew ha hi

theorem Orderly.serves_unmake (h : Orderly r c) (e : Entry) : Serves r (r.unmake e) := by
  unfold unmake
  cases hf : r.find? e with
  | none => exact h.serves_self
  | some d =>
    obtain ⟨hd, hs⟩ := inUse_of_find? hf
    dsimp only
    split
    · exact h.serves_self
    split
    · exact h.serves_self
    have hcondemned := replaces_modifyRecord (r := r) hd EntryRecord.condemned
    split
    · next hu =>
      refine ⟨rfl, .condemn e.index d hs ?_⟩
      have hr := h.revised_modifyRecord (f := EntryRecord.condemned) hd rfl rfl
      have he : ({ d.condemned with queuedUnmake := true } : EntryRecord P H) = d.condemned := by
        rw [← hu]
        rfl
      rwa [he]
    · next hu =>
      have hu : d.queuedUnmake = false := Bool.not_eq_true _ ▸ hu
      obtain ⟨ha, hlog, -⟩ := h.unmakes.push hd hu
      rw [enqueueUnmake_of_push (r := r.modifyRecord e.index EntryRecord.condemned) ha hlog]
      simp only [Outcome.quiet_answer, if_true]
      refine ⟨rfl, .condemn e.index d hs (h.revised_unmake hd hu ?_ ?_ rfl rfl rfl rfl rfl)⟩
      · exact hcondemned.trans
          (replaces_modifyRecord hcondemned.get?_self ({ · with queuedUnmake := true }))
      · exact (SlotPool.capacity_modify ..).trans (SlotPool.capacity_modify ..)

theorem Orderly.serves (h : Orderly r c) (ha : r.Agrees) (q : Request P) :
    Serves r (r.serve q) := by
  cases q with
  | make q => exact h.serves_make ha q
  | unmake e => exact h.serves_unmake e
  | _ => exact h.serves_self

theorem Orderly.of_effect (h : Orderly r c) (he : Effect r r') : Orderly r' c := by
  cases he with
  | none hr => exact h.congr hr
  | again i d q hs hr =>
    exact h.revise hr ⟨nofun, fun _ => Or.inl ⟨rfl, rfl⟩, nofun⟩ (fun _ _ => Iff.rfl) fun _ => nofun
  | new i d q hs hr =>
    exact h.revise hr ⟨nofun, fun _ => Or.inl ⟨rfl, rfl⟩, nofun⟩ (fun _ _ => Iff.rfl) fun _ => nofun
  | condemn i d hs hr =>
    exact h.revise hr ⟨nofun, nofun, fun _ => rfl⟩ (fun _ _ => Iff.rfl) fun _ => nofun

end MemoryKit.Registry
