import MemoryKit.Proofs.Registry.Pending

/-! # Requests that are refused

A request may be refused after it has taken a slot, stored a key and filled in a record. Making
undoes all of this: the record of a free slot holds nothing but a generation, so that emptying it
gives back the record it was. Unmaking checks everything but the room in its queue before it changes
a record, and does not undo the change if there is none. None of this depends on what waits in the
queues.
-/

namespace MemoryKit.Registry

variable {σ P H α : Type} {life : Lifetime σ P H} {events : List (Event P H)}
  {m m' : Moment σ P H} {r r' taken : Registry P H} {i : UInt32} {d d' : EntryRecord P H}
  {q : MakeRequest P} {e : Entry} {free : List UInt32} {error : RegistryError}

/-- If the slot is free, the record holds nothing but its generation. -/
def EntryRecord.IsTidy (d : EntryRecord P H) : Prop := d.state = none → d = d.vacated

def Tidy (r : Registry P H) : Prop := ∀ i d, r.record? i = some d → d.IsTidy

theorem EntryRecord.isTidy_of_state_ne (hs : d.state ≠ none) : d.IsTidy := fun hn => absurd hn hs

theorem EntryRecord.IsTidy.change (h : d.IsTidy) (f : EntryRecord P H → EntryRecord P H)
    (hs : (f d).state = none → d.state = none) (hf : f d.vacated = (f d.vacated).vacated) :
    (f d).IsTidy := fun hn => by
  have hd := h (hs hn)
  calc f d = f d.vacated := congrArg f hd
    _ = (f d.vacated).vacated := hf
    _ = (f d).vacated := by rw [← hd]

theorem Resembles.tidy (hr : Resembles r r') (h : r.Tidy) : r'.Tidy := fun i d hd =>
  h i d ((hr.record?_eq i).symm.trans hd)

theorem Revised.tidy (hr : Revised r r' i d d') (h : r.Tidy) (hd : d.IsTidy → d'.IsTidy) :
    r'.Tidy := by
  intro j e he
  obtain ⟨rfl, rfl⟩ | ⟨-, he⟩ := hr.replaces.eq_or_ne he
  · exact hd (h i d hr.record)
  · exact h j e he

theorem Effect.tidy (he : Effect r r') (h : r.Tidy) : r'.Tidy := by
  cases he with
  | none hr => exact hr.tidy h
  | again _ _ _ _ hr | new _ _ _ _ hr | condemn _ _ _ hr =>
    exact hr.tidy h fun _ => EntryRecord.isTidy_of_state_ne (Option.some_ne_none _)

theorem Step.tidy (hs : Step life m events m') (ha : m.registry.Agrees)
    (ho : Orderly m.registry m.activity.creating?) (h : m.registry.Tidy) : m'.registry.Tidy := by
  cases hs with
  | ask q _ => exact (ho.serves ha q).2.tidy h
  | askInside => exact (ho.serves ha _).2.tidy h
  | skipMake hd ht =>
    obtain ⟨d, -, ⟨-, -, hr⟩ | ⟨payload, he, -⟩⟩ := ho.takeRequest_cases hd ht
    · exact hr.tidy h fun hd => hd.change ({ · with queuedMake := false }) id rfl
    · cases he
  | make hd ht =>
    obtain ⟨d, -, ⟨he, -⟩ | ⟨payload, -, -, -, hr⟩⟩ := ho.takeRequest_cases hd ht
    · cases he
    · exact hr.tidy h fun hd => hd.change ({ · with queuedMake := false, pending := none }) id rfl
  | skipUnmake hm hd hg =>
    obtain ⟨d, -, -, ⟨-, -, hr⟩ | ⟨he, -⟩⟩ := ho.giveUp_cases hm hd hg
    · exact hr.tidy h fun hd => hd.change ({ · with queuedUnmake := false }) id rfl
    · cases he
  | unmake hm hd hg =>
    rw [Moment.registry_destroying]
    obtain ⟨d, -, -, ⟨he, -⟩ | ⟨-, -, hr⟩⟩ := ho.giveUp_cases hm hd hg
    · cases he
    · exact (hr.releaseSlot _).tidy h fun _ _ => rfl
  | exhaust hm hd =>
    obtain ⟨hsame, -⟩ := ho.resembles_dequeueMake hm
    obtain ⟨hsame', -⟩ := (ho.congr hsame).resembles_dequeueUnmake hd
    exact (hsame.trans hsame').tidy h
  | finish => exact (Flusher.resembles_compactIfDue ho).tidy h
  | @succeed f i _ _ handle =>
    rw [Moment.registry_destroying]
    obtain ⟨d, hd, hs⟩ := ho.inUse i rfl
    have hr := ho.revised_modifyRecord (f := (·.succeeded handle)) hd rfl rfl
    have hs' := mt (outline_eq_iff.mp (outline_succeeded d handle)).2.1.mp hs
    exact hr.tidy h fun _ => EntryRecord.isTidy_of_state_ne hs'
  | @fail f i =>
    obtain ⟨d, hd, hs⟩ := ho.inUse i rfl
    have hr := ho.revised_modifyRecord (f := EntryRecord.defeated) hd rfl rfl
    have hs' := mt (outline_eq_iff.mp (outline_defeated d)).2.1.mp hs
    exact hr.tidy h fun _ => EntryRecord.isTidy_of_state_ne hs'
  | @closeSlot f i _ handle hh =>
    rw [Moment.registry_destroying]
    obtain ⟨d, hd, -⟩ := Option.bind_eq_some_iff.mp hh
    have hr := ho.revised_modifyRecord (f := ({ · with handle := none })) hd rfl rfl
    exact hr.tidy h fun hd => hd.change ({ · with handle := none }) id rfl
  | flush | note | resume | close | skipSlot | vanish => exact h

theorem Flusher.tidy_of_create {config : RegistryConfig} {s : σ} {payloads : Placeholders P}
    (h : (create life config s payloads).answer = .ok r) : r.Tidy := by
  obtain ⟨-, -, -, -, -, htidy⟩ := exists_of_create
    (motive := fun o => ∀ i d, o.slots.get? i = some d → d.IsTidy)
    (fun o o' name handle i d ha hm j d' hd' => by
      obtain ⟨-, rfl⟩ | ⟨-, hd'⟩ := ha.replaces.eq_or_ne hd'
      · exact EntryRecord.isTidy_of_state_ne (Option.some_ne_none _)
      · exact hm j d' hd')
    h fun slots hslots _ i d hd => by
      rw [SlotPool.get?, SlotPool.slot?_create hslots] at hd
      split at hd
      · cases hd
        exact fun _ => rfl
      · cases hd
  exact htidy

theorem Run.tidy (h : Run life events m) : m.registry.Tidy := by
  induction h with
  | start h => exact Flusher.tidy_of_create h
  | step h hs ih => exact hs.tidy h.agrees h.orderly ih

structure Alike (r r' : Registry P H) : Prop where
  get_eq : ∀ key, r'.get key = r.get key
  len_eq : r'.len = r.len
  pending_eq : r'.pending = r.pending

structure Unchanged (r r' : Registry P H) : Prop extends Alike r r' where
  record?_eq : ∀ j, r'.record? j = r.record? j

/-- The request changes nothing if it is refused. -/
def Harmless (r : Registry P H) (o : Outcome (Registry P H) (Except RegistryError α)) : Prop :=
  ∀ error, o.answer = .error error → Unchanged r o.state

theorem get_congr
    (hg : ∀ j, (r'.record? j).map EntryRecord.generation =
      (r.record? j).map EntryRecord.generation)
    (hl : ∀ key, r'.lookup.get key = r.lookup.get key) (key : UInt64) :
    r'.get key = r.get key := by
  unfold get
  rw [hl key]
  dsimp only
  split
  · rfl
  · have he := congrArg (Option.map (Entry.mk (r.lookup.get key).toUInt32))
      (hg (r.lookup.get key).toUInt32)
    rwa [Option.map_map, Option.map_map] at he

theorem Unchanged.refl (r : Registry P H) : Unchanged r r :=
  ⟨⟨fun _ => rfl, rfl, rfl⟩, fun _ => rfl⟩

theorem harmless_self {answer : Except RegistryError α} : Harmless r (.quiet answer r) :=
  fun _ _ => .refl r

/-- The slots are handed out and returned in between, and the lookup only gets tombstones. -/
theorem unchanged_of_record?_eq (hrecord : ∀ j, r'.record? j = r.record? j)
    (hl : ∀ key, r'.lookup.get key = r.lookup.get key) (hs : r.slots.HasStack free)
    (hs' : r'.slots.HasStack free) (hcapacity : r'.slots.capacity = r.slots.capacity)
    (hp : r'.pending = r.pending) : Unchanged r r' := by
  have hlen : r'.len = r.len := by
    rw [len, len, hcapacity, hs'.available_eq, hs.available_eq]
  exact ⟨⟨get_congr (fun j => congrArg _ (hrecord j)) hl, hlen, hp⟩, hrecord⟩

theorem enqueueMake_refused (ha : ¬(r.enqueueMake i).answer = true) :
    (r.enqueueMake i).state = { r with makes := (r.makes.push i).state } := by
  unfold enqueueMake at ha ⊢
  dsimp only at ha ⊢
  split at ha
  · exact absurd rfl ha
  · next hpush => rw [if_neg hpush]

theorem enqueueUnmake_refused (ha : ¬(r.enqueueUnmake i).answer = true) :
    (r.enqueueUnmake i).state = { r with unmakes := (r.unmakes.push i).state } := by
  unfold enqueueUnmake at ha ⊢
  dsimp only at ha ⊢
  split at ha
  · exact absurd rfl ha
  · next hpush => rw [if_neg hpush]

theorem answer_enqueueUnmake (r : Registry P H) (i : UInt32) :
    (r.enqueueUnmake i).answer = (r.unmakes.push i).answer := by
  unfold enqueueUnmake
  dsimp only
  split
  · next ha => exact ha.symm
  · next ha => exact (Bool.not_eq_true _ ▸ ha).symm

theorem harmless_remake (r : Registry P H) (i : UInt32) (d : EntryRecord P H)
    (q : MakeRequest P) : Harmless r (r.remake i d q) := by
  intro error
  unfold remake
  dsimp only
  split
  · nofun
  split
  · nofun
  split
  · nofun
  next ha =>
    intro _
    rw [enqueueMake_refused ha]
    exact ⟨⟨fun _ => rfl, rfl, rfl⟩, fun _ => rfl⟩

theorem Taken.unchanged_releaseSlot (T : Taken r i q.key free taken) (ht : r.Tidy)
    (hcapacity : taken.slots.capacity = r.slots.capacity)
    (hslots : r'.slots = (taken.slots.modify i (·.started q)).modify i EntryRecord.vacated)
    (hlookup : r'.lookup = (taken.lookup.remove q.key).2) (hp : r'.pending = r.pending) :
    Unchanged r (r'.releaseSlot i).state := by
  obtain ⟨d, hd, hfree⟩ := T.agree.exists_free List.mem_cons_self
  have hstarted := replaces_modifyRecord (r := taken) ((T.record?_eq i).trans hd) (·.started q)
  have hvacated : Replaces taken.slots r'.slots i d.vacated :=
    hslots ▸ hstarted.trans (replaces_modifyRecord hstarted.get?_self EntryRecord.vacated)
  have hrecord (j : UInt32) : r'.record? j = r.record? j := by
    rw [record?, hvacated j]
    split
    · next hij =>
      subst hij
      exact (congrArg some (ht i d hd hfree)).symm.trans hd.symm
    · exact T.record?_eq j
  have hstack : r'.slots.HasStack free := hslots ▸ (T.stack.modify i _).modify i _
  have hcapacity' : r'.slots.capacity = r.slots.capacity := by
    rw [hslots, SlotPool.capacity_modify, SlotPool.capacity_modify, hcapacity]
  obtain ⟨slots, he, hs, hget, hcap⟩ := releaseSlot_eq hstack
    (List.nodup_cons.mp T.agree.stack.nodup).1 (hcapacity' ▸ SlotPool.lt_of_get? hd)
  rw [he]
  refine unchanged_of_record?_eq (fun j => (hget j).trans (hrecord j)) (fun key => ?_)
    T.agree.stack hs (hcap.trans hcapacity') hp
  dsimp only [Outcome.quiet_state]
  rw [hlookup, (T.probing.remove q.key).2, T.get_eq]
  split
  · next hk => rw [hk, T.get_eq_null]
  · rfl

theorem Taken.harmless_start (T : Taken r i q.key free taken) (ht : r.Tidy)
    (hcapacity : taken.slots.capacity = r.slots.capacity) (hp : taken.pending = r.pending) :
    Harmless r (taken.start i q) := by
  intro error
  unfold start
  dsimp only
  split
  · nofun
  next ha =>
    intro _
    rw [enqueueMake_refused ha]
    exact T.unchanged_releaseSlot ht hcapacity rfl rfl hp

theorem Agree.harmless_makeNew (h : Agree r.slots r.lookup r.fixed free) (ht : r.Tidy)
    (hn : r.inUse? q.key = none) : Harmless r (r.makeNew q) := by
  unfold makeNew
  cases free with
  | nil =>
    rw [SlotPool.allocate_nil h.stack]
    exact harmless_self
  | cons i free =>
    obtain ⟨slots, he, hs, hget, hcapacity⟩ := SlotPool.allocate_cons h.stack
    rw [he]
    dsimp only
    rcases hi : r.lookup.insert q.key i.toUInt64 with ⟨e | old, lookup⟩
    · cases KeyTable.insert_error hi
      obtain ⟨d, hd, -⟩ := h.exists_free List.mem_cons_self
      obtain ⟨slots', hrelease, hs', hget', hcapacity'⟩ := releaseSlot_eq (r := { r with slots })
        hs (List.nodup_cons.mp h.stack.nodup).1 (hcapacity ▸ SlotPool.lt_of_get? hd)
      dsimp only
      rw [hrelease]
      intro _ _
      exact unchanged_of_record?_eq (fun j => (hget' j).trans (hget j)) (fun _ => rfl) h.stack hs'
        (hcapacity'.trans hcapacity) rfl
    · obtain ⟨rfl, hp, hl⟩ := h.probing.insert hi
      have hv := h.get_eq_null hn
      dsimp only
      rw [if_pos hv]
      exact Taken.harmless_start
        { agree := h
          placeholders := rfl
          stack := hs
          record?_eq := hget
          probing := hp
          get_eq := fun other => by rw [hl, hv]; simp
          get_eq_null := hv } ht hcapacity rfl

theorem Agrees.harmless_make (h : r.Agrees) (ht : r.Tidy) (q : MakeRequest P) :
    Harmless r (r.make q) := by
  unfold make
  split
  · exact harmless_self
  split
  · exact harmless_self
  · cases hi : r.inUse? q.key with
    | some used =>
      obtain ⟨i, d⟩ := used
      exact harmless_remake r i d q
    | none =>
      obtain ⟨free, h⟩ := h
      exact h.harmless_makeNew ht hi

/--
The record of an entry is marked as one to be unmade, and the payload that waits is dropped, though
its slot does not wait to be unmade.
-/
structure Strands (r r' : Registry P H) (e : Entry) (d : EntryRecord P H) : Prop
    extends Alike r r' where
  found : r.find? e = some d
  replaces : Replaces r.slots r'.slots e.index d.condemned
  unflagged : d.queuedUnmake = false

theorem unmake_full_iff : (r.unmake e).answer = .error .full ↔
    ∃ d, r.find? e = some d ∧ d.state ≠ some .placeholder ∧ d.state ≠ some .unmaking ∧
      d.queuedUnmake = false ∧ (r.unmakes.push e.index).answer = false := by
  have hpush : ((r.modifyRecord e.index EntryRecord.condemned).enqueueUnmake e.index).answer =
      (r.unmakes.push e.index).answer := answer_enqueueUnmake ..
  unfold unmake
  cases hf : r.find? e with
  | none => simp
  | some d =>
    simp only [Option.some.injEq, exists_eq_left', hpush]
    split
    · next hs => simp [hs]
    split
    · next hs => simp [hs]
    split
    · next hq => simp [hq]
    split
    · next ha => simp [ha]
    · next hp hu hq ha => simp [hp, hu, hq, ha]

theorem unmake_refused (he : (r.unmake e).answer = .error error) (hne : error ≠ .full) :
    r.unmake e = .quiet (.error error) r := by
  revert he
  unfold unmake
  cases hf : r.find? e with
  | none =>
    intro he
    cases he
    rfl
  | some d =>
    dsimp only
    split
    · intro he
      cases he
      rfl
    split
    · nofun
    split
    · nofun
    split
    · nofun
    · intro he
      cases he
      exact absurd rfl hne

theorem strands_of_full (he : (r.unmake e).answer = .error .full) :
    ∃ d, Strands r (r.unmake e).state e d := by
  obtain ⟨d, hf, hp, hu, hq, ha⟩ := unmake_full_iff.mp he
  have hanswer : ¬((r.modifyRecord e.index EntryRecord.condemned).enqueueUnmake
      e.index).answer = true := by
    rw [answer_enqueueUnmake]
    exact Bool.not_eq_true _ ▸ ha
  have hstate : (r.unmake e).state =
      { r.modifyRecord e.index EntryRecord.condemned with
        unmakes := (r.unmakes.push e.index).state } := by
    unfold unmake
    simp only [hf, if_neg hp, if_neg hu, hq, Bool.false_eq_true, if_false, if_neg hanswer]
    exact enqueueUnmake_refused hanswer
  have hd := (inUse_of_find? hf).1
  have hreplaces := replaces_modifyRecord (r := r) hd EntryRecord.condemned
  rw [hstate]
  refine ⟨d, ⟨⟨get_congr (fun j => ?_) fun _ => rfl, ?_, rfl⟩, hf, hreplaces, hq⟩⟩
  · rw [record?, hreplaces j]
    split
    · next hij =>
      subst hij
      rw [record?, hd]
      rfl
    · rfl
  · rw [len, len, modifyRecord, SlotPool.capacity_modify, SlotPool.available_modify]

/-- A stranded entry is answered as if it waited, so that asking again does not help it. -/
theorem Strands.unmake_again (h : Strands r r' e d) : r'.unmake e = .quiet (.ok ()) r' := by
  obtain ⟨hd, hs⟩ := Option.filter_eq_some_iff.mp h.found
  have hf : r'.find? e = some d.condemned := by
    rw [find?, record?, h.replaces.get?_self, Option.filter_some]
    exact if_pos (Bool.and_eq_true_iff.mpr ⟨(Bool.and_eq_true_iff.mp hs).1, rfl⟩)
  have hp : d.condemned.state ≠ some .placeholder := by
    intro hp
    cases hp
  have hu : d.condemned.state = some .unmaking := rfl
  rw [unmake, hf]
  dsimp only
  rw [if_neg hp, if_pos hu]

/--
At every moment of every run, and whatever the queues hold then, a request to make an entry that is
refused changes nothing: no record, no answer of `get`, not the number of entries and not that of
pending requests. The same holds of a request to unmake an entry unless the queue has no room for
it. This happens to the entries in use that are no placeholders, not yet to be unmade and not
flagged; the entry is then stranded, and asking again is answered as if it waited.
-/
theorem Run.refused_changes_nothing (h : Run life events m) (makes unmakes : Queue UInt32) :
    let r := { m.registry with makes, unmakes }
    (∀ q, Harmless r (r.make q)) ∧
    (∀ e error, (r.unmake e).answer = .error error → error ≠ .full →
      Unchanged r (r.unmake e).state) ∧
    ∀ e, ((r.unmake e).answer = .error .full ↔
        ∃ d, r.find? e = some d ∧ d.state ≠ some .placeholder ∧ d.state ≠ some .unmaking ∧
          d.queuedUnmake = false ∧ (unmakes.push e.index).answer = false) ∧
      ((r.unmake e).answer = .error .full →
        (∃ d, Strands r (r.unmake e).state e d) ∧
          (r.unmake e).state.unmake e = .quiet (.ok ()) (r.unmake e).state) := by
  intro r
  have ha : r.Agrees := h.agrees.of_kept ⟨rfl, rfl, rfl⟩
  refine ⟨ha.harmless_make h.tidy, fun e error he hne => ?_, fun e => ⟨unmake_full_iff, ?_⟩⟩
  · rw [unmake_refused he hne]
    exact .refl r
  · intro he
    obtain ⟨d, hd⟩ := strands_of_full he
    exact ⟨⟨d, hd⟩, hd.unmake_again⟩

def stuffed (q : Queue UInt32) (i : UInt32) : Nat → Queue UInt32
  | 0 => q
  | count + 1 => ((stuffed q i count).push i).state

theorem Run.refused_changes_nothing_stuffed :
    let r := { smallRegistry with makes := stuffed smallRegistry.makes 3 5 }
    (r.make fiveRequest).answer = .error .full ∧ Unchanged r (r.make fiveRequest).state := by
  obtain ⟨hmake, -⟩ := Run.refused_changes_nothing (Run.start create_smallRegistry)
    (stuffed smallRegistry.makes 3 5) smallRegistry.unmakes
  have hfull : (({ smallRegistry with makes := stuffed smallRegistry.makes 3 5 }).make
      fiveRequest).answer = .error .full := by
    decide +kernel
  exact ⟨hfull, hmake fiveRequest _ hfull⟩

/--
An entry waits to be made from a payload, and the queue for unmakes has no room. A request to unmake
the entry is refused, but the entry is to be unmade then and its payload lost.
-/
theorem exists_unmake_refused_changes : ∃ events, ∃ m : Moment Unit String String,
    Run curiousLife events m ∧
      let r := { m.registry with unmakes := stuffed m.registry.unmakes 3 5 }
      (r.unmake ⟨3, 0⟩).answer = .error .full ∧
        r.state ⟨3, 0⟩ = some .making ∧
        (r.unmake ⟨3, 0⟩).state.state ⟨3, 0⟩ = some .unmaking ∧
        (r.find? ⟨3, 0⟩).bind EntryRecord.pending = some "payload" ∧
        ((r.unmake ⟨3, 0⟩).state.find? ⟨3, 0⟩).bind EntryRecord.pending = none ∧
        ¬Unchanged r (r.unmake ⟨3, 0⟩).state := by
  have h := (Run.start create_smallRegistry).step (.ask (.make fiveRequest) (.inl rfl))
  refine ⟨_, _, h, by decide +kernel, by decide +kernel, by decide +kernel, by decide +kernel,
    by decide +kernel, fun hsame => ?_⟩
  have hstate := congrArg (Option.bind · EntryRecord.state) (hsame.record?_eq 3)
  revert hstate
  decide +kernel

end MemoryKit.Registry
