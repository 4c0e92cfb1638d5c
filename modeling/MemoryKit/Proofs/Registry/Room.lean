import MemoryKit.Proofs.KeyTable.Tombstones
import MemoryKit.Proofs.Registry.Pending

/-! # Room for new keys

A new key needs a free slot and a place in the lookup, which earlier keys have filled with
tombstones. The lookup has more than twice as many places as there are slots and is rebuilt after a
flush, so that it has room for every free slot unless the flush that is going on has removed too
many keys already.
-/

namespace MemoryKit.Registry

variable {σ P H : Type} {life : Lifetime σ P H} {events : List (Event P H)}
  {m m' : Moment σ P H} {f : Flusher σ P H} {r r' r'' : Registry P H} {i : UInt32}
  {d : EntryRecord P H} {c : Option UInt32} {q : MakeRequest P} {free : List UInt32}
  {slots : SlotPool (EntryRecord P H)} {lookup : KeyTable} {fixed : List UInt32}
  {key value : UInt64}

theorem Agree.exists_of_mem_entries (h : Agree slots lookup fixed free)
    (he : (key, value) ∈ lookup.entries) :
    ∃ i d, value = i.toUInt64 ∧ InUse slots i d ∧ d.key = key := by
  obtain ⟨hv, rfl⟩ := h.probing.mem_entries.mp he
  exact h.exists_inUse hv

theorem Agree.size_add_length_le (h : Agree slots lookup fixed free) :
    lookup.size + free.length ≤ slots.capacity := by
  have hslots : ((lookup.entries.map fun e => e.2.toUInt32) ++ free).Nodup := by
    refine List.nodup_append'.mpr ⟨?_, h.stack.nodup, fun i hi hfree => ?_⟩
    · refine List.Nodup.map_on ?_ (List.Nodup.of_map _ h.probing.nodup_entries)
      rintro ⟨key, value⟩ he ⟨key', value'⟩ he' hsame
      obtain ⟨i, d, rfl, hu, rfl⟩ := h.exists_of_mem_entries he
      obtain ⟨i', d', rfl, hu', rfl⟩ := h.exists_of_mem_entries he'
      simp only [toUInt32_toUInt64] at hsame
      subst hsame
      cases hu.1.symm.trans hu'.1
      rfl
    · obtain ⟨⟨key, value⟩, he, rfl⟩ := List.mem_map.mp hi
      obtain ⟨i, d, rfl, hu, -⟩ := h.exists_of_mem_entries he
      rw [toUInt32_toUInt64] at hfree
      exact h.not_mem_free hu hfree
  have hlt : ∀ i ∈ (lookup.entries.map fun e => e.2.toUInt32) ++ free,
      i.toNat < slots.capacity := by
    intro i hi
    rcases List.mem_append.mp hi with hi | hi
    · obtain ⟨⟨key, value⟩, he, rfl⟩ := List.mem_map.mp hi
      obtain ⟨i, d, rfl, hu, -⟩ := h.exists_of_mem_entries he
      rw [toUInt32_toUInt64]
      exact SlotPool.lt_of_get? hu.1
    · obtain ⟨d, hd, -⟩ := h.exists_free hi
      exact SlotPool.lt_of_get? hd
  have hle := SlotPool.length_le_of_lt hslots hlt
  rwa [List.length_append, List.length_map] at hle

/-- While a slot is free, only tombstones can take all places of the lookup. -/
theorem Agree.capacity_lt_tombstones (h : Agree slots lookup fixed free) (hfree : free ≠ [])
    (hslots : 2 * slots.capacity ≤ lookup.slotCount) (hk : key ≠ nullKey)
    (hl : lookup.locate key = none) : lookup.capacity < lookup.tombstones := by
  have hsize := h.size_add_length_le
  have hfull := h.probing.size_add_tombstones hk hl
  have hpos := List.length_pos_iff.mpr hfree
  unfold KeyTable.capacity
  omega

/-- No place of the lookup is lost to a tombstone. -/
structure Spares (r r' : Registry P H) : Prop where
  capacity_eq : r'.slots.capacity = r.slots.capacity
  slotCount_eq : r'.lookup.slotCount = r.lookup.slotCount
  config_eq : r'.config = r.config
  tombstones_le : r'.lookup.tombstones ≤ r.lookup.tombstones

namespace Spares

theorem of_lookup_eq (hs : r'.slots.capacity = r.slots.capacity) (hl : r'.lookup = r.lookup)
    (hc : r'.config = r.config) : Spares r r' :=
  ⟨hs, by rw [hl], hc, by rw [hl]⟩

theorem refl (r : Registry P H) : Spares r r := .of_lookup_eq rfl rfl rfl

theorem trans (h : Spares r r') (h' : Spares r' r'') : Spares r r'' :=
  ⟨h'.capacity_eq.trans h.capacity_eq, h'.slotCount_eq.trans h.slotCount_eq,
    h'.config_eq.trans h.config_eq, Nat.le_trans h'.tombstones_le h.tombstones_le⟩

theorem modifyRecord (r : Registry P H) (i : UInt32) (f : EntryRecord P H → EntryRecord P H) :
    Spares r (r.modifyRecord i f) := .of_lookup_eq (SlotPool.capacity_modify ..) rfl rfl

theorem enqueueMake (r : Registry P H) (i : UInt32) : Spares r (r.enqueueMake i).state := by
  unfold Registry.enqueueMake
  dsimp only
  split <;> exact .of_lookup_eq rfl rfl rfl

theorem enqueueUnmake (r : Registry P H) (i : UInt32) : Spares r (r.enqueueUnmake i).state := by
  unfold Registry.enqueueUnmake
  dsimp only
  split <;> exact .of_lookup_eq rfl rfl rfl

theorem dequeueMake (r : Registry P H) : Spares r r.dequeueMake.state := .of_lookup_eq rfl rfl rfl

theorem dequeueUnmake (r : Registry P H) : Spares r r.dequeueUnmake.state :=
  .of_lookup_eq rfl rfl rfl

theorem releaseSlot (r : Registry P H) (i : UInt32) : Spares r (r.releaseSlot i).state := by
  rw [releaseSlot_state]
  exact .of_lookup_eq (SlotPool.capacity_deallocate ..) rfl rfl

theorem of_takeRequest {taken : Option (P × String)} (ht : r.takeRequest i = (taken, r')) :
    Spares r r' := by
  unfold Registry.takeRequest at ht
  split at ht
  · cases ht
    exact .refl r
  split at ht <;> cases ht <;> exact .modifyRecord ..

theorem of_giveUp_none (hg : r.giveUp i = (none, r')) : Spares r r' := by
  unfold giveUp at hg
  split at hg
  · cases hg
    exact .refl r
  split at hg
  · cases hg
  · cases hg
    exact .modifyRecord ..

theorem remake (r : Registry P H) (i : UInt32) (d : EntryRecord P H) (q : MakeRequest P) :
    Spares r (r.remake i d q).state := by
  unfold Registry.remake
  dsimp only
  split
  · exact .refl r
  split
  · exact .modifyRecord ..
  split
  · exact (enqueueMake r i).trans (.modifyRecord ..)
  · exact enqueueMake r i

theorem unmake (r : Registry P H) (e : Entry) : Spares r (r.unmake e).state := by
  unfold Registry.unmake
  split
  · exact .refl r
  split
  · exact .refl r
  split
  · exact .refl r
  dsimp only
  have hcondemned : Spares r (r.modifyRecord e.index EntryRecord.condemned) := .modifyRecord ..
  split
  · exact hcondemned
  split
  · exact (hcondemned.trans (enqueueUnmake ..)).trans (.modifyRecord ..)
  · exact hcondemned.trans (enqueueUnmake ..)

end Spares

namespace Orderly

variable (h : Orderly r c)

include h

theorem start_spec (hd : r.record? i = some d) (hs : d.state = none) (q : MakeRequest P) :
    Spares r (r.start i q).state ∧ ∃ e, (r.start i q).answer = .ok e := by
  obtain ⟨-, hm, -⟩ := (h.sound i d hd).vacant hs
  obtain ⟨ha, hlog, -⟩ := h.makes.push hd hm
  unfold start
  simp only [enqueueMake_of_push (r := r.modifyRecord i (·.started q)) ha hlog,
    Outcome.quiet_answer, if_true]
  refine ⟨.of_lookup_eq ?_ rfl rfl, _, rfl⟩
  exact (SlotPool.capacity_modify ..).trans (SlotPool.capacity_modify ..)

theorem makeNew_spec (ha : Agree r.slots r.lookup r.fixed free) (hk : q.key ≠ nullKey)
    (hn : r.inUse? q.key = none) : Spares r (r.makeNew q).state ∧
      ((r.makeNew q).answer = .error .full ↔ free = [] ∨ r.lookup.locate q.key = none) := by
  unfold makeNew
  cases free with
  | nil =>
    rw [SlotPool.allocate_nil ha.stack]
    exact ⟨.refl r, iff_of_true rfl (Or.inl rfl)⟩
  | cons i free =>
    obtain ⟨slots, he, -, hget, hcapacity⟩ := SlotPool.allocate_cons ha.stack
    obtain ⟨d, hd, hstate⟩ := ha.exists_free List.mem_cons_self
    rw [he]
    dsimp only
    cases hl : r.lookup.locate q.key with
    | none =>
      have hi : r.lookup.insert q.key i.toUInt64 = (.error .full, r.lookup) := by
        simp only [KeyTable.insert, KeyTable.positionFor, if_neg hk, hl]
      rw [hi]
      dsimp only
      have htaken : Spares r { r with slots } := .of_lookup_eq hcapacity rfl rfl
      exact ⟨htaken.trans (.releaseSlot ..), iff_of_true rfl (Or.inr rfl)⟩
    | some j =>
      obtain ⟨old, lookup, hi⟩ : ∃ old lookup,
          r.lookup.insert q.key i.toUInt64 = (.ok old, lookup) := by
        simp only [KeyTable.insert, KeyTable.positionFor, if_neg hk, hl]
        exact ⟨_, _, rfl⟩
      obtain ⟨rfl, -, -⟩ := ha.probing.insert hi
      have hcount := (ha.probing.insert_spec q.key i.toUInt64).2.2.1
      have htaken := h.resembles_of_get? lookup hget hcapacity
      obtain ⟨hspares, e, hok⟩ := (h.congr htaken).start_spec ((hget i).trans hd) hstate q
      rw [hi] at hcount ⊢
      dsimp only
      rw [if_pos (ha.get_eq_null hn), hok]
      have htaken : Spares r { r with slots, lookup } :=
        ⟨hcapacity, hcount, rfl, ha.probing.tombstones_insert_le hi (toUInt64_ne_nullValue i)⟩
      exact ⟨htaken.trans hspares, by simp⟩

theorem spares_make (ha : r.Agrees) (q : MakeRequest P) : Spares r (r.make q).state := by
  unfold make
  split
  · exact .refl r
  next hk =>
  split
  · exact .refl r
  cases hi : r.inUse? q.key with
  | some used => exact .remake ..
  | none =>
    obtain ⟨free, ha⟩ := ha
    exact (h.makeNew_spec ha hk hi).1

theorem spares_serve (ha : r.Agrees) (q : Request P) : Spares r (r.serve q).state := by
  cases q with
  | make q => exact h.spares_make ha q
  | unmake e => exact .unmake r e
  | _ => exact .refl r

end Orderly

def Task.IsFlush : Task → Prop
  | .flush _ => True
  | .close _ => False

def Callback.IsOfFlush : Callback → Prop
  | .create .. => True
  | .destroy task => task.IsFlush

def Activity.IsFlushing : Activity σ P H → Prop
  | .working task => task.IsFlush
  | .inside callback _ => callback.IsOfFlush
  | .idle | .gone => False

@[simp] theorem Moment.flusher_destroying (f : Flusher σ P H) (task : Task) (handle : Option H) :
    (Moment.destroying life f task handle).flusher = f := by
  cases handle <;> rfl

theorem Moment.isFlushing_destroying (f : Flusher σ P H) (task : Task) (handle : Option H) :
    (Moment.destroying life f task handle).activity.IsFlushing ↔ task.IsFlush := by
  cases handle <;> rfl

/--
There are places for twice as many keys as there are slots, the keys that were removed since the
lookup was rebuilt are as many as its tombstones, and only a flush removes more of them than the
lookup is meant for.
-/
structure Roomy (m : Moment σ P H) : Prop where
  slots_le : 2 * m.registry.slots.capacity ≤ m.registry.lookup.slotCount
  capacity_eq : m.registry.slots.capacity = m.registry.config.capacity + Placeholders.count
  tombstones_le : m.registry.lookup.tombstones ≤ m.flusher.removed
  removed_le : ¬m.activity.IsFlushing → m.flusher.removed ≤ m.registry.lookup.capacity

theorem Roomy.of_spares (h : Roomy m) (hs : Spares m.registry m'.registry)
    (hr : m'.flusher.removed = m.flusher.removed)
    (ha : m.activity.IsFlushing → m'.activity.IsFlushing) : Roomy m' where
  slots_le := by
    rw [hs.capacity_eq, hs.slotCount_eq]
    exact h.slots_le
  capacity_eq := by
    rw [hs.capacity_eq, hs.config_eq]
    exact h.capacity_eq
  tombstones_le := hr ▸ Nat.le_trans hs.tombstones_le h.tombstones_le
  removed_le hn := by
    rw [hr, KeyTable.capacity, hs.slotCount_eq]
    exact h.removed_le fun hf => hn (ha hf)

theorem Agrees.tombstones_giveUp_le {handle : Option H} (h : r.Agrees)
    (hg : r.giveUp i = (some handle, r')) : r'.slots.capacity = r.slots.capacity ∧
      r'.lookup.slotCount = r.lookup.slotCount ∧ r'.config = r.config ∧
        r'.lookup.tombstones ≤ r.lookup.tombstones + 1 := by
  obtain ⟨free, h⟩ := h
  unfold giveUp at hg
  split at hg
  · cases hg
  split at hg
  · cases hg
    exact ⟨SlotPool.capacity_modify .., (h.probing.remove_spec _).2.1, rfl,
      h.probing.tombstones_remove_le _⟩
  · cases hg

theorem Roomy.unmake {left : Nat} {handle : Option H}
    (h : Roomy (⟨f, .working (.flush (left + 1))⟩ : Moment σ P H)) (ha : r.Agrees)
    (hs : Spares f.registry r) (hg : r.giveUp i = (some handle, r')) :
    Roomy (.destroying life
      { f with registry := (r'.releaseSlot i).state, removed := f.removed + 1 } (.flush left)
      handle) := by
  obtain ⟨hcapacity, hcount, hconfig, htombstones⟩ := ha.tombstones_giveUp_le hg
  have hreleased := Spares.releaseSlot r' i
  have hflushing : (Moment.destroying life
      { f with registry := (r'.releaseSlot i).state, removed := f.removed + 1 } (.flush left)
      handle).activity.IsFlushing := (Moment.isFlushing_destroying _ _ _).mpr trivial
  refine ⟨?_, ?_, ?_, absurd hflushing⟩
  all_goals simp only [Moment.registry_destroying, Moment.flusher_destroying]
  · rw [hreleased.capacity_eq, hreleased.slotCount_eq, hcapacity, hcount, hs.capacity_eq,
      hs.slotCount_eq]
    exact h.slots_le
  · rw [hreleased.capacity_eq, hreleased.config_eq, hcapacity, hconfig, hs.capacity_eq,
      hs.config_eq]
    exact h.capacity_eq
  · have hle := h.tombstones_le
    have hle' := hs.tombstones_le
    have hle'' := hreleased.tombstones_le
    simp only [Moment.registry_mk] at hle
    omega

theorem Roomy.finish (h : Roomy (⟨f, .working (.flush 0)⟩ : Moment σ P H))
    (ha : f.registry.Agrees) : Roomy (⟨f.compactIfDue.state, .idle⟩ : Moment σ P H) := by
  unfold Flusher.compactIfDue
  split
  · obtain ⟨free, ha⟩ := ha
    have hstate : f.registry.compact.state.lookup =
        (KeyTable.empty f.registry.lookup.bits).insertAll f.registry.lookup.entries :=
      keepAll_state ..
    have hcount : f.registry.compact.state.lookup.slotCount = f.registry.lookup.slotCount :=
      hstate ▸ ha.probing.insertAll_entries.2.2.2
    refine ⟨?_, h.capacity_eq, ?_, fun _ => Nat.zero_le _⟩
    · exact hcount ▸ h.slots_le
    · exact Nat.le_of_eq (hstate ▸ ha.probing.tombstones_rebuilt)
  · next hdue => exact ⟨h.slots_le, h.capacity_eq, h.tombstones_le, fun _ => Nat.not_lt.mp hdue⟩

theorem Step.roomy (hs : Step life m events m') (ha : m.registry.Agrees)
    (ho : Orderly m.registry m.activity.creating?) (h : Roomy m) : Roomy m' := by
  cases hs with
  | ask q _ => exact h.of_spares (ho.spares_serve ha q) rfl id
  | askInside => exact h.of_spares (ho.spares_serve ha _) rfl id
  | flush => exact h.of_spares (.refl _) rfl fun _ => trivial
  | skipMake _ ht | make _ ht =>
    exact h.of_spares ((Spares.dequeueMake _).trans (.of_takeRequest ht)) rfl id
  | skipUnmake _ _ hg =>
    exact h.of_spares
      (((Spares.dequeueMake _).trans (.dequeueUnmake _)).trans (.of_giveUp_none hg)) rfl id
  | @unmake f _ _ _ _ _ _ hg =>
    have hs := (Spares.dequeueMake f.registry).trans (.dequeueUnmake _)
    exact h.unmake ((ha.of_kept (kept_dequeueMake _)).of_kept (kept_dequeueUnmake _)) hs hg
  | @exhaust f =>
    exact h.of_spares ((Spares.dequeueMake f.registry).trans (.dequeueUnmake _)) rfl id
  | finish => exact h.finish ha
  | succeed =>
    refine h.of_spares ?_ ?_ fun _ => (Moment.isFlushing_destroying _ (.flush _) _).mpr trivial
    · rw [Moment.registry_destroying]
      exact .modifyRecord ..
    · rw [Moment.flusher_destroying]
  | fail => exact h.of_spares (.modifyRecord ..) rfl id
  | close => exact h.of_spares (.of_lookup_eq rfl rfl rfl) rfl False.elim
  | closeSlot =>
    refine h.of_spares ?_ ?_ fun hf => hf.elim
    · rw [Moment.registry_destroying]
      exact .modifyRecord ..
    · rw [Moment.flusher_destroying]
  | note | resume | skipSlot | vanish => exact h.of_spares (.refl _) rfl id

theorem le_two_pow_bitsFor (capacity : Nat) : 2 * capacity ≤ 1 <<< KeyTable.bitsFor capacity := by
  unfold KeyTable.bitsFor
  rw [Nat.one_shiftLeft]
  split
  · omega
  · have hlt : 2 * capacity - 1 < 2 ^ ((2 * capacity - 1).log2 + 1) := Nat.lt_log2_self
    have hle : 2 ^ ((2 * capacity - 1).log2 + 1) ≤ 2 ^ max 3 ((2 * capacity - 1).log2 + 1) :=
      Nat.pow_le_pow_right (by decide) (Nat.le_max_right ..)
    omega

theorem roomy_of_create {config : RegistryConfig} {s s' : σ} {payloads : Placeholders P}
    (h : (Flusher.create life config s payloads).answer = .ok r) :
    Roomy (⟨⟨r, s', 0⟩, .idle⟩ : Moment σ P H) := by
  obtain ⟨-, -, -, hconfig, -, -, hcapacity, hcount, hnone⟩ := Flusher.exists_of_create
    (motive := fun o => o.lookup.IsProbing ∧ o.slots.capacity = Flusher.totalSlots config ∧
      o.lookup.slotCount = 1 <<< KeyTable.bitsFor (Flusher.totalSlots config) ∧
        o.lookup.tombstones = 0)
    (fun o o' name handle i d ha ⟨hp, hcapacity, hcount, hnone⟩ => by
      obtain ⟨-, hp', -⟩ := hp.insert ha.insert_eq
      have hspec := (hp.insert_spec (keyOfName name) i.toUInt64).2.2.1
      have hle := hp.tombstones_insert_le ha.insert_eq (toUInt64_ne_nullValue i)
      rw [ha.insert_eq] at hspec
      exact ⟨hp', ha.capacity_eq.trans hcapacity, hspec.trans hcount, by omega⟩)
    h fun slots hslots _ => ⟨KeyTable.isProbing_empty _, (SlotPool.le_of_create hslots).2,
      KeyTable.slotCount_eq _, KeyTable.tombstones_empty _⟩
  refine ⟨?_, ?_, Nat.le_of_eq hnone, fun _ => Nat.zero_le _⟩
  · simp only [Moment.registry_mk, hcapacity, hcount]
    exact le_two_pow_bitsFor _
  · simp only [Moment.registry_mk, hcapacity, hconfig]
    rfl

theorem Run.roomy (h : Run life events m) : Roomy m := by
  induction h with
  | start h => exact roomy_of_create h
  | step h hs ih => exact hs.roomy h.agrees h.orderly ih

theorem Roomy.len_add_length (h : Roomy m)
    (ha : Agree m.registry.slots m.registry.lookup m.registry.fixed free) :
    m.registry.len + free.length = m.registry.config.capacity := by
  have hlen : m.registry.len = usedCount m.registry.slots := Agrees.len_eq ⟨free, ha⟩
  have hcount := ha.capacity_eq
  have hcapacity := h.capacity_eq
  have hfixed : m.registry.fixed.length = Placeholders.count := rfl
  omega

theorem Agrees.inUse?_eq_none (h : r.Agrees) (hg : r.get key = none) : r.inUse? key = none := by
  cases hi : r.inUse? key with
  | none => rfl
  | some used =>
    obtain ⟨hu, hk⟩ := inUse_of_inUse? hi
    exact absurd hk (h.get_eq_none_iff.mp hg _ _ hu)

/--
At every moment of every run, a new key is turned away as if the registry were full exactly if every
entry is in use or the lookup has no place for the key. While an entry is free, the lookup lacks a
place only within a flush that has removed more keys than the lookup is meant for.
-/
theorem Run.make_full_iff (h : Run life events m) (hk : q.key ≠ nullKey)
    (ho : m.registry.closed = false) (hn : m.registry.get q.key = none) :
    ((m.registry.make q).answer = .error .full ↔
      m.registry.len = m.registry.config.capacity ∨ m.registry.lookup.locate q.key = none) ∧
    (m.registry.len < m.registry.config.capacity → m.registry.lookup.locate q.key = none →
      m.activity.IsFlushing ∧ m.registry.lookup.capacity < m.flusher.removed) := by
  have hroomy := h.roomy
  have hi := h.agrees.inUse?_eq_none hn
  obtain ⟨free, ha⟩ := h.agrees
  have hlen := hroomy.len_add_length ha
  constructor
  · have hfree : m.registry.len = m.registry.config.capacity ↔ free = [] := by
      rw [← List.length_eq_zero_iff]
      omega
    have hmake : m.registry.make q = m.registry.makeNew q := by
      rw [make, if_neg hk, ho, if_neg Bool.false_ne_true, hi]
    rw [hfree, hmake]
    exact (h.orderly.makeNew_spec ha hk hi).2
  · intro hlt hl
    have hfree : free ≠ [] := List.ne_nil_of_length_pos (by omega)
    have htombstones := ha.capacity_lt_tombstones hfree hroomy.slots_le hk hl
    have hremoved := hroomy.tombstones_le
    have hover : m.registry.lookup.capacity < m.flusher.removed := by omega
    refine ⟨by_contra fun hf => ?_, hover⟩
    have hle := hroomy.removed_le hf
    omega

theorem Run.make_full_iff_smallRegistry :
    (smallRegistry.make fiveRequest).answer ≠ .error .full := by
  obtain ⟨hiff, hflushing⟩ := Run.make_full_iff (q := fiveRequest) (Run.start create_smallRegistry)
    (by decide) (by decide +kernel) (by decide +kernel)
  have hlt : smallRegistry.len < smallRegistry.config.capacity := by decide +kernel
  intro hfull
  rcases hiff.mp hfull with he | hl
  · exact Nat.ne_of_lt hlt he
  · exact (hflushing hlt hl).1

def sixRequest : MakeRequest String := ⟨6, "six", "payload", none, false⟩

/-- Code that takes the payload for the handle and asks for a key once the last one is destroyed. -/
def eagerLife : Lifetime Unit String String where
  create _ payload _ := .done (.ok payload, ())
  destroy _ handle :=
    if handle = "last" then .ask (.make sixRequest) fun _ => .done () else .done ()

def tinyRegistry : Registry String String :=
  (Flusher.create eagerLife { capacity := 1 } ()
    ⟨"missing", "failed", "making"⟩).answer.toOption.get (by decide +kernel)

theorem create_tinyRegistry :
    (Flusher.create eagerLife { capacity := 1 } () ⟨"missing", "failed", "making"⟩).answer =
      .ok tinyRegistry := eq_ok_of_isSome _ _

def Flusher.spend (f : Flusher Unit String String) (key : UInt64) (generation : UInt32) :
    Flusher Unit String String :=
  (((f.serve (.make ⟨key, "key", "payload", none, false⟩)).serve
    (.unmake ⟨3, generation⟩)).flush eagerLife 2).state

theorem Run.spend {f : Flusher Unit String String} {events : List (Event String String)}
    (h : Run eagerLife events ⟨f, .idle⟩) (key : UInt64) (generation : UInt32) :
    ∃ events', Run eagerLife events' ⟨f.spend key generation, .idle⟩ := by
  obtain ⟨events', h⟩ := ((h.step (.ask _ (.inl rfl))).step (.ask _ (.inl rfl))).flush 2
  exact ⟨_, h⟩

/-- Four keys left tombstones, and the entry of a fifth one was made and is to be unmade. -/
def spentFlusher : Flusher Unit String String :=
  let f : Flusher Unit String String := ⟨tinyRegistry, (), 0⟩
  let f := (((f.spend 1 0).spend 2 1).spend 3 2).spend 4 3
  ((f.serve (.make ⟨5, "five", "last", none, false⟩)).flush eagerLife 1).state.serve
    (.unmake ⟨3, 4⟩)

theorem exists_run_spentFlusher : ∃ events, Run eagerLife events ⟨spentFlusher, .idle⟩ := by
  obtain ⟨_, h⟩ := (Run.start create_tinyRegistry).spend 1 0
  obtain ⟨_, h⟩ := h.spend 2 1
  obtain ⟨_, h⟩ := h.spend 3 2
  obtain ⟨_, h⟩ := h.spend 4 3
  obtain ⟨_, h⟩ := (h.step (.ask (.make ⟨5, "five", "last", none, false⟩) (.inl rfl))).flush 1
  exact ⟨_, h.step (.ask (.unmake ⟨3, 4⟩) (.inl rfl))⟩

def spentRegistry : Registry String String :=
  ((spentFlusher.registry.dequeueMake.state.dequeueUnmake.state.giveUp 3).2.releaseSlot 3).state

theorem exists_run_spentRegistry : ∃ events, ∃ m : Moment Unit String String,
    Run eagerLife events m ∧ m.activity.IsFlushing ∧ m.registry = spentRegistry := by
  obtain ⟨_, h⟩ := exists_run_spentFlusher
  have hm : spentFlusher.registry.dequeueMake.answer = none := by decide +kernel
  have hd : spentFlusher.registry.dequeueMake.state.dequeueUnmake.answer = some 3 := by
    decide +kernel
  have hg : (spentFlusher.registry.dequeueMake.state.dequeueUnmake.state.giveUp 3).1 =
      some (some "last") := by
    decide +kernel
  unfold spentRegistry
  rcases hgiven : spentFlusher.registry.dequeueMake.state.dequeueUnmake.state.giveUp 3 with
    ⟨given, r⟩
  rw [hgiven] at hg
  obtain rfl : given = some (some "last") := hg
  exact ⟨_, _, (h.step (.flush 1)).step (.unmake hm hd hgiven),
    (Moment.isFlushing_destroying _ (.flush 0) _).mpr trivial, Moment.registry_destroying ..⟩

/--
When the handle of the only entry is destroyed, the entry is free, but a new key is turned away: its
tombstone took the last place of the lookup.
-/
theorem exists_make_full_while_free : ∃ events, ∃ m : Moment Unit String String,
    Run eagerLife events m ∧ m.activity.IsFlushing ∧ sixRequest.key ≠ nullKey ∧
      m.registry.closed = false ∧ m.registry.get sixRequest.key = none ∧
        m.registry.len < m.registry.config.capacity ∧
          (m.registry.make sixRequest).answer = .error .full := by
  obtain ⟨events, m, h, hflushing, hm⟩ := exists_run_spentRegistry
  refine ⟨events, m, h, hflushing, by decide, ?_⟩
  rw [hm]
  decide +kernel

end MemoryKit.Registry
