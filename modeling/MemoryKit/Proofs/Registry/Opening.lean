import MemoryKit.Proofs.Registry.Agreement
import MemoryKit.Proofs.Registry.Requests
import MemoryKit.Registry.Flusher

/-! # The registry that is created

The placeholders take the first slots of a new registry, each under the key of its name. These keys
differ, so that the lookup and the records agree when the registry is handed over.
-/

namespace MemoryKit.Registry.Flusher

variable {σ P H : Type} {life : Lifetime σ P H} {o o' : Opening P H} {r : Registry P H}

def Opening.fixed (o : Opening P H) : List UInt32 := o.created.map fun p => p.1.index

/-- The lookup and the placeholders created so far agree, and there is room for the names. -/
structure Opening.Awaits (o : Opening P H) (names : List String) : Prop where
  agree : ∃ free, Agree o.slots o.lookup o.fixed free ∧ names.length ≤ free.length
  room : o.lookup.claimed + names.length ≤ o.lookup.slotCount
  new : ∀ name ∈ names, o.lookup.get (keyOfName name) = nullValue
  nodup : (names.map keyOfName).Nodup

structure Opening.Adds (o o' : Opening P H) (name : String) (handle : H) (i : UInt32)
    (d : EntryRecord P H) : Prop where
  record : o.slots.get? i = some d
  state_eq : d.state = none
  replaces : Replaces o.slots o'.slots i
    { d with key := keyOfName name, name, state := some .placeholder, handle := some handle }
  capacity_le : o.slots.capacity ≤ maxPoolCapacity
  capacity_eq : o'.slots.capacity = o.slots.capacity
  created_eq : o'.created = (⟨i, 0⟩, handle) :: o.created
  insert_eq : o.lookup.insert (keyOfName name) i.toUInt64 = (.ok nullValue, o'.lookup)

theorem agree_empty {slots : SlotPool (EntryRecord P H)} {total : Nat} (bits : Nat)
    (h : SlotPool.create total (fun _ => {}) = .ok slots) :
    Agree slots (.empty bits) [] ((List.range total).map .ofNat) := by
  have hs := SlotPool.hasStack_create h
  have hget : ∀ {i d}, slots.get? i = some d → d.state = none ∧ i.toNat < total := by
    intro i d hd
    rw [SlotPool.get?, SlotPool.slot?_create h] at hd
    split at hd
    · next hi =>
      cases hd
      exact ⟨rfl, hi⟩
    · cases hd
  refine ⟨hs, KeyTable.isProbing_empty bits, ?_, ?_, ?_, List.nodup_nil, ?_⟩
  · intro i d hd
    obtain ⟨hstate, hi⟩ := hget hd
    exact iff_of_true (List.mem_map.mpr ⟨i.toNat, List.mem_range.mpr hi, by simp⟩) hstate
  · intro i d hu
    exact absurd (hget hu.1).1 hu.2
  · intro key hv
    exact absurd (KeyTable.get_empty bits key) hv
  · intro i
    refine iff_of_false List.not_mem_nil ?_
    rintro ⟨d, hd, hp⟩
    rw [(hget hd).1] at hp
    cases hp

theorem Opening.Awaits.add {name : String} {names : List String} (h : o.Awaits (name :: names))
    (handle : H) :
    ∃ o', o.add name handle = .ok o' ∧ o'.Awaits names ∧ ∃ i d, o.Adds o' name handle i d := by
  obtain ⟨⟨free, ha, hfree⟩, hroom, hnew, hnodup⟩ := h
  obtain ⟨hname, hnodup⟩ := List.nodup_cons.mp hnodup
  rw [List.length_cons] at hfree hroom
  cases free with
  | nil => cases hfree
  | cons i free =>
    obtain ⟨slots, he, hs, hget, hcapacity⟩ := SlotPool.allocate_cons ha.stack
    obtain ⟨d, hd, hstate⟩ := ha.exists_free List.mem_cons_self
    obtain ⟨lookup, hi, hclaimed, hcount⟩ :=
      ha.probing.insert_of_room (keyOfName_ne_nullKey name) (by omega) i.toUInt64
    obtain ⟨-, hp, hl⟩ := ha.probing.insert hi
    have hnull := hnew name List.mem_cons_self
    simp only [hnull, and_true] at hl
    let record (d : EntryRecord P H) : EntryRecord P H :=
      { d with key := keyOfName name, name, state := some .placeholder, handle := some handle }
    have hreplaces : Replaces o.slots (slots.modify i record) i (record d) := fun j => by
      rw [SlotPool.get?_modify, hget, hget, hd]
      rfl
    refine ⟨⟨slots.modify i record, lookup, (⟨i, 0⟩, handle) :: o.created⟩, ?_, ?_, i, d, ?_⟩
    · rw [Opening.add, he]
      dsimp only
      rw [hi]
    · refine ⟨⟨free, ?_, Nat.le_of_succ_le_succ hfree⟩, ?_, ?_, hnodup⟩
      · exact ha.begin_use (d := record d) (hs.modify i record) hreplaces
          (rfl : (record d).state = some .placeholder) hp hl hnull
      · change lookup.claimed + names.length ≤ lookup.slotCount
        omega
      · intro other ho
        have hne : keyOfName other ≠ keyOfName name := fun he =>
          hname (List.mem_map.mpr ⟨other, ho, he⟩)
        rw [hl, if_neg hne, hnew other (List.mem_cons_of_mem _ ho)]
    · exact ⟨hd, hstate, hreplaces, ha.stack.capacity_le,
        (SlotPool.capacity_modify ..).trans hcapacity, rfl, hnull ▸ hi⟩

/--
The placeholders are added one after the other, so that what holds of each opening and the names
still to come, if every addition keeps it, holds in the end.
-/
theorem Opening.Awaits.openAll {motive : Opening P H → List String → Prop}
    (hadd : ∀ o o' name names handle i d, o.Adds o' name handle i d → motive o (name :: names) →
      motive o' names)
    (named : List (String × P)) {s : σ} (h : o.Awaits (named.map Prod.fst))
    (ho : (Flusher.openAll life s o named).answer = .ok o') (hm : motive o (named.map Prod.fst)) :
    o'.Awaits [] ∧ motive o' [] := by
  induction named generalizing s o with
  | nil =>
    cases ho
    exact ⟨h, hm⟩
  | cons p named ih =>
    obtain ⟨name, payload⟩ := p
    rw [Flusher.openAll] at ho
    rcases hr : (life.create s payload name).runAlone with ⟨⟨reason | handle, s'⟩, log⟩
    all_goals
      rw [hr] at ho
      dsimp only at ho
    · cases ho
    · obtain ⟨o₁, ha, h₁, i, d, hadds⟩ := h.add handle
      rw [ha] at ho
      exact ih h₁ ho (hadd o o₁ name _ handle i d hadds hm)

theorem nodup_keys : (Placeholders.names.toList.map keyOfName).Nodup := by decide +kernel

theorem three_le_slotCount (capacity : Nat) :
    3 ≤ (KeyTable.empty (KeyTable.bitsFor capacity)).slotCount := by
  have hbits : 3 ≤ KeyTable.bitsFor capacity := by
    unfold KeyTable.bitsFor
    split
    · exact Nat.le_refl 3
    · exact Nat.le_max_left ..
  rw [KeyTable.slotCount_eq, Nat.one_shiftLeft]
  exact Nat.le_trans hbits (Nat.le_of_lt Nat.lt_two_pow_self)

def totalSlots (config : RegistryConfig) : Nat := config.capacity + Placeholders.count

theorem awaits_of_foundations {config : RegistryConfig} {slots : SlotPool (EntryRecord P H)}
    {lookup : KeyTable} {requests : Queue UInt32}
    (h : foundations config = .ok (slots, lookup, requests)) :
    Opening.Awaits ⟨slots, lookup, []⟩ Placeholders.names.toList ∧
      SlotPool.create (totalSlots config) (fun _ => {}) = .ok slots ∧
        Queue.create (totalSlots config) = .ok requests ∧
          lookup = .empty (KeyTable.bitsFor (totalSlots config)) := by
  unfold foundations at h
  split at h
  · cases h
  · next total htotal =>
    obtain rfl : totalSlots config = total := by
      unfold checkedAdd at htotal
      split at htotal <;> cases htotal
      rfl
    split at h
    · cases h
    · next hslots =>
      split at h
      · cases h
      · next hlookup =>
        unfold KeyTable.withCapacity at hlookup
        split at hlookup
        · cases hlookup
        · cases hlookup
          cases hq : (Queue.create (totalSlots config) : Except ConfigError (Queue UInt32)) with
          | error e =>
            rw [hq] at h
            cases h
          | ok q =>
            rw [hq] at h
            cases h
            refine ⟨⟨⟨_, agree_empty _ hslots, ?_⟩, ?_, fun _ _ => KeyTable.get_empty ..,
              nodup_keys⟩, hslots, rfl, rfl⟩
            · rw [List.length_map, List.length_range]
              exact Nat.le_add_left ..
            · rw [KeyTable.claimed_empty, Nat.zero_add]
              exact three_le_slotCount _

theorem exists_of_create {motive : Opening P H → Prop}
    (hadd : ∀ o o' name handle i d, o.Adds o' name handle i d → motive o → motive o')
    {config : RegistryConfig} {s : σ} {payloads : Placeholders P}
    (h : (create life config s payloads).answer = .ok r)
    (hm : ∀ slots, SlotPool.create (totalSlots config) (fun _ => {}) = .ok slots →
      Queue.create (totalSlots config) = .ok r.makes →
        motive ⟨slots, .empty (KeyTable.bitsFor (totalSlots config)), []⟩) :
    Queue.create (totalSlots config) = .ok r.makes ∧ r.unmakes = r.makes ∧ r.pending = 0 ∧
      r.config = config ∧ Opening.Awaits ⟨r.slots, r.lookup, r.placeholders.toList.reverse⟩ [] ∧
      motive ⟨r.slots, r.lookup, r.placeholders.toList.reverse⟩ := by
  unfold create at h
  split at h
  · cases h
  · next slots lookup requests hf =>
    obtain ⟨h₀, hslots, hq, rfl⟩ := awaits_of_foundations hf
    dsimp only at h
    split at h
    · cases h
    · next ho =>
      cases h
      obtain ⟨h, hm⟩ := Opening.Awaits.openAll (motive := fun o _ => motive o)
        (fun o o' name _ => hadd o o' name) payloads.named h₀ ho (hm slots hslots hq)
      exact ⟨hq, rfl, rfl, rfl, h, hm⟩
    · cases h

theorem agrees_of_create {config : RegistryConfig} {s : σ} {payloads : Placeholders P}
    (h : (create life config s payloads).answer = .ok r) : r.Agrees := by
  obtain ⟨-, -, -, -, ⟨⟨free, h, -⟩, -⟩, -⟩ := exists_of_create (motive := fun _ => True)
    (fun _ _ _ _ _ _ _ _ => trivial) h fun _ _ _ => trivial
  exact ⟨free, h.perm_fixed (List.reverse_perm _).symm⟩

end MemoryKit.Registry.Flusher
