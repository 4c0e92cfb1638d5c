import MemoryKit.Proofs.Registry.Handles
import MemoryKit.Proofs.Registry.Opening
import MemoryKit.Proofs.Registry.Waiting

/-! # A new registry at rest

Nothing waits in a new registry, and the only handles in it are those of the placeholders.
-/

namespace MemoryKit.Registry.Flusher

variable {σ P H : Type} {life : Lifetime σ P H} {o o' : Opening P H} {r : Registry P H}

/-- Nothing has been asked for of the slots, and the placeholders hold the handles created. -/
structure Opening.AtRest (o : Opening P H) (capacity : Nat) : Prop where
  capacity_eq : o.slots.capacity = capacity
  sound : ∀ i d, o.slots.get? i = some d →
    d.IsSound False ∧ d.queuedMake = false ∧ d.queuedUnmake = false
  handles : (Registry.handles o.slots).Perm (o.created.map Prod.snd)

theorem Opening.AtRest.add {capacity : Nat} {name : String} {handle : H} {i : UInt32}
    {d : EntryRecord P H} (ha : o.Adds o' name handle i d) (h : o.AtRest capacity) :
    o'.AtRest capacity := by
  obtain ⟨hsound, hm, hu⟩ := h.sound i d ha.record
  refine ⟨ha.capacity_eq.trans h.capacity_eq, ?_, ?_⟩
  · intro j e he
    obtain ⟨rfl, rfl⟩ | ⟨-, he⟩ := ha.replaces.eq_or_ne he
    · exact ⟨⟨nofun, nofun, nofun⟩, hm, hu⟩
    · exact h.sound j e he
  · obtain ⟨rest, hrest, hrest'⟩ := ha.replaces.exists_rest ha.record ha.capacity_le ha.capacity_eq
    rw [(hsound.vacant ha.state_eq).1] at hrest
    rw [ha.created_eq]
    exact hrest'.trans ((hrest.symm.trans h.handles).cons handle)

theorem atRest_empty {slots : SlotPool (EntryRecord P H)} {total : Nat} (lookup : KeyTable)
    (h : SlotPool.create total (fun _ => {}) = .ok slots) :
    Opening.AtRest ⟨slots, lookup, []⟩ total := by
  have hget {i d} (hd : slots.get? i = some d) : d = {} := by
    rw [SlotPool.get?, SlotPool.slot?_create h] at hd
    split at hd
    · exact (Option.some.inj hd).symm
    · cases hd
  obtain ⟨hle, hcapacity⟩ := SlotPool.le_of_create h
  refine ⟨hcapacity, ?_, ?_⟩
  · intro i d hd
    rw [hget hd]
    refine ⟨⟨fun _ => ⟨rfl, rfl, rfl⟩, fun hm => ?_, fun hu => ?_⟩, rfl, rfl⟩
    · cases hm
    · cases hu
  · refine .of_eq (handles_eq_nil (hcapacity.symm ▸ hle) fun i d hd => ?_)
    rw [hget hd]

theorem atRest_of_create {config : RegistryConfig} {s : σ} {payloads : Placeholders P}
    (h : (create life config s payloads).answer = .ok r) :
    Orderly r none ∧ (handles r.slots).Perm (r.placeholders.toList.map Prod.snd) := by
  obtain ⟨hq, hunmakes, hpending, -, -, hrest⟩ := exists_of_create
    (motive := fun o => o.AtRest r.makes.capacity) (fun _ _ _ _ _ _ ha hm => hm.add ha)
    h fun slots hslots hq => by
      rw [(Queue.toList_create hq).2.1]
      exact atRest_empty _ hslots
  obtain ⟨hw, -, hl⟩ := Queue.toList_create hq
  have htracks (flag : EntryRecord P H → Bool)
      (hf : ∀ i d, r.slots.get? i = some d → flag d = false) : Tracks r.makes r.slots flag := by
    refine ⟨hw, hrest.capacity_eq.symm, hl ▸ List.nodup_nil, ?_⟩
    intro i
    rw [hl]
    refine iff_of_false List.not_mem_nil ?_
    rintro ⟨d, hd, ht⟩
    rw [hf i d hd] at ht
    cases ht
  refine ⟨⟨fun i d hd => ?_, nofun, htracks _ fun i d hd => (hrest.sound i d hd).2.1, ?_, ?_⟩, ?_⟩
  · exact (hrest.sound i d hd).1.mono False.elim
  · exact hunmakes ▸ htracks _ fun i d hd => (hrest.sound i d hd).2.2
  · rw [hpending, hunmakes, hl]
    rfl
  · refine hrest.handles.trans ?_
    rw [List.map_reverse]
    exact List.reverse_perm _

end MemoryKit.Registry.Flusher
