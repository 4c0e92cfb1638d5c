import MemoryKit.Proofs.Registry.Founding
import MemoryKit.Proofs.Registry.Pending

/-! # Handles that are created and destroyed

Every handle that was created is held by a record in use or was destroyed. A record gives its handle
away when another one replaces it, when its entry is unmade, and when the flusher goes away.
-/

namespace MemoryKit.Registry

open scoped List

variable {σ P H : Type} {life : Lifetime σ P H} {events events' : List (Event P H)}
  {m m' : Moment σ P H} {f : Flusher σ P H} {r r' : Registry P H} {i : UInt32}
  {d d' : EntryRecord P H} {c : Option UInt32}

def created (events : List (Event P H)) : List H :=
  events.filterMap fun
    | .created _ (.ok handle) => some handle
    | .created _ (.error _) | .asked .. | .destroyed _ => none

/-- The handles that were handed over to be destroyed, in order. -/
def destroyed (events : List (Event P H)) : List H :=
  events.filterMap fun
    | .destroyed handle => some handle
    | .created .. | .asked .. => none

theorem created_append (events events' : List (Event P H)) :
    created (events ++ events') = created events ++ created events' := List.filterMap_append

theorem destroyed_append (events events' : List (Event P H)) :
    destroyed (events ++ events') = destroyed events ++ destroyed events' := List.filterMap_append

theorem destroyed_destroyedAny (handle : Option H) :
    destroyed (Event.destroyedAny (P := P) handle) = handle.toList := by
  cases handle <;> rfl

theorem created_destroyedAny (handle : Option H) :
    created (Event.destroyedAny (P := P) handle) = [] := by
  cases handle <;> rfl

/-- What is created and held before is what is destroyed and held after. -/
def Balanced (events : List (Event P H)) (slots slots' : SlotPool (EntryRecord P H)) : Prop :=
  created events ++ handles slots ~ destroyed events ++ handles slots'

theorem balanced_of_eq {slots slots' : SlotPool (EntryRecord P H)}
    (h : handles slots' = handles slots) : Balanced [] slots slots' := .of_eq h.symm

theorem Revised.balanced (hr : Revised r r' i d d') (ha : r.Agrees)
    (hp : created events ++ d.handle.toList ~ destroyed events ++ d'.handle.toList) :
    Balanced events r.slots r'.slots := by
  obtain ⟨free, ha⟩ := ha
  obtain ⟨rest, hrest, hrest'⟩ :=
    hr.replaces.exists_rest hr.record ha.stack.capacity_le hr.capacity_eq
  calc created events ++ handles r.slots
      ~ created events ++ (d.handle.toList ++ rest) := hrest.append_left _
    _ = created events ++ d.handle.toList ++ rest := (List.append_assoc ..).symm
    _ ~ destroyed events ++ d'.handle.toList ++ rest := hp.append_right rest
    _ = destroyed events ++ (d'.handle.toList ++ rest) := List.append_assoc ..
    _ ~ destroyed events ++ handles r'.slots := hrest'.symm.append_left _

theorem Resembles.handles_eq (hr : Resembles r r') (ha : r.Agrees) :
    handles r'.slots = handles r.slots := by
  obtain ⟨free, ha⟩ := ha
  exact handles_congr ha.stack.capacity_le hr.capacity_eq fun j => congrArg _ (hr.record?_eq j)

theorem Revised.map_handle (hr : Revised r r' i d d') (hh : d'.handle = d.handle) (j : UInt32) :
    (r'.record? j).map EntryRecord.handle = (r.record? j).map EntryRecord.handle := by
  rw [record?, hr.replaces j]
  split
  · next hij => rw [← hij, hr.record, Option.map_some, Option.map_some, hh]
  · rfl

theorem Orderly.handle_of_effect (h : Orderly r c) (he : Effect r r') (j : UInt32) :
    (r'.record? j).map EntryRecord.handle = (r.record? j).map EntryRecord.handle := by
  cases he with
  | none hr => exact congrArg _ (hr.record?_eq j)
  | again i d q hs hr => exact hr.map_handle rfl j
  | new i d q hs hr => exact hr.map_handle ((h.sound i d hr.record).vacant hs).1.symm j
  | condemn i d hs hr => exact hr.map_handle rfl j

/-- While the flusher goes away, the handles left are those of the slots it has not come to. -/
def Task.MayHold : Task → UInt32 → Prop
  | .flush _, _ => True
  | .close slots, i => i ∈ slots

def Callback.MayHold : Callback → UInt32 → Prop
  | .create .., _ => True
  | .destroy task, i => task.MayHold i

def Activity.MayHold : Activity σ P H → UInt32 → Prop
  | .idle, _ => True
  | .working task, i => task.MayHold i
  | .inside callback _, i => callback.MayHold i
  | .gone, _ => False

def Swept (r : Registry P H) (mayHold : UInt32 → Prop) : Prop :=
  ∀ i d, r.record? i = some d → d.handle.isSome = true → mayHold i

theorem mayHold_destroying (f : Flusher σ P H) (task : Task) (handle : Option H) :
    (Moment.destroying life f task handle).activity.MayHold = task.MayHold := by
  cases handle <;> rfl

theorem Swept.congr {mayHold : UInt32 → Prop} (h : Swept r mayHold)
    (hh : ∀ j, (r'.record? j).map EntryRecord.handle = (r.record? j).map EntryRecord.handle) :
    Swept r' mayHold := fun j d' hd' hs => by
  have hj := hh j
  rw [hd', Option.map_some, eq_comm, Option.map_eq_some_iff] at hj
  obtain ⟨d, hd, he⟩ := hj
  exact h j d hd (he ▸ hs)

theorem Step.swept (hs : Step life m events m') (ha : m.registry.Agrees)
    (ho : Orderly m.registry m.activity.creating?) (h : Swept m.registry m.activity.MayHold) :
    Swept m'.registry m'.activity.MayHold := by
  cases hs with
  | ask q _ => exact h.congr (ho.handle_of_effect (ho.serves ha q).2)
  | askInside => exact h.congr (ho.handle_of_effect (ho.serves ha _).2)
  | unmake | succeed =>
    rw [mayHold_destroying]
    exact fun _ _ _ _ => trivial
  | @close f =>
    intro i d hd _
    have hlt : i.toNat < f.registry.slots.capacity := SlotPool.lt_of_get? hd
    exact List.mem_map.mpr ⟨i.toNat, List.mem_range.mpr hlt, UInt32.ofNat_toNat⟩
  | @skipSlot f i rest hh =>
    intro j d hd hs
    refine (List.mem_cons.mp (h j d hd hs)).resolve_left ?_
    rintro rfl
    rw [show f.registry.record? j = some d from hd, Option.bind_some] at hh
    rw [hh] at hs
    cases hs
  | @closeSlot f i rest handle hh =>
    obtain ⟨d, hd, -⟩ := Option.bind_eq_some_iff.mp hh
    have hr := replaces_modifyRecord (r := f.registry) hd ({ · with handle := none })
    rw [mayHold_destroying, Moment.registry_destroying]
    intro j d' hd' hs
    obtain ⟨-, rfl⟩ | ⟨hij, hd'⟩ := hr.eq_or_ne hd'
    · cases hs
    · exact (List.mem_cons.mp (h j d' hd' hs)).resolve_left (Ne.symm hij)
  | vanish =>
    intro j d hd hs
    cases h j d hd hs
  | note | resume => exact h
  | _ => exact fun _ _ _ _ => trivial

theorem Orderly.balanced_serve (h : Orderly r c) (ha : r.Agrees) (q : Request P) :
    Balanced [.asked q (r.serve q).answer] r.slots (r.serve q).state.slots := by
  have he := (h.serves ha q).2
  have hcapacity : (r.serve q).state.slots.capacity = r.slots.capacity := by
    cases he with
    | none hr | again _ _ _ _ hr | new _ _ _ _ hr | condemn _ _ _ hr => exact hr.capacity_eq
  obtain ⟨free, ha⟩ := ha
  exact balanced_of_eq
    (handles_congr ha.stack.capacity_le hcapacity (h.handle_of_effect he))

theorem Step.balanced (hs : Step life m events m') (ha : m.registry.Agrees)
    (ho : Orderly m.registry m.activity.creating?) :
    Balanced events m.registry.slots m'.registry.slots := by
  cases hs with
  | ask q _ => exact ho.balanced_serve ha q
  | askInside => exact ho.balanced_serve ha _
  | skipMake hd ht =>
    obtain ⟨d, -, ⟨-, -, hr⟩ | ⟨payload, he, -⟩⟩ := ho.takeRequest_cases hd ht
    · exact hr.balanced ha .rfl
    · cases he
  | make hd ht =>
    obtain ⟨d, -, ⟨he, -⟩ | ⟨payload, -, -, -, hr⟩⟩ := ho.takeRequest_cases hd ht
    · cases he
    · exact hr.balanced ha .rfl
  | skipUnmake hm hd hg =>
    obtain ⟨d, -, -, ⟨-, -, hr⟩ | ⟨he, -⟩⟩ := ho.giveUp_cases hm hd hg
    · exact hr.balanced ha .rfl
    · cases he
  | unmake hm hd hg =>
    obtain ⟨d, -, -, ⟨he, -⟩ | ⟨he, -, hr⟩⟩ := ho.giveUp_cases hm hd hg
    · cases he
    · cases he
      rw [Moment.registry_destroying]
      refine (hr.releaseSlot _).balanced ha ?_
      rw [created_destroyedAny, destroyed_destroyedAny]
      exact .of_eq (List.append_nil _).symm
  | exhaust hm hd =>
    obtain ⟨hsame, -⟩ := ho.resembles_dequeueMake hm
    obtain ⟨hsame', -⟩ := (ho.congr hsame).resembles_dequeueUnmake hd
    exact balanced_of_eq ((hsame.trans hsame').handles_eq ha)
  | finish => exact balanced_of_eq ((Flusher.resembles_compactIfDue ho).handles_eq ha)
  | @succeed f i _ _ handle =>
    obtain ⟨d, hd, -⟩ := ho.inUse i rfl
    have hold : (f.registry.installHandle i handle).1 = d.handle := by
      rw [installHandle, record?, show f.registry.slots.get? i = some d from hd]
      rfl
    have hr := ho.revised_modifyRecord (f := (·.succeeded handle)) hd rfl rfl
    rw [Moment.registry_destroying, hold]
    refine hr.balanced ha ?_
    change handle :: created (Event.destroyedAny d.handle) ++ d.handle.toList ~
      destroyed (Event.destroyedAny d.handle) ++ [handle]
    rw [created_destroyedAny, destroyed_destroyedAny]
    exact (List.perm_append_singleton handle _).symm
  | @fail f i =>
    obtain ⟨d, hd, -⟩ := ho.inUse i rfl
    exact (ho.revised_modifyRecord (f := EntryRecord.defeated) hd rfl rfl).balanced ha .rfl
  | @closeSlot f i _ handle hh =>
    obtain ⟨d, hd, he⟩ := Option.bind_eq_some_iff.mp hh
    have hr := ho.revised_modifyRecord (f := ({ · with handle := none })) hd rfl rfl
    rw [Moment.registry_destroying]
    refine hr.balanced ha ?_
    rw [he]
    exact .rfl
  | flush | note | resume | close | skipSlot | vanish => exact balanced_of_eq rfl

theorem Run.swept (h : Run life events m) : Swept m.registry m.activity.MayHold := by
  induction h with
  | start h => exact fun _ _ _ _ => trivial
  | step h hs ih => exact hs.swept h.agrees h.orderly ih

theorem Run.balanced (h : Run life events m) :
    created events ~ destroyed events ++ handles m.registry.slots := by
  induction h with
  | start h => exact (Flusher.atRest_of_create h).2.symm
  | @step events events' m m' h hs ih =>
    have hstep := hs.balanced h.agrees h.orderly
    rw [created_append, destroyed_append]
    calc created events ++ created events'
        ~ destroyed events ++ handles m.registry.slots ++ created events' := ih.append_right _
      _ = destroyed events ++ (handles m.registry.slots ++ created events') := List.append_assoc ..
      _ ~ destroyed events ++ (destroyed events' ++ handles m'.registry.slots) :=
        (List.perm_append_comm.trans hstep).append_left _
      _ = destroyed events ++ destroyed events' ++ handles m'.registry.slots :=
        (List.append_assoc ..).symm

theorem Run.held_eq (h : Run life events m) :
    held m.registry.slots = handles m.registry.slots := by
  obtain ⟨free, ha⟩ := h.agrees
  exact held_eq_handles ha.stack.capacity_le fun i d hd hs => ((h.orderly.sound i d hd).vacant hs).1

theorem Run.held_eq_nil (h : Run life events m) (hg : m.activity = .gone) :
    held m.registry.slots = [] := by
  obtain ⟨free, ha⟩ := h.agrees
  rw [h.held_eq]
  apply handles_eq_nil ha.stack.capacity_le
  intro i d hd
  by_contra hs
  have hmay := h.swept i d hd (Option.isSome_iff_ne_none.mpr hs)
  rw [hg] at hmay
  exact hmay

end MemoryKit.Registry
