import MemoryKit.Proofs.Registry.Asking
import MemoryKit.Proofs.Registry.Flushing
import MemoryKit.Proofs.Registry.Lookup

/-! # What a flusher changes

A flusher takes a slot out of a queue together with the flag of its record. The payload of a slot
leaves before its handle is created, and what requests do to the record meanwhile decides whether
the slot still waits afterwards. Nothing waits to be made when a slot is given up.
-/

namespace MemoryKit.Registry

variable {σ P H : Type} {life : Lifetime σ P H} {events : List (Event P H)}
  {m m' : Moment σ P H} {r r' : Registry P H} {i : UInt32} {d d' : EntryRecord P H}
  {c : Option UInt32}

theorem releaseSlot_state (r : Registry P H) (i : UInt32) :
    (r.releaseSlot i).state = { r with slots := (r.slots.deallocate i).2 } := by
  unfold releaseSlot
  rcases r.slots.deallocate i with ⟨- | -, slots⟩ <;> rfl

theorem Revised.releaseSlot (h : Revised r r' i d d') (j : UInt32) :
    Revised r (r'.releaseSlot j).state i d d' := by
  rw [releaseSlot_state]
  refine { h with replaces := fun k => ?_, capacity_eq := ?_ }
  · exact (SlotPool.get?_deallocate ..).trans (h.replaces k)
  · exact (SlotPool.capacity_deallocate ..).trans h.capacity_eq

namespace Orderly

section

variable (h : Orderly r c)

include h

theorem resembles_dequeueMake (ha : r.dequeueMake.answer = none) :
    Resembles r r.dequeueMake.state ∧ r.makes.toList = [] := by
  have ha : r.makes.tryPop.answer = none := ha
  obtain ⟨hsame, hempty⟩ := sameWaiting_of_tryPop h.makes.wellFormed ha
  refine ⟨⟨fun _ => rfl, rfl, hsame, h.unmakes.sameWaiting, ?_⟩, hempty⟩
  simp only [dequeueMake, ha, Option.isSome_none, Bool.false_eq_true, if_false]

theorem resembles_dequeueUnmake (ha : r.dequeueUnmake.answer = none) :
    Resembles r r.dequeueUnmake.state ∧ r.unmakes.toList = [] := by
  have ha : r.unmakes.tryPop.answer = none := ha
  obtain ⟨hsame, hempty⟩ := sameWaiting_of_tryPop h.unmakes.wellFormed ha
  refine ⟨⟨fun _ => rfl, rfl, h.makes.sameWaiting, hsame, ?_⟩, hempty⟩
  simp only [dequeueUnmake, ha, Option.isSome_none, Bool.false_eq_true, if_false]

theorem revised_dequeueMake (ha : r.dequeueMake.answer = some i) :
    ∃ d, r.record? i = some d ∧ d.queuedMake = true ∧
      ∀ f : EntryRecord P H → EntryRecord P H, (f d).queuedMake = false →
        (f d).queuedUnmake = d.queuedUnmake →
        Revised r (r.dequeueMake.state.modifyRecord i f) i d (f d) := by
  have ha : r.makes.tryPop.answer = some i := ha
  obtain ⟨d, hd, hf, hq⟩ := h.makes.pop ha
  have hpending : r.dequeueMake.state.pending + 1 = r.pending := by
    have hsum := h.pending_eq
    have hlength := hq.length_eq
    simp only [Bool.toNat_true, Bool.toNat_false] at hlength
    simp only [dequeueMake, ha, Option.isSome_some, if_true]
    omega
  refine ⟨d, hd, hf, fun f hm hu => ⟨hd, ?_, SlotPool.capacity_modify .., ?_,
    h.unmakes.sameWaiting.requeued hu, ?_⟩⟩
  · exact replaces_modifyRecord (r := r.dequeueMake.state) hd f
  · rwa [hf, hm]
  · change r.dequeueMake.state.pending + _ = _
    rw [hf, hm, hu, Bool.toNat_true, Bool.toNat_false]
    omega

theorem revised_dequeueUnmake (ha : r.dequeueUnmake.answer = some i) :
    ∃ d, r.record? i = some d ∧ d.queuedUnmake = true ∧
      ∀ (f : EntryRecord P H → EntryRecord P H) (lookup : KeyTable),
        (f d).queuedUnmake = false → (f d).queuedMake = d.queuedMake →
        Revised r ({ r.dequeueUnmake.state with lookup }.modifyRecord i f) i d (f d) := by
  have ha : r.unmakes.tryPop.answer = some i := ha
  obtain ⟨d, hd, hf, hq⟩ := h.unmakes.pop ha
  have hpending : r.dequeueUnmake.state.pending + 1 = r.pending := by
    have hsum := h.pending_eq
    have hlength := hq.length_eq
    simp only [Bool.toNat_true, Bool.toNat_false] at hlength
    simp only [dequeueUnmake, ha, Option.isSome_some, if_true]
    omega
  refine ⟨d, hd, hf, fun f lookup hu hm => ⟨hd, ?_, SlotPool.capacity_modify ..,
    h.makes.sameWaiting.requeued hm, ?_, ?_⟩⟩
  · exact replaces_modifyRecord (r := { r.dequeueUnmake.state with lookup }) hd f
  · rwa [hf, hu]
  · change r.dequeueUnmake.state.pending + _ = _
    rw [hf, hu, hm, Bool.toNat_true, Bool.toNat_false]
    omega

end

theorem takeRequest_cases (h : Orderly r none) (ha : r.dequeueMake.answer = some i)
    {taken : Option (P × String)} (ht : r.dequeueMake.state.takeRequest i = (taken, r')) :
    ∃ d, d.queuedMake = true ∧
      (taken = none ∧ d.state ≠ some .making ∧ Revised r r' i d { d with queuedMake := false } ∨
      ∃ payload, taken = some (payload, d.name) ∧ d.state = some .making ∧
        d.pending = some payload ∧
        Revised r r' i d { d with queuedMake := false, pending := none }) := by
  obtain ⟨d, hd, hf, hr⟩ := h.revised_dequeueMake ha
  have hd' : r.dequeueMake.state.record? i = some d := hd
  unfold takeRequest at ht
  simp only [hd'] at ht
  split at ht
  · next hs =>
    obtain ⟨rfl, rfl⟩ := Prod.mk.inj ht
    obtain ⟨hpending, -⟩ := (h.sound i d hd).pending_of_making hs nofun
    obtain ⟨payload, hpayload⟩ := Option.isSome_iff_exists.mp hpending
    refine ⟨d, hf, Or.inr ⟨payload, by rw [hpayload]; rfl, hs, hpayload, ?_⟩⟩
    exact hr ({ · with queuedMake := false, pending := none }) rfl rfl
  · next hs =>
    obtain ⟨rfl, rfl⟩ := Prod.mk.inj ht
    exact ⟨d, hf, Or.inl ⟨rfl, hs, hr ({ · with queuedMake := false }) rfl rfl⟩⟩

theorem giveUp_cases (h : Orderly r c) (hm : r.dequeueMake.answer = none)
    (ha : r.dequeueMake.state.dequeueUnmake.answer = some i) {given : Option (Option H)}
    (hg : r.dequeueMake.state.dequeueUnmake.state.giveUp i = (given, r')) :
    ∃ d, d.queuedUnmake = true ∧ d.queuedMake = false ∧
      (given = none ∧ d.state ≠ some .unmaking ∧
        Revised r r' i d { d with queuedUnmake := false } ∨
      given = some d.handle ∧ d.state = some .unmaking ∧
        Revised r r' i d { d.vacated with generation := d.generation + 1 }) := by
  obtain ⟨hsame, hempty⟩ := h.resembles_dequeueMake hm
  obtain ⟨d, hd, hf, hr⟩ := (h.congr hsame).revised_dequeueUnmake ha
  have hd' : r.dequeueMake.state.dequeueUnmake.state.record? i = some d := hd
  have hmake := h.makes.flag_of_nil hempty hd
  refine ⟨d, hf, hmake, ?_⟩
  unfold giveUp at hg
  simp only [hd'] at hg
  split at hg
  · next hs =>
    obtain ⟨rfl, rfl⟩ := Prod.mk.inj hg
    exact Or.inr ⟨rfl, hs, hsame.revised
      (hr (fun d => { d.vacated with generation := d.generation + 1 }) _ rfl hmake.symm)⟩
  · next hs =>
    obtain ⟨rfl, rfl⟩ := Prod.mk.inj hg
    exact Or.inl ⟨rfl, hs, hsame.revised
      (hr ({ · with queuedUnmake := false }) r.lookup rfl rfl)⟩

theorem pending_takeRequest (h : Orderly r none) (ha : r.dequeueMake.answer = some i)
    {taken : Option (P × String)} (ht : r.dequeueMake.state.takeRequest i = (taken, r')) :
    r'.pending + 1 = r.pending := by
  obtain ⟨d, hf, ⟨-, -, hr⟩ | ⟨payload, -, -, -, hr⟩⟩ := h.takeRequest_cases ha ht
  all_goals
    have hpending := hr.pending_eq
    simp only [hf, Bool.toNat_true, Bool.toNat_false] at hpending
    omega

theorem pending_giveUp (h : Orderly r c) (hm : r.dequeueMake.answer = none)
    (ha : r.dequeueMake.state.dequeueUnmake.answer = some i) {given : Option (Option H)}
    (hg : r.dequeueMake.state.dequeueUnmake.state.giveUp i = (given, r')) :
    r'.pending + 1 = r.pending := by
  obtain ⟨d, hf, hmake, ⟨-, -, hr⟩ | ⟨-, -, hr⟩⟩ := h.giveUp_cases hm ha hg
  all_goals
    have hpending := hr.pending_eq
    simp only [hf, hmake, EntryRecord.vacated, Bool.toNat_true, Bool.toNat_false] at hpending
    omega

end Orderly

def Callback.creating? : Callback → Option UInt32
  | .create i .. => some i
  | .destroy _ => none

def Activity.creating? : Activity σ P H → Option UInt32
  | .inside c _ => c.creating?
  | .idle | .working _ | .gone => none

@[simp] theorem Moment.creating?_destroying (f : Flusher σ P H) (task : Task) (handle : Option H) :
    (Moment.destroying life f task handle).activity.creating? = none := by
  cases handle <;> rfl

theorem Flusher.resembles_compactIfDue {f : Flusher σ P H} (h : Orderly f.registry c) :
    Resembles f.registry f.compactIfDue.state.registry := by
  unfold compactIfDue
  split
  · exact ⟨fun _ => rfl, rfl, h.makes.sameWaiting, h.unmakes.sameWaiting, rfl⟩
  · exact h.resembles_self

theorem Step.orderly (hs : Step life m events m') (ha : m.registry.Agrees)
    (h : Orderly m.registry m.activity.creating?) :
    Orderly m'.registry m'.activity.creating? := by
  cases hs with
  | ask q _ => exact h.of_effect (h.serves ha q).2
  | askInside => exact h.of_effect (h.serves ha _).2
  | skipMake hd ht =>
    obtain ⟨d, -, ⟨-, hstate, hr⟩ | ⟨payload, he, -⟩⟩ := h.takeRequest_cases hd ht
    · have hsound := h.sound _ d hr.record
      refine h.revise hr ⟨fun hn => ?_, fun hm => absurd hm hstate, hsound.unmaking⟩
        (fun _ _ => Iff.rfl) nofun
      obtain ⟨hhandle, -, hu⟩ := hsound.vacant hn
      exact ⟨hhandle, rfl, hu⟩
    · cases he
  | @make f left i _ _ r hd ht =>
    obtain ⟨d, -, ⟨he, -⟩ | ⟨payload, -, hstate, -, hr⟩⟩ := h.takeRequest_cases hd ht
    · cases he
    · have hs : d.state ≠ none := by simp [hstate]
      have hsound := h.sound _ d hr.record
      refine h.revise hr ⟨fun hn => absurd hn hs, fun _ => Or.inr ⟨rfl, rfl⟩, hsound.unmaking⟩
        (fun j hij => ?_) fun _ => hs
      exact iff_of_false (fun hj => hij (Option.some.inj hj)) nofun
  | skipUnmake hm hd hg =>
    obtain ⟨d, -, hmake, ⟨-, hstate, hr⟩ | ⟨he, -⟩⟩ := h.giveUp_cases hm hd hg
    · have hsound := h.sound _ d hr.record
      refine h.revise hr ⟨fun hn => ?_, hsound.making, fun hu => absurd hu hstate⟩
        (fun _ _ => Iff.rfl) nofun
      exact ⟨(hsound.vacant hn).1, hmake, rfl⟩
    · cases he
  | unmake hm hd hg =>
    rw [Moment.registry_destroying, Moment.creating?_destroying]
    obtain ⟨d, -, -, ⟨he, -⟩ | ⟨-, -, hr⟩⟩ := h.giveUp_cases hm hd hg
    · cases he
    · exact h.revise (hr.releaseSlot _) ⟨fun _ => ⟨rfl, rfl, rfl⟩, nofun, nofun⟩
        (fun _ _ => Iff.rfl) nofun
  | exhaust hm hd =>
    have h' := h.congr (h.resembles_dequeueMake hm).1
    exact h'.congr (h'.resembles_dequeueUnmake hd).1
  | finish => exact h.congr (Flusher.resembles_compactIfDue h)
  | @succeed f i _ _ handle =>
    rw [Moment.registry_destroying, Moment.creating?_destroying]
    obtain ⟨d, hd, hs⟩ := h.inUse i rfl
    have hr := h.revised_modifyRecord (f := (·.succeeded handle)) hd rfl rfl
    refine h.revise hr ((h.sound i d hd).succeeded hs handle) (fun j hij => ?_) nofun
    exact iff_of_false nofun fun hj => hij (Option.some.inj hj)
  | @fail f i =>
    obtain ⟨d, hd, hs⟩ := h.inUse i rfl
    have hr := h.revised_modifyRecord (f := EntryRecord.defeated) hd rfl rfl
    refine h.revise hr ((h.sound i d hd).defeated hs) (fun j hij => ?_) nofun
    exact iff_of_false nofun fun hj => hij (Option.some.inj hj)
  | close => exact h.congr ⟨fun _ => rfl, rfl, h.makes.sameWaiting, h.unmakes.sameWaiting, rfl⟩
  | @closeSlot f i _ handle hh =>
    rw [Moment.registry_destroying, Moment.creating?_destroying]
    obtain ⟨d, hd, -⟩ := Option.bind_eq_some_iff.mp hh
    have hsound := h.sound i d hd
    have hr := h.revised_modifyRecord (f := ({ · with handle := none })) hd rfl rfl
    refine h.revise hr ⟨fun hn => ?_, hsound.making, hsound.unmaking⟩ (fun _ _ => Iff.rfl) nofun
    exact ⟨rfl, (hsound.vacant hn).2⟩
  | flush | note | resume | skipSlot | vanish => exact h

end MemoryKit.Registry
