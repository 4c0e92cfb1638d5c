import MemoryKit.Proofs.Registry.Fixtures
import MemoryKit.Proofs.Registry.History

/-! # What becomes of a record

A step of a run gives up the slot of at most one record, and what it does to any other record is one
of a few turns. Requests and creations leave the placeholders alone, and only a flusher that goes
away takes a handle from a record without giving another.
-/

namespace MemoryKit.Registry

variable {σ P H : Type} {life : Lifetime σ P H} {events events' : List (Event P H)}
  {m m' : Moment σ P H} {r r' : Registry P H} {i : UInt32} {d d' : EntryRecord P H}
  {tries : List (Except String H)} {closed : Bool}

theorem isCounted_iff : d.isCounted = true ↔ d.state ≠ none ∧ d.state ≠ some .placeholder := by
  rw [EntryRecord.isCounted, Bool.and_eq_true, Option.isSome_iff_ne_none, bne_iff_ne]

theorem Agrees.isCounted_iff (ha : r.Agrees) (hu : InUse r.slots i d) :
    d.isCounted = true ↔ i ∉ r.fixed := by
  obtain ⟨free, ha⟩ := ha
  rw [Registry.isCounted_iff, ha.mem_fixed_iff i, and_iff_right hu.2, not_iff_not]
  constructor
  · exact fun hp => ⟨d, hu.1, hp⟩
  · rintro ⟨d', hd', hp⟩
    cases hu.1.symm.trans hd'
    exact hp

theorem Revised.isCounted (hr : Revised r r' i d d') (ha : r.Agrees) (ha' : r'.Agrees)
    (hf : r'.fixed = r.fixed) (hs : d.state ≠ none) (hs' : d'.isCounted = true) :
    d.isCounted = true := by
  have hu' : InUse r'.slots i d' := ⟨hr.replaces.get?_self, (Registry.isCounted_iff.mp hs').1⟩
  rw [ha.isCounted_iff ⟨hr.record, hs⟩, ← hf]
  exact (ha'.isCounted_iff hu').mp hs'

theorem Resembles.rel {R : EntryRecord P H → EntryRecord P H → Prop} (hr : Resembles r r')
    (h : ∀ d, R d d) : Option.Rel R (r.record? i) (r'.record? i) := by
  rw [hr.record?_eq i]
  cases r.record? i with
  | none => exact .none
  | some d => exact .some (h d)

theorem Revised.rel {R : EntryRecord P H → EntryRecord P H → Prop} {j : UInt32}
    (hr : Revised r r' j d d') (hself : j = i → R d d') (h : j ≠ i → ∀ d, R d d) :
    Option.Rel R (r.record? i) (r'.record? i) := by
  by_cases hij : j = i
  · subst hij
    rw [hr.record, show r'.record? j = some d' from hr.replaces.get?_self]
    exact .some (hself rfl)
  · rw [show r'.record? i = r.record? i from hr.replaces.get?_of_ne hij]
    cases r.record? i with
    | none => exact .none
    | some d => exact .some (h hij d)

theorem exists_of_rel_some {α β : Type} {R : α → β → Prop} {a : α} {y : Option β}
    (h : Option.Rel R (some a) y) : ∃ b, y = some b ∧ R a b := by
  cases h with
  | some h => exact ⟨_, rfl, h⟩

theorem exists_of_rel_some_right {α β : Type} {R : α → β → Prop} {x : Option α} {b : β}
    (h : Option.Rel R x (some b)) : ∃ a, x = some a ∧ R a b := by
  cases h with
  | some h => exact ⟨_, rfl, h⟩

def EntryRecord.IsAskedFor (d : EntryRecord P H) : Prop :=
  d.state = some .making ∨ d.state = some .unmaking

theorem EntryRecord.IsAskedFor.isCounted (h : d.IsAskedFor) : d.isCounted = true := by
  obtain hs | hs := h <;> exact isCounted_iff.mpr ⟨by simp [hs], by simp [hs]⟩

theorem Effect.isAskedFor (he : Effect r r') (hd : r.record? i = some d) (ha : d.IsAskedFor) :
    ∃ d', r'.record? i = some d' ∧ d'.IsAskedFor := by
  have hrel : Option.Rel (fun d d' => d.IsAskedFor → d'.IsAskedFor) (r.record? i)
      (r'.record? i) := by
    cases he with
    | none hr => exact hr.rel fun _ => id
    | again _ _ _ _ hr => exact hr.rel (fun _ _ => .inl rfl) fun _ _ => id
    | new _ _ _ hs hr =>
      exact hr.rel (fun _ ha => absurd hs (isCounted_iff.mp ha.isCounted).1) fun _ _ => id
    | condemn _ _ _ hr => exact hr.rel (fun _ _ => .inr rfl) fun _ _ => id
  rw [hd] at hrel
  obtain ⟨d', hd', hasked⟩ := exists_of_rel_some hrel
  exact ⟨d', hd', hasked ha⟩

theorem Run.isAskedFor_of_creating (h : Run life events m) :
    ∀ i, m.activity.creating? = some i → ∃ d, m.registry.record? i = some d ∧ d.IsAskedFor := by
  induction h with
  | start => exact nofun
  | step h hs ih =>
    have ho := h.orderly
    have ha := h.agrees
    intro i hi
    cases hs with
    | make hd ht =>
      cases hi
      obtain ⟨d, -, ⟨he, -⟩ | ⟨payload, -, hstate, -, hr⟩⟩ := ho.takeRequest_cases hd ht
      · cases he
      · exact ⟨_, hr.replaces.get?_self, .inl hstate⟩
    | ask q _ =>
      obtain ⟨d, hd, hasked⟩ := ih i hi
      exact (ho.serves ha q).2.isAskedFor hd hasked
    | askInside =>
      obtain ⟨d, hd, hasked⟩ := ih i hi
      exact (ho.serves ha _).2.isAskedFor hd hasked
    | note => exact ih i hi
    | unmake | succeed | closeSlot =>
      rw [Moment.creating?_destroying] at hi
      cases hi
    | _ => cases hi

/-- What a step does to the record of a slot in use or free, with the creations that it ends. -/
inductive EntryRecord.Turn (d : EntryRecord P H) (closed : Bool) :
    List (Except String H) → EntryRecord P H → Prop where
  /-- Only what waits for the slot changes. -/
  | waits (pending : Option P) (queuedMake queuedUnmake : Bool) :
    d.Turn closed [] { d with pending, queuedMake, queuedUnmake }
  | begins (q : MakeRequest P) (hs : d.state = none) :
    d.Turn closed [] { d.started q with queuedMake := true }
  | again (q : MakeRequest P) (hs : d.isCounted = true) : d.Turn closed [] (d.rename q)
  | condemned (hs : d.isCounted = true) :
    d.Turn closed [] { d.condemned with queuedUnmake := true }
  | succeeds (handle : H) (hs : d.IsAskedFor) : d.Turn closed [.ok handle] (d.succeeded handle)
  | fails (reason : String) (hs : d.IsAskedFor) : d.Turn closed [.error reason] d.defeated
  /-- The flusher goes away. -/
  | emptied (hc : closed = true) : d.Turn closed [] { d with handle := none }

theorem EntryRecord.Turn.refl (d : EntryRecord P H) (closed : Bool) : d.Turn closed [] d :=
  .waits d.pending d.queuedMake d.queuedUnmake

theorem EntryRecord.Turn.generation_eq (ht : d.Turn closed tries d') :
    d'.generation = d.generation := by
  cases ht <;> rfl

inductive Fate (m : Moment σ P H) (events : List (Event P H)) (closed : Bool) (i : UInt32)
    (d : EntryRecord P H) : EntryRecord P H → Prop where
  | turn {d' : EntryRecord P H} (ht : d.Turn closed (results i events) d')
    (hu : ∀ e, m.unmaking? = some e → e.index ≠ i) : Fate m events closed i d d'
  /-- The slot is given up. -/
  | ends (hs : d.state = some .unmaking) (hr : results i events = [])
    (hu : m.unmaking? = some ⟨i, d.generation⟩) :
    Fate m events closed i d { d.vacated with generation := d.generation + 1 }

theorem Fate.refl (hr : results i events = []) (hu : ∀ e, m.unmaking? = some e → e.index ≠ i)
    (d : EntryRecord P H) : Fate m events closed i d d :=
  .turn (hr ▸ .refl d closed) hu

theorem results_destroyedAny (i : UInt32) (handle : Option H) :
    results i (Event.destroyedAny (P := P) handle) = [] := by
  cases handle <;> rfl

theorem results_created (i j : UInt32) (result : Except String H) (rest : List (Event P H)) :
    results i (.created j result :: rest) =
      if j = i then result :: results i rest else results i rest := by
  unfold results
  rw [List.filterMap_cons]
  by_cases hij : j = i <;> simp only [hij, if_true, if_false]

theorem Effect.fates (he : Effect r r') (ha : r.Agrees) (ha' : r'.Agrees)
    (hf : r'.fixed = r.fixed) (hr : results i events = [])
    (hu : ∀ e, m.unmaking? = some e → e.index ≠ i) :
    Option.Rel (Fate m events closed i) (r.record? i) (r'.record? i) := by
  cases he with
  | none h => exact h.rel (Fate.refl hr hu)
  | again j d q hs h =>
    have hc := h.isCounted ha ha' hf hs rfl
    exact h.rel (fun _ => .turn (hr ▸ .again q hc) hu) fun _ => .refl hr hu
  | new j d q hs h => exact h.rel (fun _ => .turn (hr ▸ .begins q hs) hu) fun _ => .refl hr hu
  | condemn j d hs h =>
    have hc := h.isCounted ha ha' hf hs rfl
    exact h.rel (fun _ => .turn (hr ▸ .condemned hc) hu) fun _ => .refl hr hu

theorem nextUnmade?_of_make (hm : r.dequeueMake.answer = some i) : r.nextUnmade? = none := by
  simp only [nextUnmade?, hm, Option.isSome_some, if_true]

theorem nextUnmade?_of_exhaust (hm : r.dequeueMake.answer = none)
    (hd : r.dequeueMake.state.dequeueUnmake.answer = none) : r.nextUnmade? = none := by
  simp only [nextUnmade?, hm, hd, Option.isSome_none, Bool.false_eq_true, if_false,
    Option.bind_none]

theorem nextUnmade?_of_unmake (hm : r.dequeueMake.answer = none)
    (hd : r.dequeueMake.state.dequeueUnmake.answer = some i) (hr : r.record? i = some d) :
    r.nextUnmade? = if d.state = some .unmaking then some ⟨i, d.generation⟩ else none := by
  have hr' : r.dequeueMake.state.dequeueUnmake.state.record? i = some d := hr
  simp only [nextUnmade?, hm, hd, hr', Option.isSome_none, Bool.false_eq_true, if_false,
    Option.bind_some, Option.filter_some, beq_iff_eq]
  split <;> rfl

theorem index_ne_of_eq_none {next : Option Entry} (h : next = none) :
    ∀ e, next = some e → e.index ≠ i := by
  rw [h]
  exact nofun

theorem Run.fates (h : Run life events m) (hs : Step life m events' m') (i : UInt32) :
    Option.Rel (Fate m events' m'.registry.closed i) (m.registry.record? i)
      (m'.registry.record? i) := by
  have ha := h.agrees
  have ho := h.orderly
  have ha' := hs.agrees ha
  have hfixed := hs.fixed_eq
  have hcreating := h.isAskedFor_of_creating
  have hclosed := h.closed_iff
  cases hs with
  | ask q hidle =>
    refine (ho.serves ha q).2.fates ha ha' hfixed rfl ?_
    rintro e he
    obtain rfl | rfl := hidle <;> cases he
  | askInside => exact (ho.serves ha _).2.fates ha ha' hfixed rfl nofun
  | skipMake hd ht =>
    have hu := index_ne_of_eq_none (i := i) (nextUnmade?_of_make hd)
    obtain ⟨d, -, ⟨-, -, hr⟩ | ⟨payload, he, -⟩⟩ := ho.takeRequest_cases hd ht
    · exact hr.rel (fun _ => .turn (.waits d.pending false d.queuedUnmake) hu) fun _ => .refl rfl hu
    · cases he
  | make hd ht =>
    have hu := index_ne_of_eq_none (i := i) (nextUnmade?_of_make hd)
    obtain ⟨d, -, ⟨he, -⟩ | ⟨payload, -, -, -, hr⟩⟩ := ho.takeRequest_cases hd ht
    · cases he
    · exact hr.rel (fun _ => .turn (.waits none false d.queuedUnmake) hu) fun _ => .refl rfl hu
  | skipUnmake hm hd hg =>
    obtain ⟨d, -, -, ⟨-, hstate, hr⟩ | ⟨he, -⟩⟩ := ho.giveUp_cases hm hd hg
    · have hnone := (nextUnmade?_of_unmake hm hd hr.record).trans (if_neg hstate)
      have hu := index_ne_of_eq_none (i := i) hnone
      exact hr.rel (fun _ => .turn (.waits d.pending d.queuedMake false) hu) fun _ => .refl rfl hu
    · cases he
  | @unmake f left j handle r hm hd hg =>
    obtain ⟨d, -, -, ⟨he, -⟩ | ⟨-, hstate, hr⟩⟩ := ho.giveUp_cases hm hd hg
    · cases he
    · have hu := (nextUnmade?_of_unmake hm hd hr.record).trans (if_pos hstate)
      have hnone := results_destroyedAny (P := P) i handle
      -- The one step in which a record ends: what is given up is the slot that was read off.
      rw [Moment.registry_destroying]
      refine (hr.releaseSlot j).rel ?_ fun hij => .refl hnone ?_
      · rintro rfl
        exact .ends hstate hnone hu
      · intro e he
        cases hu.symm.trans he
        exact hij
  | exhaust hm hd =>
    have hu := index_ne_of_eq_none (i := i) (nextUnmade?_of_exhaust hm hd)
    obtain ⟨hsame, -⟩ := ho.resembles_dequeueMake hm
    obtain ⟨hsame', -⟩ := (ho.congr hsame).resembles_dequeueUnmake hd
    exact (hsame.trans hsame').rel (Fate.refl rfl hu)
  | finish => exact (Flusher.resembles_compactIfDue ho).rel (Fate.refl rfl nofun)
  | @succeed f j _ _ handle =>
    obtain ⟨d, hd, hasked⟩ := hcreating j rfl
    have hr := ho.revised_modifyRecord (f := (·.succeeded handle)) hd rfl rfl
    rw [Moment.registry_destroying]
    refine hr.rel (fun hij => .turn ?_ nofun) fun hij => .refl ?_ nofun
    · rw [results_created, if_pos hij, results_destroyedAny]
      exact .succeeds handle hasked
    · rw [results_created, if_neg hij, results_destroyedAny]
  | @fail f j _ _ reason =>
    obtain ⟨d, hd, hasked⟩ := hcreating j rfl
    have hr := ho.revised_modifyRecord (f := EntryRecord.defeated) hd rfl rfl
    refine hr.rel (fun hij => .turn ?_ nofun) fun hij => .refl ?_ nofun
    · rw [results_created, if_pos hij]
      exact .fails reason hasked
    · exact (results_created ..).trans (if_neg hij)
  | @closeSlot f j _ handle hh =>
    obtain ⟨d, hd, -⟩ := Option.bind_eq_some_iff.mp hh
    have hr := ho.revised_modifyRecord (f := ({ · with handle := none })) hd rfl rfl
    have hc := hclosed.mpr trivial
    rw [Moment.registry_destroying]
    exact hr.rel (fun _ => .turn (.emptied hc) nofun) fun _ => .refl rfl nofun
  | flush | note | resume | close | skipSlot | vanish =>
    exact ho.resembles_self.rel (Fate.refl rfl nofun)

theorem Run.exists_fate (h : Run life events m) (hs : Step life m events' m')
    (hd : m.registry.record? i = some d) :
    ∃ d', m'.registry.record? i = some d' ∧ Fate m events' m'.registry.closed i d d' :=
  exists_of_rel_some (hd ▸ h.fates hs i)

theorem Run.exists_fate_of_record (h : Run life events m) (hs : Step life m events' m')
    (hd' : m'.registry.record? i = some d') :
    ∃ d, m.registry.record? i = some d ∧ Fate m events' m'.registry.closed i d d' :=
  exists_of_rel_some_right (hd' ▸ h.fates hs i)

/-- The slots are free or those of placeholders, which hold their handles. -/
structure Flusher.Opening.IsNew (o : Opening P H) : Prop where
  record : ∀ i d, o.slots.get? i = some d → d.generation = 0 ∧ d.isCounted = false
  placeholder : ∀ p ∈ o.created, ∃ d, o.slots.get? p.1.index = some d ∧
    d.state = some .placeholder ∧ d.generation = p.1.generation ∧ d.handle = some p.2

theorem Flusher.Opening.IsNew.add {o o' : Opening P H} {name : String} {handle : H}
    (ha : o.Adds o' name handle i d) (h : o.IsNew) : o'.IsNew := by
  have hgeneration := (h.record i d ha.record).1
  constructor
  · intro j e he
    obtain ⟨-, rfl⟩ | ⟨-, he⟩ := ha.replaces.eq_or_ne he
    · exact ⟨hgeneration, rfl⟩
    · exact h.record j e he
  · intro p hp
    rw [ha.created_eq] at hp
    obtain rfl | hp := List.mem_cons.mp hp
    · exact ⟨_, ha.replaces.get?_self, rfl, hgeneration, rfl⟩
    · obtain ⟨e, he, hs, hfacts⟩ := h.placeholder p hp
      refine ⟨e, (ha.replaces.get?_of_ne ?_).trans he, hs, hfacts⟩
      rintro rfl
      cases ha.record.symm.trans he
      rw [ha.state_eq] at hs
      cases hs

theorem Flusher.isNew_of_create {config : RegistryConfig} {s : σ} {payloads : Placeholders P}
    (h : (create life config s payloads).answer = .ok r) :
    Opening.IsNew ⟨r.slots, r.lookup, r.placeholders.toList.reverse⟩ := by
  obtain ⟨-, -, -, -, -, hnew⟩ := exists_of_create (motive := Opening.IsNew)
    (fun _ _ _ _ _ _ ha hn => hn.add ha) h fun slots hslots _ => by
      refine ⟨fun i d hd => ?_, nofun⟩
      rw [SlotPool.get?, SlotPool.slot?_create hslots] at hd
      split at hd
      · cases hd
        exact ⟨rfl, rfl⟩
      · cases hd
  exact hnew

theorem EntryRecord.Turn.placeholder (ht : d.Turn closed tries d')
    (hs : d.state = some .placeholder) :
    d'.state = some .placeholder ∧ (closed = false → d'.handle = d.handle) := by
  have hcounted : d.isCounted ≠ true := fun hc => (isCounted_iff.mp hc).2 hs
  cases ht with
  | waits => exact ⟨hs, fun _ => rfl⟩
  | begins q hn => cases hn.symm.trans hs
  | again q hc | condemned hc => exact absurd hc hcounted
  | succeeds _ ha | fails _ ha => exact absurd ha.isCounted hcounted
  | emptied hc => exact ⟨hs, fun ho => Bool.noConfusion (hc.symm.trans ho)⟩

theorem Fate.placeholder (hf : Fate m events closed i d d') (hs : d.state = some .placeholder) :
    d'.state = some .placeholder ∧ d'.generation = d.generation ∧
      (closed = false → d'.handle = d.handle) := by
  cases hf with
  | turn ht => exact ⟨(ht.placeholder hs).1, ht.generation_eq, (ht.placeholder hs).2⟩
  | ends hu =>
    rw [hu] at hs
    cases hs

theorem Run.exists_placeholder (h : Run life events m) {p : Entry × H}
    (hp : p ∈ m.registry.placeholders.toList) :
    ∃ d, m.registry.record? p.1.index = some d ∧ d.state = some .placeholder ∧
      d.generation = p.1.generation ∧ (m.registry.closed = false → d.handle = some p.2) := by
  induction h with
  | start h =>
    obtain ⟨d, hd, hs, hg, hh⟩ := (Flusher.isNew_of_create h).placeholder p
      (List.mem_reverse.mpr hp)
    exact ⟨d, hd, hs, hg, fun _ => hh⟩
  | step h hs ih =>
    rw [hs.placeholders_eq] at hp
    obtain ⟨d, hd, hstate, hg, hh⟩ := ih hp
    obtain ⟨d', hd', hfate⟩ := h.exists_fate hs hd
    obtain ⟨hstate', hg', hh'⟩ := hfate.placeholder hstate
    exact ⟨d', hd', hstate', hg'.trans hg, fun ho => (hh' ho).trans (hh (hs.open_of_open ho))⟩

theorem find?_eq_some_iff {e : Entry} : r.find? e = some d ↔
    InUse r.slots e.index d ∧ d.generation = e.generation := by
  rw [find?, Option.filter_eq_some_iff, Bool.and_eq_true, beq_iff_eq, Option.isSome_iff_ne_none,
    and_comm (a := d.generation = e.generation), ← and_assoc]
  rfl

theorem value_of_find? {e : Entry} (ho : r.closed = false) (hd : r.find? e = some d) :
    r.value e = some (d.handle.getD
      (if d.failed then r.placeholders.failed.2 else r.placeholders.making.2)) := by
  rw [value, ho, if_neg Bool.false_ne_true, hd, Option.map_some]
  cases d.handle <;> rfl

end MemoryKit.Registry
