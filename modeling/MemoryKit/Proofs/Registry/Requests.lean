import MemoryKit.Proofs.Registry.Agreement
import MemoryKit.Registry.Session

/-! # Requests and the lookup

Every request keeps the lookup and the records of a registry in agreement. What `get` answers is
then determined by the records in use, and a request to make a key answers with its entry.
-/

namespace MemoryKit.Registry

variable {P H : Type}

def fixed (r : Registry P H) : List UInt32 := r.placeholders.toList.map fun p => p.1.index

def Agrees (r : Registry P H) : Prop := ∃ free, Agree r.slots r.lookup r.fixed free

structure Kept (r r' : Registry P H) : Prop where
  slots : r'.slots = r.slots
  lookup : r'.lookup = r.lookup
  placeholders : r'.placeholders = r.placeholders

variable {r r' : Registry P H} {i : UInt32} {d : EntryRecord P H} {q : MakeRequest P}
  {key : UInt64} {e : Entry} {free : List UInt32}

theorem kept_enqueueMake (r : Registry P H) (i : UInt32) : Kept r (r.enqueueMake i).state := by
  unfold enqueueMake
  dsimp only
  split <;> exact ⟨rfl, rfl, rfl⟩

theorem kept_enqueueUnmake (r : Registry P H) (i : UInt32) : Kept r (r.enqueueUnmake i).state := by
  unfold enqueueUnmake
  dsimp only
  split <;> exact ⟨rfl, rfl, rfl⟩

theorem Agrees.of_kept (h : r.Agrees) (hk : Kept r r') : r'.Agrees := by
  obtain ⟨free, h⟩ := h
  refine ⟨free, ?_⟩
  rwa [hk.slots, hk.lookup, fixed, hk.placeholders]

theorem Agrees.modifyRecord (h : r.Agrees) {f : EntryRecord P H → EntryRecord P H}
    (hf : ∀ d, r.record? i = some d → (f d).outline = d.outline) :
    (r.modifyRecord i f).Agrees := by
  obtain ⟨free, h⟩ := h
  exact ⟨free, h.modify hf⟩

theorem InUse.modifyRecord (hu : InUse r.slots i d) {f : EntryRecord P H → EntryRecord P H}
    (hf : (f d).state ≠ none) : InUse (r.modifyRecord i f).slots i (f d) :=
  ⟨by rw [Registry.modifyRecord, SlotPool.get?_modify, if_pos rfl, hu.1]; rfl, hf⟩

theorem Agrees.get_eq_some_iff (h : r.Agrees) :
    r.get key = some e ↔
      ∃ d, InUse r.slots e.index d ∧ d.key = key ∧ d.generation = e.generation := by
  obtain ⟨free, h⟩ := h
  unfold get
  constructor
  · intro he
    dsimp only at he
    split at he
    · cases he
    · next hv =>
      obtain ⟨i, d, hi, hu, hk⟩ := h.exists_inUse hv
      rw [hi, toUInt32_toUInt64, record?, hu.1] at he
      cases he
      exact ⟨d, hu, hk, rfl⟩
  · rintro ⟨d, hu, rfl, hg⟩
    simp only [h.found _ d hu, if_neg (toUInt64_ne_nullValue _), toUInt32_toUInt64, record?, hu.1,
      Option.map_some, hg]

theorem Agrees.get_eq_none_iff (h : r.Agrees) :
    r.get key = none ↔ ∀ i d, InUse r.slots i d → d.key ≠ key := by
  constructor
  · intro hn i d hu hk
    have hs : r.get key = some ⟨i, d.generation⟩ := h.get_eq_some_iff.mpr ⟨d, hu, hk, rfl⟩
    rw [hn] at hs
    cases hs
  · intro hno
    cases hs : r.get key with
    | none => rfl
    | some e =>
      obtain ⟨d, hu, hk, -⟩ := h.get_eq_some_iff.mp hs
      exact absurd hk (hno _ d hu)

theorem inUse_of_inUse? (h : r.inUse? key = some (i, d)) : InUse r.slots i d ∧ d.key = key := by
  unfold inUse? at h
  dsimp only at h
  split at h
  · cases h
  · simp only [Option.map_eq_some_iff, Option.filter_eq_some_iff, Prod.mk.injEq, Bool.and_eq_true,
      beq_iff_eq] at h
    obtain ⟨d', ⟨hd, hk, hs⟩, rfl, rfl⟩ := h
    exact ⟨⟨hd, Option.isSome_iff_ne_none.mp hs⟩, hk⟩

theorem Agree.get_eq_null (h : Agree r.slots r.lookup r.fixed free) (hn : r.inUse? key = none) :
    r.lookup.get key = nullValue := by
  by_contra hv
  obtain ⟨i, d, hi, hu, hk⟩ := h.exists_inUse hv
  have hs := Option.isSome_iff_ne_none.mpr hu.2
  simp only [inUse?, hi, if_neg (toUInt64_ne_nullValue i), toUInt32_toUInt64, record?, hu.1,
    Option.filter_some, hk, hs, beq_self_eq_true, Bool.and_self, if_true, Option.map_some,
    reduceCtorEq] at hn

theorem outline_rename (hs : d.state ≠ none) (hp : d.state ≠ some .placeholder)
    (q : MakeRequest P) : (d.rename q).outline = d.outline :=
  outline_eq_iff.mpr ⟨rfl, iff_of_false nofun hs, iff_of_false nofun hp⟩

structure Made (key : UInt64) (o : Outcome (Registry P H) (Except RegistryError Entry)) : Prop where
  agrees : o.state.Agrees
  get_eq : ∀ e, o.answer = .ok e → o.state.get key = some e

theorem Agrees.made_rename (h : r.Agrees) (hu : InUse r.slots i d)
    (hp : d.state ≠ some .placeholder) (hk : d.key = q.key) (log : List Record) :
    Made q.key ⟨.ok ⟨i, d.generation⟩, r.modifyRecord i (·.rename q), log⟩ := by
  have h' : (r.modifyRecord i (·.rename q)).Agrees := h.modifyRecord fun d' hd' => by
    cases hu.1.symm.trans hd'
    exact outline_rename hu.2 hp q
  refine ⟨h', fun e he => ?_⟩
  cases he
  exact h'.get_eq_some_iff.mpr ⟨d.rename q, hu.modifyRecord nofun, hk, rfl⟩

theorem Agrees.made_remake (h : r.Agrees) (hu : InUse r.slots i d) (hk : d.key = q.key) :
    Made q.key (r.remake i d q) := by
  unfold remake
  dsimp only
  split
  · refine ⟨h, fun e he => ?_⟩
    cases he
    exact h.get_eq_some_iff.mpr ⟨d, hu, hk, rfl⟩
  · next hno =>
    have hp : d.state ≠ some .placeholder := fun hp => hno (Or.inl hp)
    have hkept := kept_enqueueMake r i
    split
    · exact h.made_rename hu hp hk []
    · split
      · exact (h.of_kept hkept).made_rename (hkept.slots ▸ hu) hp hk _
      · exact ⟨h.of_kept hkept, nofun⟩

theorem releaseSlot_eq (hs : r.slots.HasStack free) (hi : i ∉ free)
    (hlt : i.toNat < r.slots.capacity) :
    ∃ slots, r.releaseSlot i = .quiet () { r with slots } ∧ slots.HasStack (i :: free) ∧
      (∀ j, slots.get? j = r.slots.get? j) ∧ slots.capacity = r.slots.capacity := by
  obtain ⟨slots, he, hspec⟩ := SlotPool.deallocate_used hs hi hlt
  exact ⟨slots, by rw [releaseSlot, he], hspec⟩

theorem releaseSlot_spec (hs : r.slots.HasStack free) (hi : i ∉ free)
    (hlt : i.toNat < r.slots.capacity) :
    (r.releaseSlot i).state.slots.HasStack (i :: free) ∧
      (∀ j, (r.releaseSlot i).state.record? j = r.record? j) ∧
      (r.releaseSlot i).state.lookup = r.lookup ∧ (r.releaseSlot i).state.fixed = r.fixed := by
  obtain ⟨slots, he, hs', hget, -⟩ := releaseSlot_eq hs hi hlt
  rw [he]
  exact ⟨hs', hget, rfl, rfl⟩

theorem Agree.giveUp (h : Agree r.slots r.lookup r.fixed free) (hu : InUse r.slots i d)
    (hno : d.state ≠ some .placeholder) {f : EntryRecord P H → EntryRecord P H}
    (hf : (f d).state = none) (hslots : r'.slots = r.slots.modify i f)
    (hlookup : r'.lookup = (r.lookup.remove d.key).2) (hfixed : r'.fixed = r.fixed) :
    (r'.releaseSlot i).state.Agrees := by
  have hstack : r'.slots.HasStack free := hslots ▸ h.stack.modify i f
  have hlt : i.toNat < r'.slots.capacity := by
    rw [hslots, SlotPool.capacity_modify]
    exact SlotPool.lt_of_get? hu.1
  obtain ⟨hs, hrecord, hlookup', hfixed'⟩ := releaseSlot_spec hstack (h.not_mem_free hu) hlt
  have hremove := h.probing.remove d.key
  rw [← hlookup, ← hlookup'] at hremove
  refine ⟨i :: free, ?_⟩
  rw [hfixed', hfixed]
  refine h.end_use hu hno hs (fun j => ?_) hf hremove.1 hremove.2
  refine (hrecord j).trans ?_
  rw [record?, hslots, SlotPool.get?_modify]
  split
  · rw [hu.1]
    rfl
  · rfl

section Taken

structure Taken (r : Registry P H) (i : UInt32) (key : UInt64) (free : List UInt32)
    (taken : Registry P H) : Prop where
  agree : Agree r.slots r.lookup r.fixed (i :: free)
  placeholders : taken.placeholders = r.placeholders
  stack : taken.slots.HasStack free
  record?_eq : ∀ j, taken.record? j = r.record? j
  probing : taken.lookup.IsProbing
  get_eq : ∀ other, taken.lookup.get other = if other = key then i.toUInt64 else r.lookup.get other
  get_eq_null : r.lookup.get key = nullValue

variable {taken : Registry P H} (T : Taken r i q.key free taken)

include T

theorem Taken.exists_record : ∃ d, taken.record? i = some d := by
  obtain ⟨d, hd, -⟩ := T.agree.exists_free List.mem_cons_self
  exact ⟨d, (T.record?_eq i).trans hd⟩

theorem Taken.agree_started (hd : taken.record? i = some d) :
    Agree (taken.modifyRecord i (·.started q)).slots taken.lookup taken.fixed free := by
  rw [fixed, T.placeholders]
  refine T.agree.begin_use (d := d.started q) (T.stack.modify i (·.started q)) (fun j => ?_)
    (rfl : (d.started q).state = some .making) T.probing T.get_eq T.get_eq_null
  rw [SlotPool.get?_modify]
  split
  · rw [show taken.slots.get? i = some d from hd]
    rfl
  · exact T.record?_eq j

theorem Taken.made_start : Made q.key (taken.start i q) := by
  obtain ⟨d, hd⟩ := T.exists_record
  have A := T.agree_started hd
  have h : (taken.modifyRecord i (·.started q)).Agrees := ⟨free, A⟩
  have hu : InUse (taken.modifyRecord i (·.started q)).slots i (d.started q) :=
    ⟨by
      rw [modifyRecord, SlotPool.get?_modify, if_pos rfl,
        show taken.slots.get? i = some d from hd]
      rfl, nofun⟩
  have hkept := kept_enqueueMake (taken.modifyRecord i (·.started q)) i
  have hu' := hu
  rw [← hkept.slots] at hu'
  unfold start
  dsimp only
  split
  · have h' := (h.of_kept hkept).modifyRecord (i := i) (f := ({ · with queuedMake := true }))
      fun _ _ => rfl
    refine ⟨h', fun e he => ?_⟩
    cases he
    refine h'.get_eq_some_iff.mpr ⟨_, hu'.modifyRecord nofun, rfl, ?_⟩
    rw [record?, hu.1]
    rfl
  · obtain ⟨free', A'⟩ := h.of_kept hkept
    exact ⟨A'.giveUp hu' nofun (f := EntryRecord.vacated) rfl rfl rfl rfl, nofun⟩

end Taken

theorem Agree.made_makeNew (h : Agree r.slots r.lookup r.fixed free) (hn : r.inUse? q.key = none) :
    Made q.key (r.makeNew q) := by
  unfold makeNew
  cases free with
  | nil =>
    rw [SlotPool.allocate_nil h.stack]
    exact ⟨⟨[], h⟩, nofun⟩
  | cons i free =>
    obtain ⟨slots, he, hs, hget, hcap⟩ := SlotPool.allocate_cons h.stack
    rw [he]
    dsimp only
    rcases hi : r.lookup.insert q.key i.toUInt64 with ⟨e | old, lookup⟩
    · cases KeyTable.insert_error hi
      obtain ⟨d, hd, -⟩ := h.exists_free List.mem_cons_self
      obtain ⟨hs', hrecord, hlookup, hfixed⟩ := releaseSlot_spec (r := { r with slots }) hs
        (List.nodup_cons.mp h.stack.nodup).1 (hcap ▸ SlotPool.lt_of_get? hd)
      refine ⟨⟨i :: free, ?_⟩, nofun⟩
      dsimp only
      rw [hlookup, hfixed]
      refine h.congr hs' (fun j => ?_) h.probing fun _ => rfl
      exact congrArg _ ((hrecord j).trans (hget j))
    · obtain ⟨rfl, hp, hl⟩ := h.probing.insert hi
      have hv := h.get_eq_null hn
      dsimp only
      rw [if_pos hv]
      exact Taken.made_start
        { agree := h
          placeholders := rfl
          stack := hs
          record?_eq := hget
          probing := hp
          get_eq := fun other => by rw [hl, hv]; simp
          get_eq_null := hv }

theorem Agrees.made_make (h : r.Agrees) (q : MakeRequest P) : Made q.key (r.make q) := by
  unfold make
  split
  · exact ⟨h, nofun⟩
  split
  · exact ⟨h, nofun⟩
  · cases hi : r.inUse? q.key with
    | some used =>
      obtain ⟨hu, hk⟩ := inUse_of_inUse? hi
      exact h.made_remake hu hk
    | none =>
      obtain ⟨free, h⟩ := h
      exact h.made_makeNew hi

theorem inUse_of_find? (h : r.find? e = some d) : InUse r.slots e.index d := by
  obtain ⟨hd, hs⟩ := Option.filter_eq_some_iff.mp h
  exact ⟨hd, Option.isSome_iff_ne_none.mp (Bool.and_eq_true_iff.mp hs).2⟩

theorem Agrees.unmake (h : r.Agrees) (e : Entry) : (r.unmake e).state.Agrees := by
  unfold Registry.unmake
  cases hd : r.find? e with
  | none => exact h
  | some d =>
    have hu := inUse_of_find? hd
    dsimp only
    split
    · exact h
    · next hno =>
      have hcondemned : (r.modifyRecord e.index EntryRecord.condemned).Agrees :=
        h.modifyRecord fun d' hd' => by
          cases hu.1.symm.trans hd'
          exact outline_eq_iff.mpr ⟨rfl, iff_of_false nofun hu.2, iff_of_false nofun hno⟩
      have hkept := kept_enqueueUnmake (r.modifyRecord e.index EntryRecord.condemned) e.index
      split
      · exact h
      split
      · exact hcondemned
      split
      · exact (hcondemned.of_kept hkept).modifyRecord fun _ _ => rfl
      · exact hcondemned.of_kept hkept

theorem Agrees.serve (h : r.Agrees) (q : Request P) : (r.serve q).state.Agrees := by
  cases q with
  | make q => exact (h.made_make q).agrees
  | unmake e => exact h.unmake e
  | _ => exact h

theorem Agrees.len_eq (h : r.Agrees) : r.len = usedCount r.slots := by
  obtain ⟨free, h⟩ := h
  have hcount := h.capacity_eq
  have hfixed : r.fixed.length = Placeholders.count := rfl
  rw [len, h.stack.available_eq]
  omega

end MemoryKit.Registry
