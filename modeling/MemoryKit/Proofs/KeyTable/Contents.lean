import Mathlib.Data.Finset.Insert
import MemoryKit.Proofs.KeyTable.Rebuilding

/-! # Key tables as partial maps

To its callers a table is a map from keys to values together with the set of keys that hold a slot.
Where the keys lie, which slots are passed over and how a search goes round the table has no part in
any answer: after every sequence of calls a table answers as its contents say.
-/

namespace MemoryKit.KeyTable

/-- The values of keys, null for a key without one, and the keys that hold a slot. -/
@[ext] structure Contents where
  value : UInt64 → UInt64
  claimed : Finset UInt64
  nullKey_notMem : nullKey ∉ claimed
  value_of_notMem : ∀ key, key ∉ claimed → value key = nullValue

inductive Call where
  | set (key value : UInt64)
  | insert (key value : UInt64)
  | remove (key : UInt64)
  | get (key : UInt64)
  | size
  | entries
  | clear
  | reclaim

def Call.Answer : Call → Type
  | .set .. | .insert .. => Except KeyTableError UInt64
  | .remove _ | .get _ => UInt64
  | .size | .reclaim => Nat
  | .entries => List (UInt64 × UInt64)
  | .clear => Unit

def serve (t : KeyTable) : (q : Call) → q.Answer × KeyTable
  | .set key value => t.set key value
  | .insert key value => t.insert key value
  | .remove key => t.remove key
  | .get key => (t.get key, t)
  | .size => (t.size, t)
  | .entries => (t.entries, t)
  | .clear => ((), t.clear)
  | .reclaim => (t.reclaim.answer, t.reclaim.state)

def after (t : KeyTable) (calls : List Call) : KeyTable := calls.foldl (fun t q => (t.serve q).2) t

namespace Contents

variable {c : Contents} {key : UInt64} {slotCount : Nat}

def empty : Contents := ⟨fun _ => nullValue, ∅, Finset.notMem_empty _, fun _ _ => rfl⟩

def present (c : Contents) : Finset UInt64 := c.claimed.filter (c.value · ≠ nullValue)

/-- The key holds a slot from now on, whatever the value is. -/
def store (c : Contents) (key value : UInt64) (hk : key ≠ nullKey) : Contents where
  value := Function.update c.value key value
  claimed := Insert.insert key c.claimed
  nullKey_notMem := Finset.mem_insert.not.mpr (not_or.mpr ⟨hk.symm, c.nullKey_notMem⟩)
  value_of_notMem other ho := by
    obtain ⟨hne, ho⟩ := not_or.mp (Finset.mem_insert.not.mp ho)
    rw [Function.update_of_ne hne, c.value_of_notMem other ho]

def discard (c : Contents) (key : UInt64) : Contents :=
  { c with
    value := Function.update c.value key nullValue
    value_of_notMem := fun other ho => by
      by_cases hne : other = key
      · rw [hne, Function.update_self]
      · rw [Function.update_of_ne hne, c.value_of_notMem other ho] }

def reclaim (c : Contents) : Contents :=
  { c with
    claimed := c.present
    nullKey_notMem := fun h => c.nullKey_notMem (Finset.mem_filter.mp h).1
    value_of_notMem := fun key hn => by
      by_contra hv
      refine hn (Finset.mem_filter.mpr ⟨?_, hv⟩)
      by_contra hc
      exact hv (c.value_of_notMem key hc) }

/-- Why a key cannot be stored beside the others in so many slots, if it cannot. -/
def refusal? (c : Contents) (slotCount : Nat) (key : UInt64) : Option KeyTableError :=
  if key = nullKey then some .nullKey
  else if key ∉ c.claimed ∧ c.claimed.card = slotCount then some .full
  else none

theorem ne_nullKey_of_refusal? (h : c.refusal? slotCount key = none) : key ≠ nullKey := by
  rintro rfl
  rw [refusal?, if_pos rfl] at h
  cases h

def put (c : Contents) (slotCount : Nat) (key value : UInt64) : Contents :=
  if h : c.refusal? slotCount key = none then c.store key value (ne_nullKey_of_refusal? h) else c

def next (c : Contents) (slotCount : Nat) : Call → Contents
  | .set key value => c.put slotCount key value
  | .insert key value => if c.value key = nullValue then c.put slotCount key value else c
  | .remove key => c.discard key
  | .get _ | .size | .entries => c
  | .clear => empty
  | .reclaim => c.reclaim

def after (c : Contents) (slotCount : Nat) (calls : List Call) : Contents :=
  calls.foldl (·.next slotCount) c

def stored (c : Contents) (slotCount : Nat) (key : UInt64) : Except KeyTableError UInt64 :=
  match c.refusal? slotCount key with
  | some e => .error e
  | none => .ok (c.value key)

section

variable {e : KeyTableError} (value : UInt64)

theorem put_of_refused (h : c.refusal? slotCount key = some e) : c.put slotCount key value = c :=
  dif_neg fun hn => Option.some_ne_none e (h.symm.trans hn)

theorem put_of_taken (h : c.refusal? slotCount key = none) :
    c.put slotCount key value = c.store key value (ne_nullKey_of_refusal? h) := dif_pos h

theorem stored_of_refused (h : c.refusal? slotCount key = some e) :
    c.stored slotCount key = .error e := by rw [stored, h]

theorem stored_of_taken (h : c.refusal? slotCount key = none) :
    c.stored slotCount key = .ok (c.value key) := by rw [stored, h]

end

def IsListedBy (c : Contents) (l : List (UInt64 × UInt64)) : Prop :=
  (l.map Prod.fst).Nodup ∧
    ∀ key value, (key, value) ∈ l ↔ key ∈ c.present ∧ value = c.value key

/-- The right answers to a call. Only the order of the entries is left open. -/
def IsAnswer (c : Contents) (slotCount : Nat) : (q : Call) → q.Answer → Prop
  | .set key _, answer | .insert key _, answer => answer = c.stored slotCount key
  | .remove key, answer | .get key, answer => answer = c.value key
  | .size, answer => answer = c.present.card
  | .entries, answer => c.IsListedBy answer
  | .clear, _ => True
  | .reclaim, answer => answer = (c.claimed \ c.present).card

end Contents

/-- The contents of a table: what `get` answers, and the keys of the claimed slots. -/
def contents (t : KeyTable) : Contents where
  value := t.get
  claimed := t.claimants
  nullKey_notMem := t.nullKey_notMem_claimants
  value_of_notMem _ hn := by_contra fun hv => hn (mem_claimants_of_get hv)

variable {t t' : KeyTable} {key value : UInt64} {j : Nat}

theorem contents_empty (bits : Nat) : (empty bits).contents = .empty :=
  Contents.ext (funext (get_empty bits)) (claimants_empty bits)

section Step

variable (h : t.IsProbing)

include h

theorem IsProbing.contents_setSlot (hk : key ≠ nullKey) (hl : t.locate key = some j)
    (value : UInt64) : (t.setSlot j ⟨key, value⟩).contents = t.contents.store key value hk := by
  refine Contents.ext (funext fun other => ?_) (claimants_setSlot hk hl value)
  simp only [contents, Contents.store, h.get_setSlot hk hl, Function.update_apply]

theorem IsProbing.positionFor_cases (key : UInt64) :
    (∃ e, t.contents.refusal? t.slotCount key = some e ∧ t.positionFor key = .error e) ∨
      ∃ j, t.contents.refusal? t.slotCount key = none ∧ t.locate key = some j ∧
        t.positionFor key = .ok j := by
  unfold Contents.refusal? positionFor
  by_cases hk : key = nullKey
  · exact Or.inl ⟨.nullKey, by rw [if_pos hk], by rw [if_pos hk]⟩
  · simp only [if_neg hk]
    cases hl : t.locate key with
    | none =>
      have hfull := (h.locate_eq_none_iff hk).mp hl
      exact Or.inl ⟨.full, if_pos hfull, rfl⟩
    | some j =>
      refine Or.inr ⟨j, if_neg fun hfull => ?_, rfl, rfl⟩
      rw [(h.locate_eq_none_iff hk).mpr hfull] at hl
      cases hl

theorem IsProbing.set_spec (key value : UInt64) :
    (t.set key value).1 = t.contents.stored t.slotCount key ∧
      (t.set key value).2.IsProbing ∧ (t.set key value).2.slotCount = t.slotCount ∧
      (t.set key value).2.contents = t.contents.put t.slotCount key value := by
  unfold KeyTable.set
  obtain ⟨e, hr, hp⟩ | ⟨j, hr, hl, hp⟩ := h.positionFor_cases key
  · rw [hp, Contents.stored_of_refused hr, Contents.put_of_refused value hr]
    exact ⟨rfl, h, rfl, rfl⟩
  · have hk := Contents.ne_nullKey_of_refusal? hr
    rw [hp, Contents.stored_of_taken hr, Contents.put_of_taken value hr]
    exact ⟨congrArg _ (h.value_of_locate hk hl), h.setSlot hk hl value, slotCount_setSlot ..,
      h.contents_setSlot hk hl value⟩

theorem IsProbing.insert_spec (key value : UInt64) :
    (t.insert key value).1 = t.contents.stored t.slotCount key ∧
      (t.insert key value).2.IsProbing ∧ (t.insert key value).2.slotCount = t.slotCount ∧
      (t.insert key value).2.contents =
        if t.get key = nullValue then t.contents.put t.slotCount key value else t.contents := by
  unfold KeyTable.insert
  obtain ⟨e, hr, hp⟩ | ⟨j, hr, hl, hp⟩ := h.positionFor_cases key
  · rw [hp, Contents.stored_of_refused hr, Contents.put_of_refused value hr]
    exact ⟨rfl, h, rfl, (ite_self _).symm⟩
  · have hk := Contents.ne_nullKey_of_refusal? hr
    rw [hp, Contents.stored_of_taken hr, Contents.put_of_taken value hr]
    dsimp only
    rw [h.value_of_locate hk hl]
    split
    · exact ⟨rfl, h.setSlot hk hl value, slotCount_setSlot .., h.contents_setSlot hk hl value⟩
    · exact ⟨rfl, h, rfl, rfl⟩

theorem IsProbing.remove_spec (key : UInt64) :
    (t.remove key).1 = t.get key ∧ (t.remove key).2.slotCount = t.slotCount ∧
      (t.remove key).2.contents = t.contents.discard key := by
  have hget := (h.remove key).2
  refine ⟨?_, ?_, Contents.ext (funext fun other => ?_) (t.claimants_remove key)⟩
  · unfold KeyTable.remove get
    split <;> rfl
  · unfold KeyTable.remove
    split
    · exact slotCount_setSlot ..
    · rfl
  · simp only [contents, Contents.discard, hget, Function.update_apply]

theorem IsProbing.mem_entries_iff :
    (key, value) ∈ t.entries ↔ key ∈ t.contents.present ∧ value = t.get key := by
  rw [h.mem_entries, Contents.present, Finset.mem_filter]
  constructor
  · rintro ⟨hv, rfl⟩
    exact ⟨⟨mem_claimants_of_get hv, hv⟩, rfl⟩
  · rintro ⟨⟨-, hv⟩, rfl⟩
    exact ⟨hv, rfl⟩

theorem IsProbing.serve_spec (q : Call) :
    (t.serve q).2.IsProbing ∧ (t.serve q).2.slotCount = t.slotCount ∧
      (t.serve q).2.contents = t.contents.next t.slotCount q ∧
      t.contents.IsAnswer t.slotCount q (t.serve q).1 := by
  cases q with
  | set key value =>
    obtain ⟨ha, hp, hs, hc⟩ := h.set_spec key value
    exact ⟨hp, hs, hc, ha⟩
  | insert key value =>
    obtain ⟨ha, hp, hs, hc⟩ := h.insert_spec key value
    exact ⟨hp, hs, hc, ha⟩
  | remove key =>
    obtain ⟨ha, hs, hc⟩ := h.remove_spec key
    exact ⟨(h.remove key).1, hs, hc, ha⟩
  | get key => exact ⟨h, rfl, rfl, rfl⟩
  | size => exact ⟨h, rfl, rfl, h.size_eq⟩
  | entries => exact ⟨h, rfl, rfl, h.nodup_entries, fun _ _ => h.mem_entries_iff⟩
  | clear =>
    exact ⟨isProbing_empty _, by simp only [serve, clear, slotCount_eq, empty],
      contents_empty _, trivial⟩
  | reclaim =>
    obtain ⟨hp, hget, hclaimants, hslots, ha⟩ := h.reclaim
    refine ⟨hp, hslots, Contents.ext (funext hget) hclaimants, ?_⟩
    refine (ha.trans h.tombstones_eq).trans (congrArg Finset.card ?_)
    ext key
    rw [Finset.mem_filter, Finset.mem_sdiff, Contents.present, Finset.mem_filter]
    apply and_congr_right
    intro hc
    constructor
    · exact fun hv hp => hp.2 hv
    · exact fun hp => by_contra fun hv => hp ⟨hc, hv⟩

end Step

theorem set_of_error {e : KeyTableError} (he : (t.set key value).1 = .error e) :
    (t.set key value).2 = t := by
  unfold KeyTable.set at he ⊢
  split
  · rfl
  · next hp =>
    rw [hp] at he
    cases he

theorem IsProbing.set (h : t.IsProbing) {old : UInt64}
    (hset : t.set key value = (.ok old, t')) :
    t'.IsProbing ∧ t'.slotCount = t.slotCount ∧ t'.claimants = Insert.insert key t.claimants ∧
      ∀ other, t'.get other = if other = key then value else t.get other := by
  obtain ⟨hanswer, hprobing, hslots, hcontents⟩ := h.set_spec key value
  rw [hset] at hanswer hprobing hslots hcontents
  cases hr : t.contents.refusal? t.slotCount key with
  | some e =>
    rw [Contents.stored_of_refused hr] at hanswer
    cases hanswer
  | none =>
    rw [Contents.put_of_taken value hr] at hcontents
    refine ⟨hprobing, hslots, congrArg Contents.claimed hcontents, fun other => ?_⟩
    refine (congrFun (congrArg Contents.value hcontents) other).trans ?_
    exact Function.update_apply ..

theorem IsProbing.after_spec (h : t.IsProbing) (calls : List Call) :
    (t.after calls).IsProbing ∧ (t.after calls).slotCount = t.slotCount ∧
      (t.after calls).contents = t.contents.after t.slotCount calls := by
  induction calls generalizing t with
  | nil => exact ⟨h, rfl, rfl⟩
  | cons q calls ih =>
    obtain ⟨hp, hs, hc, -⟩ := h.serve_spec q
    obtain ⟨hp', hs', hc'⟩ := ih hp
    rw [hs, hc] at hc'
    exact ⟨hp', hs'.trans hs, hc'⟩

theorem isProbing_of_withCapacity {capacity : Nat} (h : withCapacity capacity = .ok t) :
    t.IsProbing ∧ t.contents = .empty := by
  unfold withCapacity at h
  split at h
  · cases h
  · cases h
    exact ⟨isProbing_empty _, contents_empty _⟩

/--
After any calls the contents of a table are those that the calls lead to from no contents at all,
every call is answered as the contents say, and a call that fails changes nothing.
-/
theorem answers_of_contents {capacity : Nat} (h : withCapacity capacity = .ok t)
    (calls : List Call) :
    (t.after calls).contents = Contents.empty.after t.slotCount calls ∧
      (∀ q, (Contents.empty.after t.slotCount calls).IsAnswer t.slotCount q
        ((t.after calls).serve q).1) ∧
      ∀ key value e,
        (((t.after calls).set key value).1 = .error e →
          ((t.after calls).set key value).2 = t.after calls) ∧
        (((t.after calls).insert key value).1 = .error e →
          ((t.after calls).insert key value).2 = t.after calls) := by
  obtain ⟨hp, hempty⟩ := isProbing_of_withCapacity h
  obtain ⟨hp', hs, hc⟩ := hp.after_spec calls
  rw [hempty] at hc
  refine ⟨hc, ?_, ?_⟩
  · intro q
    obtain ⟨-, -, -, ha⟩ := hp'.serve_spec q
    rwa [hc, hs] at ha
  · intro key value e
    constructor
    · exact set_of_error
    · intro he
      exact insert_error (Prod.ext he rfl)

def collidingCalls : List Call := [.set 8 1, .set 16 2, .insert 16 3, .remove 8, .reclaim]

theorem answers_of_contents_colliding :
    withCapacity 3 = .ok (empty 3) ∧
      ((empty 3).after collidingCalls).get 16 = 2 ∧
      ((empty 3).after collidingCalls).get 8 = nullValue ∧
      ((empty 3).after collidingCalls).claimants = {16} := by
  have h : withCapacity 3 = .ok (empty 3) := rfl
  obtain ⟨hc, ha, -⟩ := answers_of_contents h collidingCalls
  have hget (key : UInt64) : ((empty 3).after collidingCalls).get key =
      (Contents.empty.after (empty 3).slotCount collidingCalls).value key := ha (.get key)
  refine ⟨h, (hget 16).trans ?_, (hget 8).trans ?_, (congrArg Contents.claimed hc).trans ?_⟩
  all_goals decide +kernel

end MemoryKit.KeyTable
