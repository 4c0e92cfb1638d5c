import Mathlib.Algebra.BigOperators.Group.List.Basic
import Mathlib.Algebra.GroupWithZero.Nat
import MemoryKit.KeyTable.Interleaving
import MemoryKit.Proofs.KeyTable.Orders

/-! # Callers that store keys at the same time

A call takes effect when its key gets a slot, or when it has met every slot in vain. What callers
leave behind who perform their accesses in any order is what the calls leave behind one after the
other, in the order in which they take effect.
-/

namespace MemoryKit.KeyTable

variable {t s : KeyTable} {key value : UInt64} {i j n steps : Nat}
  {calls done : List (UInt64 × UInt64)} {e : UInt64 × UInt64}

def Passed (t : KeyTable) (key : UInt64) (steps : Nat) : Prop :=
  ∀ d < steps, (t.slot (t.home key + d)).key ≠ key ∧ (t.slot (t.home key + d)).key ≠ nullKey

theorem Passed.succ (h : t.Passed key steps) (hkey : (t.slot (t.home key + steps)).key ≠ key)
    (hnull : (t.slot (t.home key + steps)).key ≠ nullKey) : t.Passed key (steps + 1) := by
  intro d hd
  rcases Nat.lt_succ_iff_lt_or_eq.mp hd with hlt | rfl
  · exact h d hlt
  · exact ⟨hkey, hnull⟩

/-- Claimed slots keep their keys, so that what a search has passed stays passed. -/
theorem Passed.mono (h : t.Passed key steps) (hslots : s.slotCount = t.slotCount)
    (hkeep : ∀ i, (t.slot i).key ≠ nullKey → (s.slot i).key = (t.slot i).key) :
    s.Passed key steps := by
  intro d hd
  have hhome : s.home key = t.home key := by simp only [home, hslots]
  rw [hhome, hkeep _ (h d hd).2]
  exact h d hd

theorem locate_of_passed (hn : steps < t.slotCount) (h : t.Passed key steps)
    (hend : (t.slot (t.home key + steps)).key = key ∨ (t.slot (t.home key + steps)).key = nullKey) :
    t.locate key = some (t.home key + steps) := by
  cases hl : t.locate key with
  | none =>
    obtain ⟨hkey, hnull⟩ := seek_eq_none hl steps hn
    exact absurd hend (not_or.mpr ⟨hkey, hnull⟩)
  | some j =>
    obtain ⟨d, -, rfl, hfound, hbefore⟩ := seek_eq_some hl
    rcases Nat.lt_trichotomy d steps with hlt | rfl | hlt
    · exact absurd hfound (not_or.mpr (h d hlt))
    · rfl
    · exact absurd hend (not_or.mpr (hbefore steps hlt))

theorem locate_of_passed_all (h : t.Passed key t.slotCount) : t.locate key = none := by
  cases hl : t.locate key with
  | none => rfl
  | some j =>
    obtain ⟨d, hd, rfl, hfound, -⟩ := seek_eq_some hl
    exact absurd hfound (not_or.mpr (h d hd))

theorem eq_of_slots (hbits : t.bits = s.bits) (hcursor : t.cursor = s.cursor)
    (h : ∀ i, t.slot i = s.slot i) : t = s := by
  obtain ⟨bits, slots, cursor⟩ := t
  obtain ⟨bits', slots', cursor'⟩ := s
  cases hbits
  cases hcursor
  congr 1
  ext1 i hi
  have hi' : i < 1 <<< bits := hi
  rw [← slotCount_eq ⟨bits, slots, cursor⟩] at hi'
  exact (getElem_slots hi').trans ((h i).trans (getElem_slots (by simpa using hi')).symm)

theorem setAll_append (t : KeyTable) (done : List (UInt64 × UInt64)) (e : UInt64 × UInt64) :
    t.setAll (done ++ [e]) = ((t.setAll done).set e.1 e.2).2 := by
  rw [setAll, List.foldl_append]
  rfl

theorem refusals_append (t : KeyTable) (done : List (UInt64 × UInt64)) (e : UInt64 × UInt64) :
    t.refusals (done ++ [e]) =
      t.refusals done + if isFull ((t.setAll done).set e.1 e.2).1 then 1 else 0 := by
  induction done generalizing t with
  | nil => exact t.refusals_cons e []
  | cons f done ih =>
    rw [List.cons_append, refusals_cons, refusals_cons, ih, setAll_cons]
    exact Nat.add_right_comm _ _ _

theorem shape_set (t : KeyTable) (key value : UInt64) :
    (t.set key value).2.bits = t.bits ∧ (t.set key value).2.cursor = t.cursor := by
  unfold KeyTable.set
  split <;> exact ⟨rfl, rfl⟩

theorem shape_setAll (t : KeyTable) (done : List (UInt64 × UInt64)) :
    (t.setAll done).bits = t.bits ∧ (t.setAll done).cursor = t.cursor := by
  induction done generalizing t with
  | nil => exact ⟨rfl, rfl⟩
  | cons e done ih =>
    obtain ⟨hbits, hcursor⟩ := t.shape_set e.1 e.2
    obtain ⟨hbits', hcursor'⟩ := ih (t.set e.1 e.2).2
    exact ⟨hbits'.trans hbits, hcursor'.trans hcursor⟩

namespace Caller

/-- The calls of a caller that have not yet taken effect. -/
def ahead (c : Caller) : List (UInt64 × UInt64) :=
  match c.current with
  | some (e, .loadKey _) | some (e, .claimKey _) => e :: c.waiting
  | some (_, .swapValue _) | none => c.waiting

def refused (c : Caller) : Nat := c.answers.countP isFull

/-- The key of the caller has the slot at a position, but its value is not yet there. -/
def Owes (c : Caller) (n i : Nat) : Prop :=
  ∃ e j, c.current = some (e, .swapValue j) ∧ j % n = i % n

theorem not_owes_of_ahead {c : Caller} (h : c.ahead = e :: c.waiting) (n i : Nat) :
    ¬ c.Owes n i := by
  rintro ⟨f, j, hc, -⟩
  rw [ahead, hc] at h
  exact List.cons_ne_self e c.waiting h.symm

/--
What holds of a caller beside a table `t` if `s` is the table after the calls that have taken
effect: it has passed the slots on its way, or its key has a slot and its value is to come.
-/
def IsAt (t s : KeyTable) (done : List (UInt64 × UInt64)) (c : Caller) : Prop :=
  match c.current with
  | none => True
  | some (e, .loadKey steps) | some (e, .claimKey steps) =>
    steps < t.slotCount ∧ t.Passed e.1 steps
  | some (e, .swapValue i) => e ∈ done ∧ (t.slot i).key = e.1 ∧ (s.slot i).value = e.2

end Caller

namespace Crew

def ahead (c : Crew) : List (UInt64 × UInt64) := c.callers.flatMap Caller.ahead

def refused (c : Crew) : Nat := (c.callers.map Caller.refused).sum

end Crew

/--
The callers share a table that began as `t`, and some calls have taken effect, in that order. The
table has the keys that it would have after these calls one after the other, and the values except
for those that callers owe.
-/
structure Follows (t : KeyTable) (calls done : List (UInt64 × UInt64)) (c : Crew) : Prop where
  perm : (done ++ c.ahead).Perm calls
  bits : c.table.bits = t.bits
  cursor : c.table.cursor = t.cursor
  key_eq : ∀ i, (c.table.slot i).key = ((t.setAll done).slot i).key
  isAt : ∀ caller ∈ c.callers, caller.IsAt c.table (t.setAll done) done
  slot_eq : ∀ i, c.table.slot i = (t.setAll done).slot i ∨
    ∃ caller ∈ c.callers, caller.Owes c.table.slotCount i
  refused_eq : c.refused = t.refusals done

theorem follows_atRest (t : KeyTable) {lists : List (List (UInt64 × UInt64))}
    (h : lists.flatten.Perm calls) : Follows t calls [] (.atRest t lists) where
  perm := by
    rw [List.nil_append, Crew.ahead, Crew.atRest, List.flatMap_map]
    exact List.flatMap_id ▸ h
  bits := rfl
  cursor := rfl
  key_eq _ := rfl
  isAt caller hc := by
    obtain ⟨waiting, -, rfl⟩ := List.mem_map.mp hc
    trivial
  slot_eq _ := .inl rfl
  refused_eq := by
    show ((lists.map _).map Caller.refused).sum = 0
    simp [Function.comp_def, Caller.refused]

section Turn

variable {t₁ t₂ : KeyTable} {done' : List (UInt64 × UInt64)} {before behind : List Caller}
  {x y : Caller}

/-- What a turn of one caller does to the others: their keys stay where they are. -/
structure Leaves (s s' t₁ t₂ : KeyTable) (done done' : List (UInt64 × UInt64)) : Prop where
  subset : done ⊆ done'
  slotCount_eq : t₂.slotCount = t₁.slotCount
  key_eq : ∀ i, (t₁.slot i).key ≠ nullKey → (t₂.slot i).key = (t₁.slot i).key
  value_eq : ∀ i, ∀ e ∈ done, (t₁.slot i).key = e.1 → (s'.slot i).value = (s.slot i).value

theorem Leaves.isAt {s' : KeyTable} (h : Leaves s s' t₁ t₂ done done')
    (hnull : ∀ e ∈ done, e.1 ≠ nullKey) {z : Caller} (hz : z.IsAt t₁ s done) :
    z.IsAt t₂ s' done' := by
  unfold Caller.IsAt at hz ⊢
  split at hz
  · trivial
  · exact ⟨h.slotCount_eq ▸ hz.1, hz.2.mono h.slotCount_eq h.key_eq⟩
  · exact ⟨h.slotCount_eq ▸ hz.1, hz.2.mono h.slotCount_eq h.key_eq⟩
  · next e i hc =>
    obtain ⟨he, hkey, hvalue⟩ := hz
    refine ⟨h.subset he, ?_, (h.value_eq i e he hkey).trans hvalue⟩
    rw [h.key_eq i (hkey ▸ hnull e he), hkey]

theorem perm_middle_append (done before between behind : List (UInt64 × UInt64)) :
    (done ++ (before ++ (between ++ behind))).Perm ((done ++ between) ++ (before ++ behind)) := by
  rw [List.append_assoc]
  exact (List.perm_append_comm_assoc before between behind).append_left done

/--
A turn takes the callers on if it takes the caller on whose turn it is and leaves the others where
they are. The slot that the turn is about agrees afterwards, or the caller owes its value.
-/
theorem Follows.turn (h : Follows t calls done ⟨t₁, before ++ x :: behind⟩)
    (hnull : ∀ e ∈ done, e.1 ≠ nullKey)
    (hleaves : Leaves (t.setAll done) (t.setAll done') t₁ t₂ done done')
    (hperm : (done' ++ y.ahead).Perm (done ++ x.ahead))
    (hbits : t₂.bits = t₁.bits) (hcursor : t₂.cursor = t₁.cursor)
    (hkey : ∀ i, (t₂.slot i).key = ((t.setAll done').slot i).key)
    (hat : y.IsAt t₂ (t.setAll done') done')
    (hslot : ∀ i, t₂.slot i = (t.setAll done').slot i ∨ y.Owes t₂.slotCount i ∨
      t₂.slot i = t₁.slot i ∧ (t.setAll done').slot i = (t.setAll done).slot i ∧
        ¬ x.Owes t₁.slotCount i)
    (hrefused : y.refused + t.refusals done = x.refused + t.refusals done') :
    Follows t calls done' ⟨t₂, before ++ y :: behind⟩ where
  perm := by
    have hold := h.perm
    simp only [Crew.ahead, List.flatMap_append, List.flatMap_cons] at hold ⊢
    refine (perm_middle_append ..).trans (.trans (hperm.append_right _) ?_)
    exact (perm_middle_append ..).symm.trans hold
  bits := hbits.trans h.bits
  cursor := hcursor.trans h.cursor
  key_eq := hkey
  isAt z hz := by
    have hall := h.isAt
    simp only [List.mem_append, List.mem_cons] at hz hall
    rcases hz with hz | rfl | hz
    · exact hleaves.isAt hnull (hall z (.inl hz))
    · exact hat
    · exact hleaves.isAt hnull (hall z (.inr (.inr hz)))
  slot_eq i := by
    rcases hslot i with heq | howes | ⟨h₂, hs', hx⟩
    · exact .inl heq
    · exact .inr ⟨y, by simp, howes⟩
    · rcases h.slot_eq i with heq | ⟨z, hz, howes⟩
      · exact .inl (h₂.trans (heq.trans hs'.symm))
      · refine .inr ⟨z, ?_, hleaves.slotCount_eq.symm ▸ howes⟩
        simp only [List.mem_append, List.mem_cons] at hz ⊢
        rcases hz with hz | rfl | hz
        · exact .inl hz
        · exact absurd howes hx
        · exact .inr (.inr hz)
  refused_eq := by
    have hold := h.refused_eq
    simp only [Crew.refused, List.map_append, List.map_cons, List.sum_append, List.sum_cons]
      at hold ⊢
    omega

theorem Follows.slotCount_setAll {c : Crew} (h : Follows t calls done c) :
    (t.setAll done).slotCount = c.table.slotCount := by
  rw [slotCount_eq, slotCount_eq, (t.shape_setAll done).1, h.bits]

section Storable

variable (h : Follows t calls done ⟨t₁, before ++ x :: behind⟩) (hs : Storable calls)

include h hs

theorem Follows.storable : Storable (done ++ Crew.ahead ⟨t₁, before ++ x :: behind⟩) :=
  hs.perm h.perm

theorem Follows.key_ne_nullKey {e : UInt64 × UInt64} (he : e ∈ done) : e.1 ≠ nullKey :=
  (h.storable hs).key_ne e (List.mem_append_left _ he)

theorem Follows.key_of_ahead (hx : e ∈ x.ahead) : e.1 ≠ nullKey ∧ ∀ f ∈ done, f.1 ≠ e.1 := by
  have hmem : e ∈ Crew.ahead ⟨t₁, before ++ x :: behind⟩ :=
    List.mem_flatMap.mpr ⟨x, by simp, hx⟩
  refine ⟨(h.storable hs).key_ne e (List.mem_append_right _ hmem), fun f hf heq => ?_⟩
  have hnodup := (h.storable hs).nodup
  rw [List.map_append, List.nodup_append] at hnodup
  exact hnodup.2.2 f.1 (List.mem_map_of_mem hf) e.1 (List.mem_map_of_mem hmem) heq

theorem Follows.quiet (hahead : y.ahead = x.ahead) (hrefused : y.refused = x.refused)
    (hnot : ∀ n i, ¬ x.Owes n i) (hat : y.IsAt t₁ (t.setAll done) done) :
    Follows t calls done ⟨t₁, before ++ y :: behind⟩ := by
  have hleaves : Leaves (t.setAll done) (t.setAll done) t₁ t₁ done done :=
    ⟨List.Subset.refl _, rfl, fun _ _ => rfl, fun _ _ _ _ => rfl⟩
  exact h.turn (fun _ => h.key_ne_nullKey hs) hleaves (hahead ▸ .refl _) rfl rfl h.key_eq hat
    (fun i => .inr (.inr ⟨rfl, rfl, hnot _ i⟩)) (by rw [hrefused])

theorem Follows.claim (hx : x.ahead = e :: x.waiting) (hn : steps < t₁.slotCount)
    (hpassed : t₁.Passed e.1 steps) (hi : i = t₁.home e.1 + steps)
    (hfound : (t₁.slot i).key = e.1 ∨ (t₁.slot i).key = nullKey)
    (hbits : t₂.bits = t₁.bits) (hcursor : t₂.cursor = t₁.cursor)
    (hself : (t₂.slot i).key = e.1)
    (hother : ∀ j, i % t₁.slotCount ≠ j % t₁.slotCount → t₂.slot j = t₁.slot j) :
    Follows t calls (done ++ [e])
      ⟨t₂, before ++ { x with current := some (e, .swapValue i) } :: behind⟩ := by
  obtain ⟨hk, hnew⟩ := h.key_of_ahead hs (hx ▸ List.mem_cons_self)
  have hslots : (t.setAll done).slotCount = t₁.slotCount := h.slotCount_setAll
  have hslots₂ : t₂.slotCount = t₁.slotCount := by rw [slotCount_eq, slotCount_eq, hbits]
  have hself' {j : Nat} (hij : i % t₁.slotCount = j % t₁.slotCount) : (t₂.slot j).key = e.1 := by
    rw [← hself, slot_congr (t := t₂) (i := j) (j := i) (by rw [hslots₂, hij])]
  have hlocate : (t.setAll done).locate e.1 = some i := by
    have hhome : (t.setAll done).home e.1 = t₁.home e.1 := by simp only [home, hslots]
    have hpassed' : (t.setAll done).Passed e.1 steps :=
      hpassed.mono hslots fun j _ => (h.key_eq j).symm
    rw [hi, ← hhome]
    refine locate_of_passed (hslots.symm ▸ hn) hpassed' ?_
    rw [hhome, ← hi, ← h.key_eq i]
    exact hfound
  have hset := set_of_locate hk hlocate e.2
  have hslot (j : Nat) : (t.setAll (done ++ [e])).slot j =
      if i % t₁.slotCount = j % t₁.slotCount then ⟨e.1, e.2⟩ else (t.setAll done).slot j := by
    rw [setAll_append, hset, slot_setSlot, hslots]
  refine h.turn (fun _ => h.key_ne_nullKey hs) ⟨?_, hslots₂, fun j hj => ?_, fun j f hf hj => ?_⟩
    ?_ hbits hcursor (fun j => ?_) ?_ (fun j => ?_) ?_
  · exact List.subset_append_left done [e]
  · by_cases hij : i % t₁.slotCount = j % t₁.slotCount
    · rw [← slot_congr hij] at hj
      rw [hself' hij, ← slot_congr hij, hfound.resolve_right hj]
    · rw [hother j hij]
  · rw [hslot, if_neg fun hij => ?_]
    rw [← slot_congr hij] at hj
    rcases hfound with hfound | hfound
    · exact hnew f hf (hj.symm.trans hfound)
    · exact h.key_ne_nullKey hs hf (hj.symm.trans hfound)
  · rw [hx, List.append_assoc]
    exact .refl _
  · rw [hslot]
    split
    · next hij => exact hself' hij
    · next hij => rw [hother j hij, h.key_eq j]
  · refine ⟨List.mem_append_right done (List.mem_singleton_self e), hself, ?_⟩
    rw [hslot, if_pos rfl]
  · by_cases hij : i % t₁.slotCount = j % t₁.slotCount
    · exact .inr (.inl ⟨e, i, rfl, hslots₂.symm ▸ hij⟩)
    · exact .inr (.inr ⟨hother j hij, by rw [hslot, if_neg hij], Caller.not_owes_of_ahead hx _ j⟩)
  · rw [refusals_append, hset]
    rfl

theorem Follows.refuse (hx : x.ahead = e :: x.waiting) (hpassed : t₁.Passed e.1 t₁.slotCount) :
    Follows t calls (done ++ [e]) ⟨t₁, before ++
      { x with current := none, answers := x.answers ++ [.error .full] } :: behind⟩ := by
  obtain ⟨hk, -⟩ := h.key_of_ahead hs (hx ▸ List.mem_cons_self)
  have hslots : (t.setAll done).slotCount = t₁.slotCount := h.slotCount_setAll
  have hlocate : (t.setAll done).locate e.1 = none := by
    refine locate_of_passed_all ?_
    rw [hslots]
    exact hpassed.mono hslots fun j _ => (h.key_eq j).symm
  have hset := set_of_locate_eq_none hk hlocate e.2
  have hsetAll : t.setAll (done ++ [e]) = t.setAll done := by rw [setAll_append, hset]
  refine h.turn (fun _ => h.key_ne_nullKey hs)
    ⟨List.subset_append_left done [e], rfl, fun _ _ => rfl, fun _ _ _ _ => by rw [hsetAll]⟩
    ?_ rfl rfl (fun j => ?_) trivial (fun j => ?_) ?_
  · rw [hx, List.append_assoc]
    exact .refl _
  · rw [hsetAll, h.key_eq j]
  · exact .inr (.inr ⟨rfl, by rw [hsetAll], Caller.not_owes_of_ahead hx _ j⟩)
  · rw [refusals_append, hset, Caller.refused, List.countP_append]
    show _ + 1 + _ = _ + (_ + 1)
    rw [Caller.refused]
    omega

theorem Follows.swap (hx : x.current = some (e, .swapValue i)) (old : UInt64) :
    Follows t calls done ⟨t₁.setSlot i { t₁.slot i with value := e.2 }, before ++
      { x with current := none, answers := x.answers ++ [.ok old] } :: behind⟩ := by
  have hat : x.IsAt t₁ (t.setAll done) done := h.isAt x (by simp)
  rw [Caller.IsAt, hx] at hat
  obtain ⟨-, -, hvalue⟩ := hat
  have hslots : (t.setAll done).slotCount = t₁.slotCount := h.slotCount_setAll
  have hkey (j : Nat) :
      ((t₁.setSlot i { t₁.slot i with value := e.2 }).slot j).key = (t₁.slot j).key := by
    rw [slot_setSlot]
    split
    · next hij => rw [slot_congr hij]
    · rfl
  refine h.turn (fun _ => h.key_ne_nullKey hs)
    ⟨List.Subset.refl _, slotCount_setSlot .., fun j _ => hkey j, fun _ _ _ _ => rfl⟩
    ?_ rfl rfl (fun j => ?_) trivial (fun j => ?_) ?_
  · rw [Caller.ahead, Caller.ahead, hx]
  · rw [hkey, h.key_eq j]
  · rw [slot_setSlot]
    by_cases hij : i % t₁.slotCount = j % t₁.slotCount
    · left
      have hself : Slot.mk (t₁.slot i).key e.2 = (t.setAll done).slot i := by
        rw [show (t₁.slot i).key = _ from h.key_eq i, ← hvalue]
      rw [if_pos hij, ← slot_congr (t := t.setAll done) (hslots.symm ▸ hij)]
      exact hself
    · refine .inr (.inr ⟨if_neg hij, rfl, ?_⟩)
      rintro ⟨f, k, hk, hkj⟩
      cases hx.symm.trans hk
      exact hij hkj
  · simp [Caller.refused, isFull]

end Storable

theorem Follows.pass (h : Follows t calls done ⟨t₁, before ++ x :: behind⟩) (hs : Storable calls)
    (hx : x.ahead = e :: x.waiting) (hn : steps < t₁.slotCount)
    (hpassed : t₁.Passed e.1 (steps + 1)) :
    ∃ done', Follows t calls done'
      ⟨t₁, before ++ x.proceed e (.pass t₁ steps) :: behind⟩ := by
  unfold Next.pass
  split
  · next hlt => exact ⟨done, h.quiet hs hx.symm rfl (Caller.not_owes_of_ahead hx) ⟨hlt, hpassed⟩⟩
  · next hlast =>
    have hall : steps + 1 = t₁.slotCount := by omega
    exact ⟨done ++ [e], h.refuse hs hx (hall ▸ hpassed)⟩

theorem Follows.callerTurn (h : Follows t calls done ⟨t₁, before ++ x :: behind⟩)
    (hs : Storable calls) :
    ∃ done', Follows t calls done' ⟨(x.turn t₁).2, before ++ (x.turn t₁).1 :: behind⟩ := by
  have hat : x.IsAt t₁ (t.setAll done) done := h.isAt x (by simp)
  obtain ⟨waiting, current, answers⟩ := x
  match current with
  | none =>
    match waiting with
    | [] => exact ⟨done, h⟩
    | e :: waiting =>
      have hk := (h.key_of_ahead hs (e := e) List.mem_cons_self).1
      simp only [Caller.turn, Next.first, if_neg hk, Caller.proceed]
      exact ⟨done, h.quiet hs rfl rfl nofun ⟨t₁.slotCount_pos, nofun⟩⟩
  | some (e, .loadKey steps) =>
    obtain ⟨hn, hpassed⟩ := hat
    simp only [Caller.turn, Access.perform]
    split
    · next hkey =>
      exact ⟨_, h.claim hs rfl hn hpassed rfl (.inl hkey) rfl rfl hkey fun _ _ => rfl⟩
    · next hkey =>
      split
      · exact ⟨done, h.quiet hs rfl rfl (Caller.not_owes_of_ahead rfl) ⟨hn, hpassed⟩⟩
      · next hnull => exact h.pass hs rfl hn (hpassed.succ hkey hnull)
  | some (e, .claimKey steps) =>
    obtain ⟨hn, hpassed⟩ := hat
    simp only [Caller.turn, Access.perform]
    split
    · next hnull =>
      refine ⟨_, h.claim hs rfl hn hpassed rfl (.inr hnull) rfl rfl ?_ fun j hij => ?_⟩
      · rw [slot_setSlot, if_pos rfl]
      · rw [slot_setSlot, if_neg hij]
    · next hnull =>
      split
      · next hkey =>
        exact ⟨_, h.claim hs rfl hn hpassed rfl (.inl hkey) rfl rfl hkey fun _ _ => rfl⟩
      · next hkey => exact h.pass hs rfl hn (hpassed.succ hkey hnull)
  | some (e, .swapValue i) => exact ⟨done, h.swap hs rfl _⟩

end Turn

theorem Follows.crewTurn {c : Crew} (h : Follows t calls done c) (hs : Storable calls) (w : Nat) :
    ∃ done', Follows t calls done' (c.turn w) := by
  obtain ⟨table, callers⟩ := c
  unfold Crew.turn
  split
  · exact ⟨done, h⟩
  next caller hw =>
  obtain ⟨hlt, rfl⟩ := List.getElem?_eq_some_iff.mp hw
  have hsplit : callers = callers.take w ++ callers[w] :: callers.drop (w + 1) := by
    rw [← List.drop_eq_getElem_cons hlt, List.take_append_drop]
  rw [hsplit] at h
  obtain ⟨done', h'⟩ := h.callerTurn hs
  refine ⟨done', ?_⟩
  show Follows t calls done' ⟨(callers[w].turn table).2, callers.set w (callers[w].turn table).1⟩
  rw [List.set_eq_take_append_cons_drop, if_pos hlt]
  exact h'

theorem Follows.run {c : Crew} (h : Follows t calls done c) (hs : Storable calls)
    (schedule : List Nat) : ∃ done', Follows t calls done' (c.run schedule) := by
  induction schedule generalizing c done with
  | nil => exact ⟨done, h⟩
  | cons w schedule ih =>
    obtain ⟨done', h'⟩ := h.crewTurn hs w
    exact ih h'

theorem Follows.eq_of_isDone {c : Crew} (h : Follows t calls done c) (hdone : c.isDone) :
    done.Perm calls ∧ c.table = t.setAll done ∧ c.refused = t.refusals done := by
  have hidle {x : Caller} (hx : x ∈ c.callers) : x.current = none ∧ x.waiting = [] := by
    have hall := List.all_eq_true.mp hdone x hx
    rwa [Caller.isDone, Bool.and_eq_true, Option.isNone_iff_eq_none, List.isEmpty_iff] at hall
  have hahead : c.ahead = [] := by
    refine List.flatMap_eq_nil_iff.mpr fun x hx => ?_
    obtain ⟨hcurrent, hwaiting⟩ := hidle hx
    rw [Caller.ahead, hcurrent, hwaiting]
  have hperm := h.perm
  rw [hahead, List.append_nil] at hperm
  refine ⟨hperm, ?_, h.refused_eq⟩
  obtain ⟨hbits, hcursor⟩ := t.shape_setAll done
  refine eq_of_slots (h.bits.trans hbits.symm) (h.cursor.trans hcursor.symm) fun i => ?_
  rcases h.slot_eq i with heq | ⟨x, hx, e, j, howes, -⟩
  · exact heq
  · rw [(hidle hx).1] at howes
    cases howes

/--
However the callers take turns, when they are done they have left behind the table that their calls
leave behind one after the other, in some order, and as many of them were refused.
-/
theorem exists_order_of_run (t : KeyTable) (hs : Storable calls)
    {lists : List (List (UInt64 × UInt64))} (hperm : lists.flatten.Perm calls)
    {schedule : List Nat} (hdone : ((Crew.atRest t lists).run schedule).isDone) :
    ∃ order, order.Perm calls ∧
      ((Crew.atRest t lists).run schedule).table = t.setAll order ∧
      ((Crew.atRest t lists).run schedule).refused = t.refusals order := by
  obtain ⟨done, h⟩ := (follows_atRest t hperm).run hs schedule
  exact ⟨done, h.eq_of_isDone hdone⟩

/--
The order in which different keys are stored does not matter, whatever table they are stored in.
Calls one after the other in any order, and callers who share the calls and take turns at single
accesses in any way, leave the same slots claimed and as many keys with a value, and as many calls
are refused. If none is refused, every key has the same value.
-/
theorem Made.order_irrelevant (h : Made t) (hs : Storable calls) :
    (∀ order, order.Perm calls →
      SameEnd (t.setAll order) (t.setAll calls) (t.refusals order) (t.refusals calls)) ∧
    ∀ lists, lists.flatten.Perm calls → ∀ schedule,
      let crew := (Crew.atRest t lists).run schedule
      crew.isDone →
        SameEnd crew.table (t.setAll calls) crew.refused (t.refusals calls) := by
  refine ⟨fun order hperm => h.isProbing.sameEnd_perm hs hperm, fun lists hperm schedule => ?_⟩
  intro crew hdone
  obtain ⟨order, horder, htable, hrefused⟩ := exists_order_of_run t hs hperm hdone
  rw [htable, hrefused]
  exact h.isProbing.sameEnd_perm hs horder

def crowdedCalls : List Call :=
  [.set 0 1, .set 1 1, .set 2 1, .set 3 1, .set 4 1, .set 5 1, .remove 5]

def rivalCalls : List (UInt64 × UInt64) := [(7, 1), (15, 2), (5, 4), (23, 3)]

theorem order_irrelevant_rivals :
    let t := (empty 3).after crowdedCalls
    let crew := (Crew.atRest t [[(23, 3), (7, 1)], [(15, 2), (5, 4)]]).run
      (List.replicate 24 [0, 1]).flatten
    Made t ∧ Storable rivalCalls ∧ crew.isDone ∧ t.refusals rivalCalls = 1 ∧
      SameEnd (t.setAll rivalCalls.reverse) (t.setAll rivalCalls) (t.refusals rivalCalls.reverse)
        (t.refusals rivalCalls) ∧
      SameEnd crew.table (t.setAll rivalCalls) crew.refused (t.refusals rivalCalls) := by
  intro t crew
  have hnew : withCapacity 3 = .ok (empty 3) := rfl
  have hmade : Made t := (Made.create hnew).after crowdedCalls
  have hs : Storable rivalCalls := by
    refine ⟨by decide, ?_, ?_⟩ <;> simp [rivalCalls, nullKey, nullValue]
  have hdone : crew.isDone := by decide +kernel
  obtain ⟨horders, hcrews⟩ := hmade.order_irrelevant hs
  exact ⟨hmade, hs, hdone, by decide +kernel, horders _ rivalCalls.reverse_perm,
    hcrews _ (by decide) _ hdone⟩

end MemoryKit.KeyTable
