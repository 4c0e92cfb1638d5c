import MemoryKit.Proofs.KeyTable.Contents

/-! # Migrations

The entries of a table are copied into another one, some with each call, while the target goes on
being used. The cursor moves past a slot before its entry is stored, so that an entry that finds no
room is not tried again: it is missed, also if there is room later. Every other entry has a value in
the target once the migration is complete.
-/

namespace MemoryKit.KeyTable

variable {source target t : KeyTable} {key value : UInt64} {limit moved steps n i j : Nat}

theorem isLive_iff {s : Slot} : s.isLive = true ↔ s.key ≠ nullKey ∧ s.value ≠ nullValue := by
  simp only [Slot.isLive, Bool.and_eq_true, bne_iff_ne]

theorem IsProbing.get_of_isLive (h : t.IsProbing) (hi : (t.slot i).isLive = true) :
    t.get (t.slot i).key = (t.slot i).value ∧ t.get (t.slot i).key ≠ nullValue := by
  obtain ⟨hk, hv⟩ := isLive_iff.mp hi
  rw [h.get_claimed hk]
  exact ⟨rfl, hv⟩

theorem IsProbing.exists_isLive (h : t.IsProbing) (hv : t.get key ≠ nullValue) :
    ∃ i < t.slotCount, (t.slot i).isLive = true ∧ (t.slot i).key = key := by
  obtain ⟨hk, i, rfl⟩ := mem_claimants.mp (mem_claimants_of_get hv)
  rw [h.get_claimed hk] at hv
  refine ⟨i % t.slotCount, Nat.mod_lt _ t.slotCount_pos, ?_⟩
  rw [slot_mod]
  exact ⟨isLive_iff.mpr ⟨hk, hv⟩, rfl⟩

theorem IsProbing.eq_of_key_eq (h : t.IsProbing) (hi : i < t.slotCount) (hj : j < t.slotCount)
    (hlive : (t.slot i).isLive = true) (he : (t.slot i).key = (t.slot j).key) : i = j := by
  have hmod := h.distinct i j (isLive_iff.mp hlive).1 he
  rwa [Nat.mod_eq_of_lt hi, Nat.mod_eq_of_lt hj] at hmod

theorem IsProbing.insert_of_refused (h : t.IsProbing) (hk : key ≠ nullKey) {e : KeyTableError}
    (he : (t.insert key value).1 = .error e) :
    (t.insert key value).2 = t ∧ t.get key = nullValue := by
  constructor
  · exact insert_error (Prod.ext he rfl)
  · rw [(h.insert_spec key value).1, Contents.stored, Contents.refusal?, if_neg hk] at he
    by_cases hfull : key ∉ t.contents.claimed ∧ t.contents.claimed.card = t.slotCount
    · exact t.contents.value_of_notMem key hfull.1
    · rw [if_neg hfull] at he
      cases he

theorem eq_full_of_migrateLoop {e : KeyTableError}
    (he : (migrateLoop source target moved limit steps).1 = .error e) : e = .full := by
  induction steps generalizing source target moved with
  | zero => cases he
  | succ steps ih =>
    rw [migrateLoop] at he
    split at he
    · cases he
    · dsimp only at he
      split at he
      · next hlive =>
        split at he
        · exact ih he
        · next hi =>
          cases he
          unfold KeyTable.insert positionFor at hi
          rw [if_neg (isLive_iff.mp hlive).1] at hi
          split at hi
          · next hp =>
            split at hp <;> cases hp
            cases hi
            rfl
          · cases hi
      · exact ih he

/-- Only a migration moves the cursor, and only `clear` takes it back. -/
theorem cursor_serve {q : Call} (hq : q ≠ .clear) : (t.serve q).2.cursor = t.cursor := by
  cases q with
  | set key value =>
    simp only [serve, KeyTable.set]
    split <;> rfl
  | insert key value =>
    simp only [serve, KeyTable.insert]
    split
    · rfl
    · dsimp only
      split <;> rfl
  | remove key =>
    simp only [serve, KeyTable.remove]
    split <;> rfl
  | reclaim =>
    simp only [serve, KeyTable.reclaim]
    split <;> rfl
  | get | size | entries => rfl
  | clear => exact absurd rfl hq

theorem cursor_after (h : t.cursor = 0) (calls : List Call) : (t.after calls).cursor = 0 := by
  induction calls generalizing t with
  | nil => exact h
  | cons q calls ih =>
    apply ih
    by_cases hq : q = .clear
    · rw [hq]
      rfl
    · rw [cursor_serve hq, h]

structure Migration where
  source : KeyTable
  target : KeyTable
  missed : List UInt64

namespace Migration

variable {m : Migration}

/-- What a call leaves behind. If it fails, the slot that it came to last is missed. -/
def resume {ρ : Type} (missed : List UInt64) :
    Except KeyTableError ρ × KeyTable × KeyTable → Migration
  | (.ok _, source, target) => ⟨source, target, missed⟩
  | (.error _, source, target) =>
    ⟨source, target, (source.slot (source.cursor - 1)).key :: missed⟩

def copy (m : Migration) (limit : Nat) : Migration :=
  resume m.missed (m.source.migrate m.target limit)

def visit (m : Migration) : Migration :=
  let s := m.source.slot m.source.cursor
  let source := { m.source with cursor := m.source.cursor + 1 }
  if s.isLive then
    match m.target.insert s.key s.value with
    | (.ok _, target) => ⟨source, target, m.missed⟩
    | (.error _, target) => ⟨source, target, s.key :: m.missed⟩
  else ⟨source, m.target, m.missed⟩

/--
Entries are copied with any limits. In between the target is used by calls that leave the keys of
the source alone.
-/
inductive Run (source target : KeyTable) : Migration → Prop where
  | start : Run source target ⟨source, target, []⟩
  | copy {m : Migration} (limit : Nat) : Run source target m → Run source target (m.copy limit)
  | call {m : Migration} (q : Call) : Run source target m →
      (∀ key, source.get key ≠ nullValue → (m.target.serve q).2.get key = m.target.get key) →
      Run source target { m with target := (m.target.serve q).2 }

theorem exists_visits_of_loop (m : Migration) (moved limit steps : Nat) :
    ∃ n ≤ steps,
      resume m.missed (migrateLoop m.source m.target moved limit steps) = visit^[n] m := by
  induction steps generalizing m moved with
  | zero => exact ⟨0, Nat.le_refl _, rfl⟩
  | succ steps ih =>
    rw [migrateLoop]
    by_cases hlimit : limit ≤ moved
    · rw [if_pos hlimit]
      exact ⟨0, Nat.zero_le _, rfl⟩
    rw [if_neg hlimit]
    dsimp only
    cases hlive : (m.source.slot m.source.cursor).isLive with
    | false =>
      have hvisit : m.visit =
          ⟨{ m.source with cursor := m.source.cursor + 1 }, m.target, m.missed⟩ := by
        simp only [visit, hlive, Bool.false_eq_true, if_false]
      obtain ⟨n, hn, he⟩ := ih m.visit moved
      rw [hvisit] at he
      refine ⟨n + 1, by omega, ?_⟩
      rw [Function.iterate_succ_apply, hvisit, ← he]
      rfl
    | true =>
      cases hi : m.target.insert (m.source.slot m.source.cursor).key
          (m.source.slot m.source.cursor).value with
      | mk answer target =>
        cases answer with
        | ok old =>
          have hvisit : m.visit =
              ⟨{ m.source with cursor := m.source.cursor + 1 }, target, m.missed⟩ := by
            simp only [visit, hlive, hi, if_true]
          obtain ⟨n, hn, he⟩ := ih m.visit (moved + 1)
          rw [hvisit] at he
          refine ⟨n + 1, by omega, ?_⟩
          rw [Function.iterate_succ_apply, hvisit, ← he]
          rfl
        | error e =>
          refine ⟨1, by omega, ?_⟩
          simp only [Function.iterate_one, visit, hlive, hi, if_true]
          rfl

theorem copy_eq (hle : m.source.slotCount ≤ m.target.slotCount) (limit : Nat) :
    m.copy limit = resume m.missed
      (migrateLoop m.source m.target 0 limit (m.source.slotCount - m.source.cursor)) := by
  rw [copy, migrate, if_neg (Nat.not_lt.mpr hle)]
  obtain ⟨result, source, target⟩ :=
    migrateLoop m.source m.target 0 limit (m.source.slotCount - m.source.cursor)
  cases result <;> rfl

/--
The entries in front of the cursor have come to the target unless they were missed, and those behind
it have not. A value that the target had at the start is newer than that of the source.
-/
structure IsFaithful (source target : KeyTable) (m : Migration) : Prop where
  source_eq : m.source = { source with cursor := m.source.cursor }
  cursor_le : m.source.cursor ≤ source.slotCount
  probing : m.target.IsProbing
  slotCount_eq : m.target.slotCount = target.slotCount
  missed : ∀ key ∈ m.missed, target.get key = nullValue ∧
    ∃ i < m.source.cursor, (source.slot i).isLive = true ∧ (source.slot i).key = key
  value : ∀ i < source.slotCount, (source.slot i).isLive = true →
    m.target.get (source.slot i).key =
      if i < m.source.cursor ∧ (source.slot i).key ∉ m.missed ∧
        target.get (source.slot i).key = nullValue then (source.slot i).value
      else target.get (source.slot i).key

theorem isFaithful_start (ht : target.IsProbing) (hcursor : source.cursor = 0) :
    IsFaithful source target ⟨source, target, []⟩ where
  source_eq := rfl
  cursor_le := by
    rw [hcursor]
    exact Nat.zero_le _
  probing := ht
  slotCount_eq := rfl
  missed := nofun
  value i _ _ := by
    rw [hcursor, if_neg]
    rintro ⟨hi, -⟩
    exact Nat.not_lt_zero i hi

section

variable (hs : source.IsProbing) (h : IsFaithful source target m)

include hs h

theorem IsFaithful.notMem_missed (hi : i < source.slotCount) (hle : m.source.cursor ≤ i) :
    (source.slot i).key ∉ m.missed := by
  intro hmem
  obtain ⟨-, j, hj, hlive, he⟩ := h.missed _ hmem
  have heq : j = i := hs.eq_of_key_eq (by omega) hi hlive he
  omega

theorem IsFaithful.advance {missed : List UInt64} {s : Slot}
    (hc : m.source.cursor < source.slotCount)
    (hslot : source.slot m.source.cursor = s) (ht : t.IsProbing)
    (hcount : t.slotCount = m.target.slotCount)
    (hothers : ∀ key, key ≠ s.key → t.get key = m.target.get key)
    (hmissed : missed = m.missed ∨ missed = s.key :: m.missed ∧ s.isLive = true ∧
      m.target.get s.key = nullValue)
    (hvalue : s.isLive = true → t.get s.key =
      if s.key ∉ missed ∧ m.target.get s.key = nullValue then s.value else m.target.get s.key) :
    IsFaithful source target
      ⟨{ m.source with cursor := m.source.cursor + 1 }, t, missed⟩ := by
  subst hslot
  -- The entry at the cursor has not been visited, so the target has what it had at the start.
  have hstart (hlive : (source.slot m.source.cursor).isLive = true) :
      m.target.get (source.slot m.source.cursor).key =
        target.get (source.slot m.source.cursor).key := by
    rw [h.value _ hc hlive, if_neg]
    rintro ⟨hlt, -⟩
    exact Nat.lt_irrefl _ hlt
  refine ⟨?_, hc, ht, hcount.trans h.slotCount_eq, ?_, ?_⟩
  · rw [h.source_eq]
  · intro key hmem
    have hbefore (hmem : key ∈ m.missed) : target.get key = nullValue ∧
        ∃ i < m.source.cursor + 1, (source.slot i).isLive = true ∧ (source.slot i).key = key := by
      obtain ⟨hnull, i, hi, hlive⟩ := h.missed key hmem
      exact ⟨hnull, i, Nat.lt_succ_of_lt hi, hlive⟩
    rcases hmissed with rfl | ⟨rfl, hlive, hnull⟩
    · exact hbefore hmem
    · rcases List.mem_cons.mp hmem with rfl | hmem
      · exact ⟨(hstart hlive).symm.trans hnull, _, Nat.lt_succ_self _, hlive, rfl⟩
      · exact hbefore hmem
  · intro i hi hlive
    dsimp only
    rcases Nat.lt_trichotomy i m.source.cursor with hlt | rfl | hgt
    · have hne : (source.slot i).key ≠ (source.slot m.source.cursor).key := by
        intro he
        exact Nat.ne_of_lt hlt (hs.eq_of_key_eq hi hc hlive he)
      have hmem : (source.slot i).key ∈ missed ↔ (source.slot i).key ∈ m.missed := by
        rcases hmissed with rfl | ⟨rfl, -⟩
        · rfl
        · rw [List.mem_cons, or_iff_right hne]
      rw [hothers _ hne, h.value i hi hlive]
      simp only [hlt, Nat.lt_succ_of_lt hlt, hmem]
    · rw [hvalue hlive, hstart hlive]
      simp only [Nat.lt_succ_self, true_and]
    · have hne : (source.slot i).key ≠ (source.slot m.source.cursor).key := by
        intro he
        exact Nat.ne_of_gt hgt (hs.eq_of_key_eq hi hc hlive he)
      rw [hothers _ hne, h.value i hi hlive, if_neg, if_neg]
      · rintro ⟨hlt, -⟩
        omega
      · rintro ⟨hlt, -⟩
        omega

theorem IsFaithful.visit (hc : m.source.cursor < source.slotCount) :
    IsFaithful source target m.visit ∧ m.visit.source.cursor = m.source.cursor + 1 := by
  have hslot : source.slot m.source.cursor = m.source.slot m.source.cursor := by
    rw [h.source_eq]
    rfl
  unfold Migration.visit
  set s := m.source.slot m.source.cursor
  dsimp only
  cases hlive : s.isLive with
  | false =>
    refine ⟨h.advance hs hc hslot h.probing rfl (fun _ _ => rfl) (.inl rfl) ?_, rfl⟩
    rw [hlive]
    nofun
  | true =>
    have hk := (isLive_iff.mp hlive).1
    cases hi : m.target.insert s.key s.value with
    | mk answer t =>
      cases answer with
      | ok old =>
        obtain ⟨-, ht, hget⟩ := h.probing.insert hi
        refine ⟨h.advance hs hc hslot ht ?_ ?_ (.inl rfl) ?_, rfl⟩
        · have hcount := (h.probing.insert_spec s.key s.value).2.2.1
          rwa [hi] at hcount
        · intro key hne
          rw [hget, if_neg]
          exact fun he => hne he.1
        · intro _
          have hnew := h.notMem_missed hs hc (Nat.le_refl _)
          rw [hslot] at hnew
          simp only [hget, hnew, not_false_eq_true, true_and]
      | error e =>
        obtain ⟨hkept, hnull⟩ := h.probing.insert_of_refused hk (congrArg Prod.fst hi)
        obtain rfl : t = m.target := (congrArg Prod.snd hi).symm.trans hkept
        refine ⟨?_, rfl⟩
        apply h.advance hs hc hslot h.probing rfl (fun _ _ => rfl) (.inr ⟨rfl, hlive, hnull⟩)
        intro _
        simp only [List.mem_cons_self, not_true_eq_false, false_and, if_false]

theorem IsFaithful.visits (hn : m.source.cursor + n ≤ source.slotCount) :
    IsFaithful source target (Migration.visit^[n] m) := by
  induction n generalizing m with
  | zero => exact h
  | succ n ih =>
    obtain ⟨hvisit, hcursor⟩ := h.visit hs (by omega)
    rw [Function.iterate_succ_apply]
    apply ih hvisit
    rw [hcursor]
    omega

theorem IsFaithful.copy (hle : source.slotCount ≤ target.slotCount) (limit : Nat) :
    IsFaithful source target (m.copy limit) := by
  have hcount : m.source.slotCount = source.slotCount := by
    rw [h.source_eq]
    rfl
  have hcursor := h.cursor_le
  rw [copy_eq (by rw [hcount, h.slotCount_eq]; exact hle)]
  obtain ⟨n, hn, he⟩ := m.exists_visits_of_loop 0 limit (m.source.slotCount - m.source.cursor)
  rw [he]
  apply h.visits hs
  omega

theorem IsFaithful.get_eq (hend : source.slotCount ≤ m.source.cursor)
    (hv : source.get key ≠ nullValue) :
    m.target.get key =
      if key ∈ m.missed then nullValue
      else if target.get key = nullValue then source.get key else target.get key := by
  obtain ⟨i, hi, hlive, rfl⟩ := hs.exists_isLive hv
  rw [h.value i hi hlive, (hs.get_of_isLive hlive).1]
  by_cases hmem : (source.slot i).key ∈ m.missed
  · rw [if_pos hmem, if_neg]
    · exact (h.missed _ hmem).1
    · exact fun hall => hall.2.1 hmem
  · simp only [hmem, Nat.lt_of_lt_of_le hi hend, not_false_eq_true, true_and, if_false]

end

theorem IsFaithful.call (h : IsFaithful source target m) (hs : source.IsProbing) {q : Call}
    (hq : ∀ key, source.get key ≠ nullValue → (m.target.serve q).2.get key = m.target.get key) :
    IsFaithful source target { m with target := (m.target.serve q).2 } := by
  obtain ⟨ht, hcount, -, -⟩ := h.probing.serve_spec q
  refine ⟨h.source_eq, h.cursor_le, ht, hcount.trans h.slotCount_eq, h.missed, ?_⟩
  intro i hi hlive
  exact (hq _ (hs.get_of_isLive hlive).2).trans (h.value i hi hlive)

section

variable (hs : source.IsProbing) (hcursor : source.cursor = 0) (ht : target.IsProbing)
  (hle : source.slotCount ≤ target.slotCount) (h : Run source target m)

include hs hcursor ht hle h

theorem Run.isFaithful : IsFaithful source target m := by
  induction h with
  | start => exact isFaithful_start ht hcursor
  | copy limit _ ih => exact ih.copy hs hle limit
  | call q _ hq ih => exact ih.call hs hq

theorem Run.makeRoom (hv : source.get key = nullValue) :
    Run source target { m with target := m.target.after [.remove key, .reclaim] } := by
  obtain ⟨hremoved, hget⟩ := (h.isFaithful hs hcursor ht hle).probing.remove key
  apply Run.call .reclaim (.call (.remove key) h _)
  · exact fun other _ => hremoved.reclaim.2.1 other
  · intro other hother
    refine (hget other).trans (if_neg ?_)
    rintro rfl
    exact hother hv

/--
A call fails only for want of room, and then the entry of one key is missed. When a call tells that
the migration is complete, the keys that were missed have no value in the target. Every other key of
the source has there what it had at the start, or else the value of the source.
-/
theorem Run.missed_or_copied (limit : Nat) :
    (∀ e, (m.source.migrate m.target limit).1 = .error e →
      e = .full ∧ ∃ key, source.get key ≠ nullValue ∧ (m.copy limit).missed = key :: m.missed) ∧
    ∀ p, (m.source.migrate m.target limit).1 = .ok p →
      (m.copy limit).missed = m.missed ∧
      (p.complete = true → ∀ key, source.get key ≠ nullValue →
        (m.copy limit).target.get key =
          if key ∈ m.missed then nullValue
          else if target.get key = nullValue then source.get key else target.get key) := by
  have hcopy := (h.isFaithful hs hcursor ht hle).copy hs hle limit
  have hslots : m.target.slotCount = target.slotCount :=
    (h.isFaithful hs hcursor ht hle).slotCount_eq
  have hcount : m.source.slotCount = source.slotCount := by
    rw [(h.isFaithful hs hcursor ht hle).source_eq]
    rfl
  have hle' : ¬m.target.slotCount < m.source.slotCount := by omega
  have hsource : (m.copy limit).source.slotCount = source.slotCount := by
    rw [hcopy.source_eq]
    rfl
  rw [migrate, if_neg hle']
  rw [copy_eq (Nat.not_lt.mp hle')] at hcopy hsource ⊢
  cases hloop : migrateLoop m.source m.target 0 limit (m.source.slotCount - m.source.cursor) with
  | mk result tables =>
    obtain ⟨source', target'⟩ := tables
    rw [hloop] at hcopy hsource
    cases result with
    | error e =>
      constructor
      · rintro e' ⟨⟩
        obtain ⟨-, i, -, hlive, he⟩ := hcopy.missed _ List.mem_cons_self
        refine ⟨eq_full_of_migrateLoop (congrArg Prod.fst hloop), _, ?_, rfl⟩
        rw [← he]
        exact (hs.get_of_isLive hlive).2
      · nofun
    | ok moved =>
      constructor
      · nofun
      · rintro p ⟨⟩
        refine ⟨rfl, ?_⟩
        intro hcomplete key hv
        apply hcopy.get_eq hs _ hv
        rw [← hsource]
        exact of_decide_eq_true hcomplete

end

def crowdedTarget : KeyTable :=
  (empty 3).after ([.set 2 20, .remove 2] ++ (List.range 7).map fun i => .set (100 + .ofNat i) 1)

/-- The first key finds no room. Then room is made, and the migration goes on with the second. -/
def interrupted : Migration :=
  let m := copy ⟨(empty 3).after [.set 1 11, .set 2 22], crowdedTarget, []⟩ 5
  { m with target := m.target.after [.remove 100, .reclaim] }

theorem Run.missed_or_copied_interrupted :
    withCapacity 4 = .ok (empty 3) ∧ interrupted.missed = [1] ∧
      (interrupted.copy 5).target.get 1 = nullValue ∧ (interrupted.copy 5).target.get 2 = 22 := by
  have hempty : withCapacity 4 = .ok (empty 3) := rfl
  obtain ⟨hprobing, -⟩ := isProbing_of_withCapacity hempty
  obtain ⟨hs, -⟩ := hprobing.after_spec [.set 1 11, .set 2 22]
  obtain ⟨ht, -⟩ := hprobing.after_spec
    ([.set 2 20, .remove 2] ++ (List.range 7).map fun i => .set (100 + .ofNat i) 1)
  have hcursor := cursor_after (t := empty 3) rfl [.set 1 11, .set 2 22]
  have hle : ((empty 3).after [.set 1 11, .set 2 22]).slotCount ≤ crowdedTarget.slotCount := by
    decide +kernel
  have hfull : Run ((empty 3).after [.set 1 11, .set 2 22]) crowdedTarget _ := .copy 5 .start
  have hrun : Run ((empty 3).after [.set 1 11, .set 2 22]) crowdedTarget interrupted :=
    hfull.makeRoom hs hcursor ht hle (by decide +kernel)
  have hanswer : (interrupted.source.migrate interrupted.target 5).1 = .ok ⟨1, true⟩ := by
    decide +kernel
  have hmissed : interrupted.missed = [1] := by decide +kernel
  have hget := ((hrun.missed_or_copied hs hcursor ht hle 5).2 _ hanswer).2 rfl
  refine ⟨hempty, hmissed, ?_, ?_⟩
  · rw [hget 1 (by decide +kernel), hmissed]
    rfl
  · rw [hget 2 (by decide +kernel), hmissed]
    decide +kernel

/-- A key is missed for good, although there is room for it when the migration goes on. -/
theorem exists_missed_with_room :
    ∃ source target : KeyTable, withCapacity 4 = .ok (empty 3) ∧
      source = (empty 3).after [.set 1 11] ∧
      target = (empty 3).after ((List.range 8).map fun i => .set (100 + .ofNat i) 7) ∧
      let first := source.migrate target 10
      let roomy := first.2.2.after [.remove 100, .reclaim]
      let second := first.2.1.migrate roomy 10
      first.1 = .error .full ∧ roomy.claimed < roomy.slotCount ∧ second.1 = .ok ⟨0, true⟩ ∧
        source.get 1 = 11 ∧ second.2.2.get 1 = nullValue :=
  ⟨_, _, rfl, rfl, rfl, by decide +kernel⟩

end Migration

end MemoryKit.KeyTable
