import MemoryKit.Proofs.KeyTable.Handover

/-! # Migrating a table again

When a migration is complete, the cursor has passed every slot, and it stays there however the table
is used. Another migration is complete at once and copies nothing, also what was stored since. Only
a table that was cleared is migrated from its first slot again.
-/

namespace MemoryKit.KeyTable

variable {s t source target fresh : KeyTable} {limit capacity : Nat} {calls : List Call}

namespace Handover

variable {m : Handover}

theorem IsFaithful.run_copies (hs : source.IsProbing) (hle : source.slotCount ≤ target.slotCount)
    (h : IsFaithful source target m)
    (htakes : m.target.Takes
      (source.stretch m.source.cursor (source.slotCount - m.source.cursor)))
    (limits : List Nat) :
    ∃ m', m.run (limits.map .migrate) = .ok m' ∧ m'.theirs = m.theirs ∧
      m'.calls.length = m.calls.length + limits.length := by
  induction limits generalizing m with
  | nil => exact ⟨m, rfl, rfl, rfl⟩
  | cons limit limits ih =>
    obtain ⟨next, hstep⟩ : ∃ next, m.step (.migrate limit) = .ok next := by
      have hslots : m.source.slotCount ≤ m.target.slotCount := by
        rw [h.source_eq, h.slotCount_eq]
        exact hle
      have hcursor : m.source.cursor ≤ m.source.slotCount := by
        rw [h.source_eq]
        exact h.cursor_le
      obtain ⟨p, hp⟩ := migrate_isOk hslots hcursor (by rw [h.source_eq]; exact htakes) limit
      cases hmigrate : m.source.migrate m.target limit with
      | mk answer tables =>
        rw [hmigrate] at hp
        obtain rfl : answer = .ok p := hp
        simp only [step, hmigrate, Except.ok.injEq, exists_eq']
    obtain ⟨p, n, hin, -, rfl, -⟩ := h.exists_stretch hstep
    have hrest := source.stretch_add m.source.cursor n (source.slotCount - (m.source.cursor + n))
    rw [show n + (source.slotCount - (m.source.cursor + n)) = source.slotCount - m.source.cursor by
      omega] at hrest
    rw [hrest] at htakes
    obtain ⟨m', hrun, htheirs, hlength⟩ := ih (h.copy hs hstep) (takes_append.mp htakes).2
    refine ⟨m', ?_, htheirs, ?_⟩
    · rw [List.map_cons, run_of_step hstep, hrun]
    · rw [hlength, List.length_cons, List.length_cons]
      omega

end Handover

theorem cursor_after_of_notMem (hcalls : .clear ∉ calls) : (t.after calls).cursor = t.cursor := by
  induction calls generalizing t with
  | nil => rfl
  | cons q calls ih =>
    rw [List.mem_cons, not_or] at hcalls
    exact (ih hcalls.2).trans (cursor_serve (Ne.symm hcalls.1))

theorem migrate_of_end (hend : s.slotCount ≤ s.cursor) (hle : s.slotCount ≤ t.slotCount)
    (limit : Nat) : s.migrate t limit = (.ok ⟨0, true⟩, s, t) := by
  rw [migrate, if_neg (Nat.not_lt.mpr hle), Nat.sub_eq_zero_of_le hend]
  simp only [migrateLoop, Except.map, hend, decide_true]

theorem IsProbing.takes_entries_of_new (hs : source.IsProbing)
    (hfresh : withCapacity capacity = .ok fresh) (hle : source.slotCount ≤ fresh.slotCount) :
    fresh.Takes source.entries := by
  obtain ⟨hprobing, hempty⟩ := isProbing_of_withCapacity hfresh
  rw [hprobing.takes_iff]
  refine ⟨fun e he => ne_nullKey_of_mem_entries hs he, ?_⟩
  have hclaimants : fresh.claimants = ∅ := congrArg Contents.claimed hempty
  rw [hclaimants, Finset.empty_union]
  calc (source.entries.map Prod.fst).toFinset.card
      ≤ (source.entries.map Prod.fst).length := List.toFinset_card_le _
    _ = source.entries.length := List.length_map _
    _ ≤ source.slotCount := source.length_entries_le
    _ ≤ fresh.slotCount := hle

section

variable {p : Progress} {done filled : KeyTable}
  (hlast : s.migrate t limit = (.ok p, done, filled))

include hlast

theorem slotCount_of_migrate : done.slotCount = s.slotCount := by
  obtain ⟨cursor, hsource⟩ := s.migrate_source t limit
  rw [hlast] at hsource
  obtain rfl : done = { s with cursor } := hsource
  rfl

theorem end_of_migrate (hcomplete : p.complete = true) : done.slotCount ≤ done.cursor := by
  unfold migrate at hlast
  split at hlast
  · cases hlast
  cases hloop : migrateLoop s t 0 limit (s.slotCount - s.cursor) with
  | mk result tables =>
    rw [hloop] at hlast
    cases result with
    | error e => cases hlast
    | ok moved =>
      cases hlast
      exact of_decide_eq_true hcomplete

/--
Once a migration is complete, no further one copies anything before the table is cleared, whatever
was stored since. If it is cleared, another migration into a new table does not fail, is complete
after as many calls as there are entries and one, and then every key has its value in the new table.
-/
theorem migrated_again_once_cleared (hs : Made s) (ht : Made t) (hcomplete : p.complete = true)
    (hfresh : withCapacity capacity = .ok fresh) (hle : s.slotCount ≤ fresh.slotCount)
    (before calls : List Call) :
    (.clear ∉ before → ∀ limit, (done.after before).migrate fresh limit =
      (.ok ⟨0, true⟩, done.after before, fresh)) ∧
    ∀ limits : List Nat, let source := (done.after before).clear.after calls
      ∃ m, (Handover.start source fresh).run (limits.map .migrate) = .ok m ∧
        ((∀ limit ∈ limits, 0 < limit) → source.size < limits.length → m.IsComplete) ∧
        (m.IsComplete → ∀ key, m.target.get key = source.get key) := by
  have hdone : Made done := by
    have hmade := Made.source limit hs ht
    rwa [hlast] at hmade
  have hslots := slotCount_of_migrate hlast
  have hused := (hdone.isProbing.after_spec before).2.1
  constructor
  · intro hcalls limit
    apply migrate_of_end
    · rw [cursor_after_of_notMem hcalls, hused]
      exact end_of_migrate hlast hcomplete
    · omega
  · intro limits source
    have hsource : Unmigrated source := (Unmigrated.clear (hdone.after before)).after calls
    have hprobing := hsource.made.isProbing
    have hcount : source.slotCount = done.slotCount := by
      rw [← hused]
      refine ((isProbing_empty _).after_spec calls).2.1.trans ?_
      simp only [slotCount_eq, empty]
    have hroom : source.slotCount ≤ fresh.slotCount := by omega
    obtain ⟨hnew, hempty⟩ := isProbing_of_withCapacity hfresh
    have hstart := Handover.isFaithful_start hnew hsource.cursor_eq
    have htakes := hprobing.takes_entries_of_new hfresh hroom
    obtain ⟨m, hrun, htheirs, hlength⟩ := hstart.run_copies hprobing hroom
      (by
        rw [Handover.start, hsource.cursor_eq, Nat.sub_zero, stretch_slotCount]
        exact htakes) limits
    have hproper : ∀ a ∈ limits.map Action.migrate, a.IsProper :=
      List.forall_mem_map.mpr fun _ _ => trivial
    have hm := hstart.run hprobing hproper hrun
    refine ⟨m, hrun, fun hlimits hmany => ?_, fun hend key => ?_⟩
    · apply hm.isComplete_of_length
      · intro c hc
        obtain hc | hc := Handover.mem_calls_of_run hrun hc
        · cases hc
        · obtain ⟨limit, hlimit, heq⟩ := List.mem_map.mp hc
          cases heq
          exact hlimits _ hlimit
      · rw [hlength]
        exact Nat.lt_add_left _ hmany
    · have hnull : m.theirs key = nullValue := by
        rw [htheirs]
        exact congrFun (congrArg Contents.value hempty) key
      rw [hm.get_of_complete hprobing hend, if_pos hnull]

end

def onceMigrated : Except KeyTableError Progress × KeyTable × KeyTable :=
  ((empty 3).after [.set 1 11]).migrate (empty 3) 10

theorem migrated_again_once_cleared_steps :
    withCapacity 4 = .ok (empty 3) ∧ onceMigrated.1 = .ok ⟨1, true⟩ ∧
      (let source := (onceMigrated.2.1.after [.set 2 22]).clear.after [.set 3 33, .insert 4 44]
      ∃ m, (Handover.start source (empty 3)).run ([1, 1, 1].map .migrate) = .ok m ∧
        m.IsComplete ∧ m.target.get 3 = 33 ∧ m.target.get 4 = 44) := by
  have hempty : withCapacity 4 = .ok (empty 3) := rfl
  have hanswer : onceMigrated.1 = .ok ⟨1, true⟩ := by decide +kernel
  have hnew : Made (empty 3) := .create hempty
  obtain ⟨-, hcleared⟩ := migrated_again_once_cleared
    (Prod.ext hanswer rfl : onceMigrated = (.ok ⟨1, true⟩, _, _)) (.call (.set 1 11) hnew) hnew rfl
    hempty (by decide +kernel) [.set 2 22] [.set 3 33, .insert 4 44]
  obtain ⟨m, hrun, hend, hget⟩ := hcleared [1, 1, 1]
  have hcomplete := hend (by decide) (by decide +kernel)
  refine ⟨hempty, hanswer, m, hrun, hcomplete, ?_, ?_⟩
  · rw [hget hcomplete]
    decide +kernel
  · rw [hget hcomplete]
    decide +kernel

/-- A table that is migrated again without being cleared leaves all its entries behind. -/
theorem exists_left_behind :
    withCapacity 4 = .ok (empty 3) ∧ onceMigrated.1 = .ok ⟨1, true⟩ ∧
      let used := onceMigrated.2.1.after [.set 2 22]
      let again := used.migrate (empty 3) 10
      again.1 = .ok ⟨0, true⟩ ∧ used.get 1 = 11 ∧ used.get 2 = 22 ∧
        again.2.2.get 1 = nullValue ∧ again.2.2.get 2 = nullValue :=
  ⟨rfl, by decide +kernel⟩

end MemoryKit.KeyTable
