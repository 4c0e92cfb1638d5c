import MemoryKit.Proofs.KeyTable.Copying

/-! # The lives of tables

A table is created without entries. It serves calls and takes part in migrations, as the source or
as the target. Only migrating it moves its cursor, and only `clear` takes the cursor back.
-/

namespace MemoryKit.KeyTable

variable {s t : KeyTable}

inductive Made : KeyTable → Prop where
  | create {t : KeyTable} {capacity : Nat} : withCapacity capacity = .ok t → Made t
  | call {t : KeyTable} (q : Call) : Made t → Made (t.serve q).2
  | source {s t : KeyTable} (limit : Nat) : Made s → Made t → Made (s.migrate t limit).2.1
  | target {s t : KeyTable} (limit : Nat) : Made s → Made t → Made (s.migrate t limit).2.2

/-- The tables that were not migrated since they were created or cleared last. -/
inductive Unmigrated : KeyTable → Prop where
  | create {t : KeyTable} {capacity : Nat} : withCapacity capacity = .ok t → Unmigrated t
  | clear {t : KeyTable} : Made t → Unmigrated t.clear
  | call {t : KeyTable} (q : Call) : Unmigrated t → Unmigrated (t.serve q).2
  | target {s t : KeyTable} (limit : Nat) : Made s → Unmigrated t →
      Unmigrated (s.migrate t limit).2.2

theorem migrateLoop_source (s t : KeyTable) (moved limit steps : Nat) :
    ∃ cursor, (migrateLoop s t moved limit steps).2.1 = { s with cursor } := by
  induction steps generalizing s t moved with
  | zero => exact ⟨s.cursor, rfl⟩
  | succ steps ih =>
    rw [migrateLoop]
    split
    · exact ⟨s.cursor, rfl⟩
    dsimp only
    split
    · split
      · exact ih { s with cursor := s.cursor + 1 } _ _
      · exact ⟨s.cursor + 1, rfl⟩
    · exact ih { s with cursor := s.cursor + 1 } _ _

theorem migrateLoop_target {P : KeyTable → Prop}
    (hP : ∀ t key value, P t → P (KeyTable.insert t key value).2) (ht : P t) (s : KeyTable)
    (moved limit steps : Nat) : P (migrateLoop s t moved limit steps).2.2 := by
  induction steps generalizing s t moved with
  | zero => exact ht
  | succ steps ih =>
    rw [migrateLoop]
    split
    · exact ht
    dsimp only
    split
    · cases hi : t.insert (s.slot s.cursor).key (s.slot s.cursor).value with
      | mk answer t' =>
        have ht' : P t' := by
          have hnext := hP t (s.slot s.cursor).key (s.slot s.cursor).value ht
          rwa [hi] at hnext
        cases answer with
        | ok old => exact ih ht' _ _
        | error e => exact ht'
    · exact ih ht _ _

theorem migrate_source (s t : KeyTable) (limit : Nat) :
    ∃ cursor, (s.migrate t limit).2.1 = { s with cursor } := by
  unfold migrate
  split
  · exact ⟨s.cursor, rfl⟩
  · exact migrateLoop_source s t 0 limit (s.slotCount - s.cursor)

theorem migrate_target {P : KeyTable → Prop}
    (hP : ∀ t key value, P t → P (KeyTable.insert t key value).2) (ht : P t) (s : KeyTable)
    (limit : Nat) : P (s.migrate t limit).2.2 := by
  unfold migrate
  split
  · exact ht
  · exact migrateLoop_target hP ht s 0 limit (s.slotCount - s.cursor)

theorem cursor_insert (t : KeyTable) (key value : UInt64) :
    (t.insert key value).2.cursor = t.cursor :=
  cursor_serve (q := .insert key value) nofun

theorem Made.isProbing (h : Made t) : t.IsProbing := by
  induction h with
  | create h => exact (isProbing_of_withCapacity h).1
  | call q _ ih => exact (ih.serve_spec q).1
  | @source s t limit _ _ ih _ =>
    obtain ⟨cursor, hs⟩ := s.migrate_source t limit
    rw [hs]
    exact ⟨ih.vacant, ih.reached, ih.distinct⟩
  | target limit _ _ _ ih =>
    exact migrate_target (fun _ key value h => (h.insert_spec key value).2.1) ih _ limit

theorem Made.after (h : Made t) (calls : List Call) : Made (t.after calls) := by
  induction calls generalizing t with
  | nil => exact h
  | cons q calls ih => exact ih (.call q h)

theorem Unmigrated.after (h : Unmigrated t) (calls : List Call) : Unmigrated (t.after calls) := by
  induction calls generalizing t with
  | nil => exact h
  | cons q calls ih => exact ih (.call q h)

theorem Unmigrated.made (h : Unmigrated t) : Made t := by
  induction h with
  | create h => exact .create h
  | clear h => exact .call .clear h
  | call q _ ih => exact .call q ih
  | target limit hs _ ih => exact .target limit hs ih

theorem Unmigrated.cursor_eq (h : Unmigrated t) : t.cursor = 0 := by
  induction h with
  | @create t capacity h =>
    unfold withCapacity at h
    split at h <;> cases h
    rfl
  | clear _ => rfl
  | call q _ ih => exact cursor_after ih [q]
  | target limit _ _ ih =>
    exact migrate_target (fun t key value h => (t.cursor_insert key value).trans h) ih _ limit

end MemoryKit.KeyTable
