import MemoryKit.Proofs.KeyTable.Rebuilding
import MemoryKit.Proofs.Registry.Requests
import MemoryKit.Registry.Flusher

/-! # Flushing and the lookup

What a flusher does to a registry keeps the lookup and the records in agreement: the requests that
it carries out, and the rebuilding of the lookup, which keeps the value of every key.
-/

namespace MemoryKit.Registry

variable {σ P H : Type} {r r' : Registry P H} {i : UInt32}

theorem kept_dequeueMake (r : Registry P H) : Kept r r.dequeueMake.state := ⟨rfl, rfl, rfl⟩

theorem kept_dequeueUnmake (r : Registry P H) : Kept r r.dequeueUnmake.state := ⟨rfl, rfl, rfl⟩

theorem outline_succeeded (d : EntryRecord P H) (handle : H) :
    (d.succeeded handle).outline = d.outline := by
  unfold EntryRecord.succeeded
  split
  · next hs =>
    have hm := beq_iff_eq.mp (Bool.and_eq_true_iff.mp hs).1
    exact outline_eq_iff.mpr ⟨rfl, by simp [hm], by simp [hm]⟩
  · rfl

theorem outline_defeated (d : EntryRecord P H) : d.defeated.outline = d.outline := by
  unfold EntryRecord.defeated
  split
  · next hs =>
    have hm := beq_iff_eq.mp (Bool.and_eq_true_iff.mp hs).1
    exact outline_eq_iff.mpr ⟨rfl, by simp [hm], by dsimp only; split <;> simp [hm]⟩
  · rfl

theorem Agrees.takeRequest (h : r.Agrees) (i : UInt32) : (r.takeRequest i).2.Agrees := by
  unfold Registry.takeRequest
  split
  · exact h
  split
  · exact h.modifyRecord fun _ _ => rfl
  · exact h.modifyRecord fun _ _ => rfl

theorem Agrees.installHandle (h : r.Agrees) (i : UInt32) (handle : H) :
    (r.installHandle i handle).2.Agrees :=
  h.modifyRecord fun d _ => outline_succeeded d handle

theorem Agrees.noteFailure (h : r.Agrees) (i : UInt32) : (r.noteFailure i).Agrees :=
  h.modifyRecord fun d _ => outline_defeated d

theorem Agrees.of_giveUp_none (h : r.Agrees) (hg : r.giveUp i = (none, r')) : r'.Agrees := by
  unfold Registry.giveUp at hg
  split at hg
  · cases hg
    exact h
  split at hg
  · cases hg
  · cases hg
    exact h.modifyRecord fun _ _ => rfl

theorem Agrees.of_giveUp_some {handle : Option H} (h : r.Agrees)
    (hg : r.giveUp i = (some handle, r')) : (r'.releaseSlot i).state.Agrees := by
  obtain ⟨free, h⟩ := h
  unfold Registry.giveUp at hg
  split at hg
  · cases hg
  · next d hd =>
    split at hg
    · next hstate =>
      cases hg
      exact h.giveUp (d := d) (f := fun d => { d.vacated with generation := d.generation + 1 })
        ⟨hd, by simp [hstate]⟩ (by simp [hstate]) rfl rfl rfl rfl
    · cases hg

theorem keepAll_state (t : KeyTable) (l : List (UInt64 × UInt64)) :
    (keepAll t l).state = t.insertAll l := by
  induction l generalizing t with
  | nil => rfl
  | cons e l ih =>
    obtain ⟨key, value⟩ := e
    rw [keepAll, KeyTable.insertAll, List.foldl_cons]
    rcases t.insert key value with ⟨- | -, t'⟩ <;> exact ih t'

theorem compact_spec (h : r.lookup.IsProbing) :
    r.compact.state.lookup.IsProbing ∧
      ∀ key, r.compact.state.lookup.get key = r.lookup.get key := by
  have hstate : r.compact.state.lookup =
      (KeyTable.empty r.lookup.bits).insertAll r.lookup.entries := keepAll_state ..
  obtain ⟨hprobing, hget, -⟩ := h.insertAll_entries
  rw [hstate]
  exact ⟨hprobing, hget⟩

theorem Agrees.compact (h : r.Agrees) : r.compact.state.Agrees := by
  obtain ⟨free, h⟩ := h
  obtain ⟨hp, hl⟩ := compact_spec h.probing
  exact ⟨free, h.congr h.stack (fun _ => rfl) hp hl⟩

theorem Flusher.agrees_compactIfDue {f : Flusher σ P H} (h : f.registry.Agrees) :
    f.compactIfDue.state.registry.Agrees := by
  unfold compactIfDue
  split
  · exact h.compact
  · exact h

end MemoryKit.Registry
