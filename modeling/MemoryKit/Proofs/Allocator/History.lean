import MemoryKit.Proofs.Allocator.Labels

/-! # What no call changes

Callers may do anything to an allocator, with any pointers, and anybody may overwrite its arena, so
that headers and links lead anywhere. Its region and its capacity stay, and it still knows different
labels, not more than there are positions for. That is all it takes to start over.
-/

namespace MemoryKit

namespace Heap

variable {h g : Heap} {x size : Nat}

@[simp] theorem capacity_mark (h : Heap) (x : Nat) (used : Bool) :
    (h.mark x used).capacity = h.capacity := capacity_setSize h _ _ _

@[simp] theorem capacity_extractFree (h : Heap) (x : Nat) :
    (h.extractFree x).capacity = h.capacity := by
  rw [extractFree_eq, capacity_pointBack, capacity_skipTo]

@[simp] theorem capacity_absorbNext (h : Heap) (x : Nat) :
    (h.absorbNext x).capacity = h.capacity := by
  cases hn : h.behind x with
  | none => simp [absorbNext, hn]
  | some next => simp [absorbNext_of_behind hn]

@[simp] theorem capacity_joinAfter (h : Heap) (x : Nat) :
    (h.joinAfter x).capacity = h.capacity := by
  unfold joinAfter
  split
  · split <;> simp
  · rfl

@[simp] theorem capacity_joinBefore (h : Heap) (x : Nat) :
    (h.joinBefore x).1.capacity = h.capacity := by
  unfold joinBefore
  split
  · split <;> simp
  · rfl

@[simp] theorem capacity_release (h : Heap) (x : Nat) : (h.release x).capacity = h.capacity := by
  rw [release_eq, insertJoined, capacity_insertFree, capacity_joinBefore, capacity_joinAfter,
    capacity_mark]

@[simp] theorem capacity_split (h : Heap) (x size : Nat) :
    (h.split x size).capacity = h.capacity := by
  rw [split_eq]
  split
  · rfl
  · simp [cutAt]

@[simp] theorem capacity_free (h : Heap) (x : Nat) : (h.free x).capacity = h.capacity := by
  rw [free, capacity_release, capacity_setWord]

@[simp] theorem capacity_shrink (h : Heap) (x size : Nat) :
    (h.shrink x size).capacity = h.capacity := by
  unfold shrink
  dsimp only
  split
  · exact capacity_split _ _ _
  · rfl

theorem capacity_of_allocate (ha : h.allocate size = some (x, g)) : g.capacity = h.capacity := by
  obtain ⟨rounded, d, -, -, -, rfl⟩ := exists_class_of_allocate ha
  simp

theorem capacity_of_grow (hg : h.grow x size = some g) : g.capacity = h.capacity := by
  unfold grow at hg
  split at hg
  · rw [← Option.some.inj hg]
  cases hn : h.behind x with
  | none => simp [hn] at hg
  | some next =>
    simp only [hn, Option.ite_none_left_eq_some, Option.some.injEq] at hg
    rw [← hg.2]
    simp

end Heap

namespace Allocator

open Heap

variable {a a' a'' : Allocator} {pointer : Nat}

/-- The region and the capacity stay, and labels that are different and have positions stay so. -/
structure Persists (a a' : Allocator) : Prop where
  region_eq : a'.region = a.region
  capacity_eq : a'.heap.capacity = a.heap.capacity
  apart : a.LabelsApart → a'.LabelsApart
  size_le : a.labels.size ≤ noLabel → a'.labels.size ≤ noLabel

namespace Persists

theorem trans (h : Persists a a') (h' : Persists a' a'') : Persists a a'' where
  region_eq := h'.region_eq.trans h.region_eq
  capacity_eq := h'.capacity_eq.trans h.capacity_eq
  apart hl := h'.apart (h.apart hl)
  size_le hl := h'.size_le (h.size_le hl)

theorem same (hregion : a'.region = a.region) (hcap : a'.heap.capacity = a.heap.capacity)
    (hlabels : a'.labels = a.labels) : Persists a a' :=
  ⟨hregion, hcap, fun h => by unfold LabelsApart; rwa [hlabels], fun h => hlabels ▸ h⟩

theorem recordLabel (a : Allocator) (label : Label) : Persists a (a.recordLabel label).state where
  region_eq := by
    unfold Allocator.recordLabel
    split
    · rfl
    · split <;> rfl
  capacity_eq := by rw [heap_recordLabel]
  apart h := h.recordLabel label
  size_le hl := by
    rcases labels_recordLabel_eq a label with he | ⟨-, hlt, he⟩
    · rwa [he]
    · rw [he, Array.size_push]
      omega

theorem allocateAligned (a : Allocator) (bytes : Nat) (label : Label) (alignment : Nat) :
    Persists a (a.allocateAligned bytes label alignment).state := by
  have hsame : Persists a a := .same rfl rfl rfl
  unfold Allocator.allocateAligned
  split
  · exact hsame
  cases requestSize? bytes alignment with
  | none => exact hsame
  | some size =>
  dsimp only
  cases ha : a.heap.allocate size.2 with
  | none => exact hsame
  | some taken =>
  have htaken : Persists a { a with heap := taken.2 } := .same rfl (capacity_of_allocate ha) rfl
  dsimp only
  split
  · exact htaken
  · refine (htaken.trans (.recordLabel _ label)).trans (.same rfl ?_ rfl)
    change (furnish _ _ _ _ _).capacity = _
    unfold furnish
    dsimp only
    split <;> simp [setAllocation]

theorem deallocate (a : Allocator) (pointer : Nat) : Persists a (a.deallocate pointer).2 := by
  have hsame : Persists a a := .same rfl rfl rfl
  unfold Allocator.deallocate
  split
  · exact hsame
  split
  · exact hsame
  split
  · exact .same rfl (capacity_free _ _) rfl
  · exact hsame

theorem move (a : Allocator) (pointer block user bytes : Nat) :
    Persists a (a.move pointer block user bytes).state := by
  have htarget := allocateAligned a bytes ((a.label? (a.heap.tag block)).getD .resized)
    (alignmentOfTag (a.heap.tag block))
  unfold Allocator.move
  dsimp only
  generalize a.allocateAligned bytes ((a.label? (a.heap.tag block)).getD .resized)
    (alignmentOfTag (a.heap.tag block)) = target at *
  cases target.answer with
  | none => exact htarget
  | some moved =>
  have hcopied : ∀ m : Memory, Persists a
      { target.state with heap := { target.state.heap with memory := m } } := fun m =>
    htarget.trans (.same rfl rfl rfl)
  have hfreed := (hcopied (target.state.heap.memory.copy user (moved - a.region.start)
    (min (a.heap.blockSize block - (user - block)) bytes))).trans (.deallocate _ pointer)
  dsimp only at hfreed ⊢
  split
  · next hd => rwa [hd] at hfreed
  · next hd => rwa [hd] at hfreed

theorem resize (a : Allocator) (pointer block user bytes : Nat) :
    Persists a (a.resize pointer block user bytes).state := by
  unfold Allocator.resize
  split
  · exact .same rfl rfl rfl
  dsimp only
  split
  · exact .same rfl (capacity_shrink _ _ _) rfl
  split
  · next hg => exact .same rfl (capacity_of_grow hg) rfl
  · exact .move _ _ _ _ _

theorem reallocate (a : Allocator) (pointer bytes : Nat) :
    Persists a (a.reallocate pointer bytes).state := by
  unfold Allocator.reallocate
  split
  · exact .allocateAligned _ _ _ _
  split
  · exact .same rfl rfl rfl
  split
  · exact .resize _ _ _ _ _
  · exact .same rfl rfl rfl

theorem after (u : Usage) (call : Call) : Persists u.allocator (u.after call).allocator := by
  cases call with
  | allocate bytes label options =>
    have h := allocateAligned u.allocator bytes label options.alignment
    unfold Usage.after Allocator.allocate
    dsimp only
    split <;> exact h
  | reallocate pointer bytes =>
    have h := reallocate u.allocator pointer bytes
    unfold Usage.after
    dsimp only
    split
    · split <;> exact h
    · exact h
  | deallocate pointer =>
    unfold Usage.after
    dsimp only
    have h := deallocate u.allocator pointer
    split
    · next hd => rwa [hd] at h
    · next hd => rwa [hd] at h
  | reset => exact .same rfl (capacity_reset _) rfl
  | valid =>
    change Persists _ u.allocator.valid.state
    unfold Allocator.valid
    split
    · exact .same rfl rfl rfl
    · split <;> exact .same rfl rfl rfl
  | write offset bytes => exact .same rfl rfl rfl

end Persists

/--
What may have become of an allocator over an arena: callers may have handed in any pointers, and
anybody may have overwritten the arena.
-/
inductive History (arena : Arena) : Allocator → Prop where
  | start {a : Allocator} {log : List Record} : ofArena arena = .ok (a, log) → History arena a
  | call {a : Allocator} (call : Call) :
      History arena a → History arena ((Usage.mk a []).after call).allocator
  | overwrite {a : Allocator} (memory : Memory) :
      History arena a → History arena { a with heap := { a.heap with memory } }

theorem History.exists_persists {arena : Arena} (h : History arena a) :
    ∃ new log, ofArena arena = .ok (new, log) ∧ Persists new a := by
  induction h with
  | start h => exact ⟨_, _, h, .same rfl rfl rfl⟩
  | @call a call _ ih =>
    obtain ⟨new, log, hnew, hp⟩ := ih
    exact ⟨new, log, hnew, hp.trans (.after ⟨a, []⟩ call)⟩
  | overwrite memory _ ih =>
    obtain ⟨new, log, hnew, hp⟩ := ih
    exact ⟨new, log, hnew, hp.trans (.same rfl rfl rfl)⟩

end Allocator

end MemoryKit
