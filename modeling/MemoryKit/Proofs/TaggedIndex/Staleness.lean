import Mathlib.Algebra.Group.Nat.Defs
import Mathlib.Data.List.Induction
import MemoryKit.TaggedIndex

/-! # Stale tagged indices

Every move counts the tag up, so that the tag of a cell tells the number of its moves modulo
`2 ^ 32`. An attempt with a value that was observed some moves ago succeeds exactly if the tag has
gone round, once or more often, and the last move led back to the observed index.
-/

namespace MemoryKit.TaggedIndex

theorem toWord_inj {t t' : TaggedIndex} : t.toWord = t'.toWord ↔ t = t' := by
  constructor
  · intro h
    rw [← ofWord_toWord t, h, ofWord_toWord]
  · rintro rfl
    rfl

namespace Cell

variable {c c' : Cell} {n : Nat} {expected new found : TaggedIndex}

theorem compareExchange_of_eq (h : c.value = expected) :
    c.compareExchange expected new = (.ok c.value, ⟨new⟩) := if_pos h

theorem compareExchange_of_ne (h : c.value ≠ expected) :
    c.compareExchange expected new = (.error c.value, c) := if_neg h

theorem isOk_compareExchange_iff :
    (c.compareExchange expected new).1.isOk = true ↔ c.value = expected := by
  by_cases h : c.value = expected
  · rw [compareExchange_of_eq h]
    exact iff_of_true rfl h
  · rw [compareExchange_of_ne h]
    exact iff_of_false Bool.false_ne_true h

theorem eq_of_compareExchange_error (h : (c.compareExchange expected new).1 = .error found) :
    found = c.value ∧ (c.compareExchange expected new).2 = c := by
  by_cases he : c.value = expected
  · rw [compareExchange_of_eq he] at h
    cases h
  · rw [compareExchange_of_ne he] at h ⊢
    cases h
    exact ⟨rfl, rfl⟩

/-- What a cell comes to by moves of its current value, with attempts that fail between. -/
inductive Run (c : Cell) : Nat → Cell → Prop where
  | start : Run c 0 c
  | move {n : Nat} {c' : Cell} (index : UInt32) : Run c n c' →
      (c'.compareExchange c'.value (c'.value.withIndex index)).1.isOk = true →
      Run c (n + 1) (c'.compareExchange c'.value (c'.value.withIndex index)).2
  | miss {n : Nat} {c' : Cell} (expected new : TaggedIndex) : Run c n c' →
      (c'.compareExchange expected new).1.isOk = false →
      Run c n (c'.compareExchange expected new).2

theorem exists_run (c : Cell) (indices : List UInt32) :
    ∃ c', Run c indices.length c' ∧ c'.value.index = indices.getLastD c.value.index := by
  induction indices using List.reverseRecOn with
  | nil => exact ⟨c, .start, rfl⟩
  | append_singleton indices index ih =>
    obtain ⟨c', h, -⟩ := ih
    have hmove := h.move index (isOk_compareExchange_iff.mpr rfl)
    rw [compareExchange_of_eq rfl] at hmove
    refine ⟨⟨c'.value.withIndex index⟩, ?_, ?_⟩
    · rw [List.length_append]
      exact hmove
    · rw [List.getLastD_concat]
      rfl

namespace Run

theorem tag_eq (h : Run c n c') : c'.value.tag = c.value.tag + .ofNat n := by
  induction h with
  | start => exact (UInt32.add_zero _).symm
  | @move n c' index _ _ ih =>
    rw [compareExchange_of_eq rfl]
    change c'.value.tag + 1 = _
    rw [ih, UInt32.ofNat_add, UInt32.add_assoc]
    rfl
  | @miss n c' expected new _ hfail ih =>
    have hne : c'.value ≠ expected := by
      intro he
      rw [isOk_compareExchange_iff.mpr he] at hfail
      cases hfail
    rw [compareExchange_of_ne hne, ih]

theorem tag_eq_iff (h : Run c n c') : c'.value.tag = c.value.tag ↔ 2 ^ 32 ∣ n := by
  rw [h.tag_eq, ← UInt32.toNat_inj, UInt32.toNat_add, UInt32.toNat_ofNat', Nat.dvd_iff_mod_eq_zero]
  have hlt := c.value.tag.toNat_lt
  omega

theorem value_eq_iff (h : Run c n c') :
    c'.value = c.value ↔ 2 ^ 32 ∣ n ∧ c'.value.index = c.value.index := by
  rw [← h.tag_eq_iff, and_comm]
  obtain ⟨⟨index, tag⟩⟩ := c
  obtain ⟨⟨index', tag'⟩⟩ := c'
  simp only [TaggedIndex.mk.injEq]

/--
An attempt with the value at the start of a run succeeds exactly if the number of moves since is a
multiple of `2 ^ 32` and the index is the one observed. Attempts that fail tell the current value
and leave it alone. Pairs and words stand for each other, so that comparing words compares pairs.
-/
theorem stale_succeeds_iff (h : Run c n c') :
    (∀ new, (c'.compareExchange c.value new).1.isOk = true ↔
      2 ^ 32 ∣ n ∧ c'.value.index = c.value.index) ∧
    (∀ (d : Cell) (expected new found : TaggedIndex),
      (d.compareExchange expected new).1 = .error found →
        found = d.value ∧ (d.compareExchange expected new).2 = d) ∧
    (∀ t, ofWord t.toWord = t) ∧ (∀ w, (ofWord w).toWord = w) ∧
    ∀ t t' : TaggedIndex, t = t' ↔ t.toWord = t'.toWord :=
  ⟨fun _ => isOk_compareExchange_iff.trans h.value_eq_iff,
    fun _ _ _ _ => eq_of_compareExchange_error, ofWord_toWord, toWord_ofWord,
    fun _ _ => toWord_inj.symm⟩

theorem stale_succeeds_iff_wrapped :
    (∃ c', Run ⟨1, 7⟩ (2 ^ 32) c' ∧ (c'.compareExchange ⟨1, 7⟩ ⟨3, 8⟩).1.isOk = true) ∧
    ∃ c', Run ⟨1, 7⟩ 2 c' ∧ c'.value.index = 1 ∧
      (c'.compareExchange ⟨1, 7⟩ ⟨3, 8⟩).1.isOk = false := by
  constructor
  · obtain ⟨c', h, hindex⟩ := exists_run ⟨1, 7⟩ (List.replicate (2 ^ 32 - 1) 2 ++ [1])
    rw [List.length_append, List.length_replicate] at h
    rw [List.getLastD_concat] at hindex
    exact ⟨c', h, (h.stale_succeeds_iff.1 _).mpr ⟨Nat.dvd_refl _, hindex⟩⟩
  · obtain ⟨c', h, hindex⟩ := exists_run ⟨1, 7⟩ [2, 1]
    refine ⟨c', h, hindex, ?_⟩
    rw [← Bool.not_eq_true, h.stale_succeeds_iff.1]
    rintro ⟨hdvd, -⟩
    exact absurd hdvd (by decide)

end Run

end Cell

end MemoryKit.TaggedIndex
