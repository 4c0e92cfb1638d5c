import Mathlib.Order.Bounds.Defs
import MemoryKit.Proofs.Heap.FreeIndex

/-! # Rounding and searching together

A size is rounded up to the least boundary of the classes that is not below it, also where that
carries into the next power of two. The classes from the one of the rounded size on hold no lesser
sizes, and the search finds the least of them that is marked.
-/

namespace MemoryKit

namespace SizeClass

variable {size n : Nat} {c d : SizeClass}

protected theorem le_antisymm (h : c ≤ d) (h' : d ≤ c) : c = d := by
  obtain ⟨cb, cs⟩ := c
  obtain ⟨db, ds⟩ := d
  change cb < db ∨ cb = db ∧ cs ≤ ds at h
  change db < cb ∨ db = cb ∧ ds ≤ cs at h'
  simp only [SizeClass.mk.injEq]
  omega

theorem sub_ofSize_lt (size : Nat) : (ofSize size).sub < subCount := by
  rcases Nat.lt_or_ge size linearLimit with hl | hl
  · rw [ofSize_linear hl]
    simp only [subCount, granule, linearLimit] at *
    omega
  · obtain ⟨k, s, rest, -, hs, hr, rfl⟩ := exists_position hl
    rw [ofSize_position hs hr]
    exact hs

/-- The least size of a class. The bins go on beyond the ones of the words. -/
def IsBoundary (n : Nat) : Prop := ∃ c : SizeClass, c.sub < subCount ∧ c.floor = n

theorem isBoundary_ceilTo (h : granule ∣ size) : IsBoundary (ceilTo (step size) size) :=
  ⟨_, sub_ofSize_lt _, floor_ofSize_ceilTo h⟩

/-- From a size on, every boundary is a multiple of the step at the size. -/
theorem step_dvd_of_isBoundary (hn : IsBoundary n) (h : size ≤ n) : step size ∣ n := by
  rcases Nat.lt_or_ge size linearLimit with hl | hl
  · rw [step_linear hl]
    exact Nat.one_dvd n
  obtain ⟨k, s, rest, -, hs, hr, rfl⟩ := exists_position hl
  obtain ⟨⟨bin, sub⟩, hsub, rfl⟩ := hn
  have hsub' : sub < 16 := hsub
  rw [step_position hs hr]
  cases bin with
  | zero =>
    -- The linear bin ends in front of the size.
    rw [floor_linear, granule] at h
    unfold linearLimit at hl
    omega
  | succ j =>
    rw [floor_position] at h ⊢
    have hpow : 2 ^ (k + 8) < 2 ^ (j + 9) :=
      calc 2 ^ (k + 8) = 16 * 2 ^ (k + 4) := by ring
        _ ≤ (16 + s) * 2 ^ (k + 4) := Nat.mul_le_mul_right _ (by omega)
        _ ≤ (16 + s) * 2 ^ (k + 4) + rest := Nat.le_add_right _ _
        _ ≤ (16 + sub) * 2 ^ (j + 4) := h
        _ < 32 * 2 ^ (j + 4) := Nat.mul_lt_mul_of_pos_right (by omega) (Nat.two_pow_pos _)
        _ = 2 ^ (j + 9) := by ring
    have hkj := (Nat.pow_lt_pow_iff_right (by omega : 1 < 2)).mp hpow
    exact Nat.dvd_mul_left_of_dvd (Nat.pow_dvd_pow 2 (by omega)) _

theorem isLeast_ceilTo (h : granule ∣ size) :
    IsLeast {n | IsBoundary n ∧ size ≤ n} (ceilTo (step size) size) := by
  have hpos := step_pos size
  refine ⟨⟨isBoundary_ceilTo h, le_ceilTo size hpos⟩, ?_⟩
  rintro n ⟨hn, hle⟩
  -- Both are multiples of the step, so that their quotients are compared.
  obtain ⟨m, rfl⟩ := step_dvd_of_isBoundary hn hle
  rw [ceilTo, Nat.mul_comm]
  apply Nat.mul_le_mul_left
  rw [← Nat.lt_succ_iff, Nat.div_lt_iff_lt_mul hpos, Nat.succ_mul, Nat.mul_comm m]
  omega

theorem ceil?_eq (h : size < wordLimit) :
    ceil? size = if ceilTo (step size) size < wordLimit then some (ceilTo (step size) size)
      else none := by
  split
  · next hlt => exact (ceil?_eq_some_iff h).mpr ⟨rfl, hlt⟩
  · next hge =>
    rw [Option.eq_none_iff_forall_ne_some]
    intro r hr
    obtain ⟨rfl, hlt⟩ := (ceil?_eq_some_iff h).mp hr
    exact hge hlt

theorem roundUp?_eq (h : granule ∣ size) (hw : size < wordLimit) :
    ∃ n, IsLeast {n | IsBoundary n ∧ size ≤ n} n ∧
      roundUp? size = if n < wordLimit then some (n, ofSize n) else none := by
  refine ⟨_, isLeast_ceilTo h, ?_⟩
  rw [roundUp?, ceil?_eq hw]
  split <;> rfl

theorem ceilTo_sub_lt (size : Nat) : ceilTo (step size) size - size < max 1 (size / 16) := by
  have hlt := ceilTo_lt size (step_pos size)
  rcases Nat.lt_or_ge size linearLimit with hl | hl
  · rw [step_linear hl] at hlt ⊢
    omega
  · have hstep : step size ≤ size / 16 := by
      obtain ⟨k, s, rest, -, hs, hr, rfl⟩ := exists_position hl
      rw [step_position hs hr, Nat.le_div_iff_mul_le (by omega)]
      calc 2 ^ (k + 4) * 16 ≤ (16 + s) * 2 ^ (k + 4) := by
            rw [Nat.mul_comm]
            exact Nat.mul_le_mul_right _ (by omega)
        _ ≤ _ := Nat.le_add_right _ _
    have := le_ceilTo size (step_pos size)
    omega

end SizeClass

namespace FreeIndex

open SizeClass

variable {x : FreeIndex} {c d : SizeClass}

def Marks (x : FreeIndex) (c : SizeClass) : Prop := (x.subsOf c.bin).contains c.sub = true

theorem search_eq_some_iff (h : x.IsCoherent) :
    x.search c = some d ↔ IsLeast {e | x.Marks e ∧ c ≤ e} d := by
  constructor
  · intro hs
    obtain ⟨hle, hd⟩ := search_sound hs
    refine ⟨⟨hd, hle⟩, ?_⟩
    rintro e ⟨he, hce⟩
    obtain ⟨d', hs', hle'⟩ := search_complete h hce he
    rw [hs] at hs'
    cases hs'
    exact hle'
  · rintro ⟨⟨hd, hle⟩, hleast⟩
    obtain ⟨d', hs, hle'⟩ := search_complete h hle hd
    obtain ⟨hcd', hd'⟩ := search_sound hs
    rw [hs, SizeClass.le_antisymm hle' (hleast ⟨hd', hcd'⟩)]

theorem search_eq_none_iff (h : x.IsCoherent) :
    x.search c = none ↔ ∀ e, x.Marks e → ¬ c ≤ e := by
  constructor
  · intro hs e he hce
    obtain ⟨d, hd, -⟩ := search_complete h hce he
    rw [hs] at hd
    cases hd
  · intro hnone
    rw [Option.eq_none_iff_forall_ne_some]
    intro d hs
    obtain ⟨hle, hd⟩ := search_sound hs
    exact hnone d hd hle

theorem bin_lt_of_marks (h : x.Marks c) : c.bin < binCount := by
  by_contra hge
  rw [Marks, subsOf, Vector.getElem?_eq_none (Nat.not_lt.mp hge)] at h
  simp at h

/--
Sizes have existing classes in their order. A size is rounded up to the next boundary, where that is
a word, and the classes from there on are those of the sizes from there on. Marks of the existing
classes let the search find the least marked class from any on, and nothing else.
-/
theorem rounding_search_spec {s t : Nat} (hs : granule ∣ s) (hsw : s < wordLimit)
    (htw : t < wordLimit) :
    ((ofSize t).index < count ∧ (s ≤ t → ofSize s ≤ ofSize t)) ∧
    (∀ r b, roundUp? s = some (r, b) → granule ∣ r ∧ s ≤ r ∧ r - s < max 1 (s / 16) ∧
      b = ofSize r ∧ (b ≤ ofSize t ↔ r ≤ t)) ∧
    (∃ n, IsLeast {n | IsBoundary n ∧ s ≤ n} n ∧
      roundUp? s = if n < wordLimit then some (n, ofSize n) else none) ∧
    ∀ x : FreeIndex, x.IsCoherent → (∀ e, x.Marks e → e.sub < subCount) → ∀ b : SizeClass,
      (∀ d, x.search b = some d ↔ IsLeast {e | x.Marks e ∧ b ≤ e} d) ∧
      (x.search b = none ↔ ∀ e, x.Marks e → ¬ b ≤ e) ∧
      ∀ d, x.search b = some d → d.IsValid := by
  refine ⟨⟨index_lt (isValid_ofSize htw), ofSize_mono⟩, ?_, roundUp?_eq hs hsw, ?_⟩
  · intro r b hr
    obtain ⟨r', hr', heq⟩ := Option.map_eq_some_iff.mp hr
    obtain ⟨rfl, rfl⟩ := Prod.mk.inj heq
    have hlt : r' - s < max 1 (s / 16) := by
      rw [(eq_ceilTo_of_ceil? hr').1]
      exact ceilTo_sub_lt s
    exact ⟨granule_dvd_of_ceil? hs hr', le_of_ceil? hr', hlt, rfl, le_of_ofSize_le hs hr',
      ofSize_mono⟩
  · intro x hx hlow b
    refine ⟨fun d => search_eq_some_iff hx, search_eq_none_iff hx, ?_⟩
    intro d hd
    have hmark : x.Marks d := (search_sound hd).2
    exact ⟨bin_lt_of_marks hmark, hlow d hmark⟩

theorem rounding_search_spec_carried :
    (roundUp? 1008 = some (1024, ⟨3, 0⟩) ∧ (⟨3, 0⟩ ≤ ofSize 1008 ↔ 1024 ≤ 1008)) ∧
    IsLeast {e | (empty.mark ⟨3, 5⟩).Marks e ∧ ⟨3, 0⟩ ≤ e} ⟨3, 5⟩ := by
  have hr : roundUp? 1008 = some (1024, ⟨3, 0⟩) := by decide +kernel
  have hvalid : IsValid ⟨3, 5⟩ := by decide
  obtain ⟨-, hround, -, hsearch⟩ :=
    rounding_search_spec (s := 1008) (t := 1008) (by decide) (by decide) (by decide)
  have hlow : ∀ e, (empty.mark ⟨3, 5⟩).Marks e → e.sub < subCount := by
    intro e he
    rw [Marks, contains_subsOf_mark hvalid, Bool.or_eq_true, decide_eq_true_eq] at he
    rcases he with he | rfl
    · exact absurd he (by simp)
    · exact hvalid.2
  refine ⟨⟨hr, (hround _ _ hr).2.2.2.2⟩, ?_⟩
  exact ((hsearch _ (isCoherent_mark isCoherent_empty hvalid) hlow _).1 _).mp (by decide +kernel)

end FreeIndex

end MemoryKit
