import Mathlib.Tactic.Ring
import MemoryKit.Heap.SizeClass

/-! # The order of size classes

Each class begins at a least size, its floor. Rounding a request up reaches a floor, and floors grow
with their classes, so that every block of a class from the rounded one on is large enough.
-/

namespace MemoryKit.SizeClass

def IsValid (c : SizeClass) : Prop := c.bin < binCount ∧ c.sub < subCount

instance (c : SizeClass) : Decidable c.IsValid :=
  inferInstanceAs (Decidable (c.bin < binCount ∧ c.sub < subCount))

theorem log2_le_log2 {m n : Nat} (hm : m ≠ 0) (h : m ≤ n) : m.log2 ≤ n.log2 := by
  apply (Nat.le_log2 (by omega)).mpr
  exact Nat.le_trans (Nat.log2_self_le hm) h

/-- The least size of a class. -/
def floor (c : SizeClass) : Nat :=
  if c.bin = 0 then c.sub * granule else (subCount + c.sub) * 2 ^ (c.bin + 3)

theorem index_lt {c : SizeClass} (h : c.IsValid) : c.index < count := by
  obtain ⟨hb, hs⟩ := h
  simp only [index, count, binCount, subCount] at *
  omega

theorem index_inj {c d : SizeClass} (hc : c.IsValid) (hd : d.IsValid) :
    c.index = d.index ↔ c = d := by
  constructor
  · intro h
    obtain ⟨cb, cs⟩ := c
    obtain ⟨db, ds⟩ := d
    have := hc.2
    have := hd.2
    simp only [index, subCount] at *
    simp only [SizeClass.mk.injEq]
    omega
  · rintro rfl
    rfl

theorem exists_position {size : Nat} (h : linearLimit ≤ size) :
    ∃ k s rest, size.log2 = k + 8 ∧ s < 16 ∧ rest < 2 ^ (k + 4) ∧
      size = (16 + s) * 2 ^ (k + 4) + rest := by
  have hne : size ≠ 0 := by unfold linearLimit at h; omega
  obtain ⟨k, hk⟩ : ∃ k, size.log2 = k + 8 :=
    ⟨size.log2 - 8, by
      have : 8 ≤ size.log2 := (Nat.le_log2 hne).mpr h
      omega⟩
  obtain ⟨hlo, hhi⟩ := (Nat.log2_eq_iff hne).mp hk
  have hpos : 0 < 2 ^ (k + 4) := Nat.two_pow_pos _
  have hlo' : 16 ≤ size / 2 ^ (k + 4) := by
    rw [Nat.le_div_iff_mul_le hpos]
    calc 16 * 2 ^ (k + 4) = 2 ^ (k + 8) := by ring
      _ ≤ size := hlo
  have hhi' : size / 2 ^ (k + 4) < 32 := by
    rw [Nat.div_lt_iff_lt_mul hpos]
    calc size < 2 ^ (k + 8 + 1) := hhi
      _ = 32 * 2 ^ (k + 4) := by ring
  refine ⟨k, size / 2 ^ (k + 4) - 16, size % 2 ^ (k + 4), hk, by omega, Nat.mod_lt _ hpos, ?_⟩
  rw [Nat.add_sub_cancel' hlo', Nat.mul_comm]
  exact (Nat.div_add_mod _ _).symm

theorem log2_position {k s rest : Nat} (hs : s < 16) (hr : rest < 2 ^ (k + 4)) :
    ((16 + s) * 2 ^ (k + 4) + rest).log2 = k + 8 := by
  have hpos : 0 < 2 ^ (k + 4) := Nat.two_pow_pos _
  have h₁ : 2 ^ (k + 8) = 16 * 2 ^ (k + 4) := by ring
  have h₂ : 2 ^ (k + 8 + 1) = 32 * 2 ^ (k + 4) := by ring
  have h₃ : 16 * 2 ^ (k + 4) ≤ (16 + s) * 2 ^ (k + 4) := Nat.mul_le_mul_right _ (by omega)
  have h₄ : (16 + s) * 2 ^ (k + 4) ≤ 31 * 2 ^ (k + 4) := Nat.mul_le_mul_right _ (by omega)
  rw [Nat.log2_eq_iff (by omega)]
  omega

theorem linearLimit_le_position (k s rest : Nat) :
    linearLimit ≤ (16 + s) * 2 ^ (k + 4) + rest := by
  have h : 16 * 2 ^ 4 ≤ (16 + s) * 2 ^ (k + 4) :=
    Nat.mul_le_mul (by omega) (Nat.pow_le_pow_right (by omega) (by omega))
  unfold linearLimit
  omega

theorem ofSize_position {k s rest : Nat} (hs : s < 16) (hr : rest < 2 ^ (k + 4)) :
    ofSize ((16 + s) * 2 ^ (k + 4) + rest) = ⟨k + 1, s⟩ := by
  have hpos : 0 < 2 ^ (k + 4) := Nat.two_pow_pos _
  have hdiv : ((16 + s) * 2 ^ (k + 4) + rest) / 2 ^ (k + 4) = 16 + s := by
    rw [Nat.add_comm, Nat.add_mul_div_right _ _ hpos, Nat.div_eq_of_lt hr, Nat.zero_add]
  rw [ofSize, if_neg (Nat.not_lt.mpr (linearLimit_le_position ..)), log2_position hs hr,
    show k + 8 - 4 = k + 4 by omega, Nat.one_shiftLeft, hdiv]
  simp only [subCount, SizeClass.mk.injEq]
  omega

theorem ofSize_linear {size : Nat} (h : size < linearLimit) : ofSize size = ⟨0, size / granule⟩ :=
  if_pos h

@[simp] theorem floor_linear (s : Nat) : floor ⟨0, s⟩ = s * granule := rfl

@[simp] theorem floor_position (k s : Nat) : floor ⟨k + 1, s⟩ = (16 + s) * 2 ^ (k + 4) := rfl

theorem isValid_ofSize {size : Nat} (h : size < wordLimit) : (ofSize size).IsValid := by
  rcases Nat.lt_or_ge size linearLimit with hl | hl
  · rw [ofSize_linear hl]
    simp only [IsValid, binCount, subCount, granule, linearLimit] at *
    omega
  · obtain ⟨k, s, rest, -, hs, hr, rfl⟩ := exists_position hl
    rw [ofSize_position hs hr]
    refine ⟨?_, hs⟩
    have hk : 2 ^ (k + 8) < 2 ^ 32 :=
      calc 2 ^ (k + 8) = 16 * 2 ^ (k + 4) := by ring
        _ ≤ (16 + s) * 2 ^ (k + 4) := Nat.mul_le_mul_right _ (by omega)
        _ < 2 ^ 32 := Nat.lt_of_le_of_lt (Nat.le_add_right _ _) h
    have := (Nat.pow_lt_pow_iff_right (by omega : 1 < 2)).mp hk
    simp only [binCount]
    omega

theorem floor_ofSize_le (size : Nat) : floor (ofSize size) ≤ size := by
  rcases Nat.lt_or_ge size linearLimit with hl | hl
  · rw [ofSize_linear hl, floor_linear]
    exact Nat.div_mul_le_self _ _
  · obtain ⟨k, s, rest, -, hs, hr, rfl⟩ := exists_position hl
    rw [ofSize_position hs hr, floor_position]
    exact Nat.le_add_right _ _

theorem floor_mono {c d : SizeClass} (hc : c.IsValid) (h : c ≤ d) : floor c ≤ floor d := by
  obtain ⟨cb, cs⟩ := c
  obtain ⟨db, ds⟩ := d
  have hcs : cs < 16 := hc.2
  change cb < db ∨ cb = db ∧ cs ≤ ds at h
  rcases h with h | ⟨rfl, h⟩
  · obtain ⟨k, rfl⟩ : ∃ k, db = k + 1 := ⟨db - 1, by omega⟩
    rw [floor_position]
    refine Nat.le_trans ?_ (Nat.mul_le_mul_right _ (Nat.le_add_right 16 ds))
    cases cb with
    | zero =>
      have : 2 ^ 4 ≤ 2 ^ (k + 4) := Nat.pow_le_pow_right (by omega) (by omega)
      simp only [floor_linear, granule]
      omega
    | succ j =>
      have hj : 2 ^ (j + 5) ≤ 2 ^ (k + 4) := Nat.pow_le_pow_right (by omega) (by omega)
      calc (16 + cs) * 2 ^ (j + 4) ≤ 32 * 2 ^ (j + 4) := Nat.mul_le_mul_right _ (by omega)
        _ = 16 * 2 ^ (j + 5) := by ring
        _ ≤ 16 * 2 ^ (k + 4) := Nat.mul_le_mul_left _ hj
  · cases cb with
    | zero => exact Nat.mul_le_mul_right _ h
    | succ j =>
      rw [floor_position, floor_position]
      exact Nat.mul_le_mul_right _ (by omega)

theorem ofSize_mono {size size' : Nat} (h : size ≤ size') : ofSize size ≤ ofSize size' := by
  change (ofSize size).bin < (ofSize size').bin ∨
    (ofSize size).bin = (ofSize size').bin ∧ (ofSize size).sub ≤ (ofSize size').sub
  rcases Nat.lt_or_ge size' linearLimit with hl' | hl'
  · rw [ofSize_linear hl', ofSize_linear (Nat.lt_of_le_of_lt h hl')]
    exact .inr ⟨rfl, Nat.div_le_div_right h⟩
  obtain ⟨k', s', rest', hlog', hs', hr', he'⟩ := exists_position hl'
  rw [he', ofSize_position hs' hr']
  rcases Nat.lt_or_ge size linearLimit with hl | hl
  · rw [ofSize_linear hl]
    exact .inl (Nat.succ_pos k')
  obtain ⟨k, s, rest, hlog, hs, hr, he⟩ := exists_position hl
  rw [he, ofSize_position hs hr]
  have hk : k ≤ k' := by
    have hle := log2_le_log2 (by unfold linearLimit at hl; omega) h
    omega
  rcases Nat.lt_or_eq_of_le hk with hlt | rfl
  · exact .inl (Nat.succ_lt_succ hlt)
  · refine .inr ⟨rfl, ?_⟩
    by_contra hgt
    have hmul : (16 + s' + 1) * 2 ^ (k + 4) ≤ (16 + s) * 2 ^ (k + 4) :=
      Nat.mul_le_mul_right _ (by dsimp only at hgt; omega)
    rw [Nat.add_mul, Nat.one_mul] at hmul
    omega

theorem step_linear {size : Nat} (h : size < linearLimit) : step size = 1 := if_pos h

theorem step_position {k s rest : Nat} (hs : s < 16) (hr : rest < 2 ^ (k + 4)) :
    step ((16 + s) * 2 ^ (k + 4) + rest) = 2 ^ (k + 4) := by
  rw [step, if_neg (Nat.not_lt.mpr (linearLimit_le_position ..)), log2_position hs hr,
    Nat.one_shiftLeft]
  rfl

theorem step_pos (size : Nat) : 0 < step size := by
  unfold step
  split
  · exact Nat.one_pos
  · rw [Nat.one_shiftLeft]
    exact Nat.two_pow_pos _

theorem step_mono {size size' : Nat} (h : size ≤ size') : step size ≤ step size' := by
  rcases Nat.lt_or_ge size linearLimit with hl | hl
  · rw [step_linear hl]
    exact step_pos size'
  · have hlog := log2_le_log2 (by unfold linearLimit at hl; omega) h
    rw [step, step, if_neg (Nat.not_lt.mpr hl), if_neg (Nat.not_lt.mpr (Nat.le_trans hl h)),
      Nat.one_shiftLeft, Nat.one_shiftLeft]
    exact Nat.pow_le_pow_right (by omega) (by omega)

theorem step_dvd_wordLimit {size : Nat} (h : size < wordLimit) : step size ∣ wordLimit := by
  unfold step
  split
  · exact Nat.one_dvd _
  · next hl =>
    rw [Nat.one_shiftLeft, wordLimit, Nat.one_shiftLeft]
    apply Nat.pow_dvd_pow
    have hlog : size.log2 < 32 :=
      (Nat.log2_lt (by unfold linearLimit at hl; omega)).mpr (by rwa [wordLimit] at h)
    omega

theorem ceil?_eq_some_iff {size r : Nat} (h : size < wordLimit) :
    ceil? size = some r ↔ ceilTo (step size) size = r ∧ r < wordLimit := by
  have hpos := step_pos size
  rw [ceil?, ceilTo?_eq_some_iff, and_comm]
  apply and_congr_right
  rintro rfl
  constructor
  · intro hlt
    have hle : ceilTo (step size) size ≤ size + (step size - 1) := Nat.div_mul_le_self _ _
    omega
  · -- The limit is a multiple of the step, so that a sum that reaches it is not rounded below it.
    intro hlt
    by_contra hge
    obtain ⟨k, hk⟩ := step_dvd_wordLimit h
    have hk' : k ≤ (size + (step size - 1)) / step size := by
      rw [Nat.le_div_iff_mul_le hpos, Nat.mul_comm, ← hk]
      exact Nat.not_lt.mp hge
    have hmul := Nat.mul_le_mul_right (step size) hk'
    rw [Nat.mul_comm k, ← hk] at hmul
    exact Nat.not_lt.mpr hmul hlt

theorem ceilOrSelf_eq {size r : Nat} (h : size ≤ r) (hr : r + (step r - 1) < wordLimit) :
    ceilOrSelf size = ceilTo (step size) size := by
  have hstep := step_mono h
  rw [ceilOrSelf, ceil?, ceilTo?, if_pos (by omega), Option.getD_some]

theorem eq_ceilTo_of_ceil? {size r : Nat} (h : ceil? size = some r) :
    r = ceilTo (step size) size ∧ size + (step size - 1) < wordLimit := by
  obtain ⟨hlt, hr⟩ := ceilTo?_eq_some_iff.mp h
  exact ⟨hr.symm, hlt⟩

theorem le_of_ceil? {size r : Nat} (h : ceil? size = some r) : size ≤ r := by
  rw [(eq_ceilTo_of_ceil? h).1]
  exact le_ceilTo _ (step_pos size)

theorem lt_wordLimit_of_ceil? {size r : Nat} (h : ceil? size = some r) : r < wordLimit := by
  obtain ⟨hr, hlt⟩ := eq_ceilTo_of_ceil? h
  have : r ≤ size + (step size - 1) := hr ▸ Nat.div_mul_le_self _ _
  omega

/-- A size of a granule's multiple is rounded up to the floor of a class. -/
theorem floor_ofSize_ceilTo {size : Nat} (h : granule ∣ size) :
    floor (ofSize (ceilTo (step size) size)) = ceilTo (step size) size := by
  rcases Nat.lt_or_ge size linearLimit with hl | hl
  · have hc : ceilTo (step size) size = size := by
      rw [step_linear hl]
      simp [ceilTo]
    rw [hc, ofSize_linear hl, floor_linear]
    exact Nat.div_mul_cancel h
  · obtain ⟨k, s, rest, -, hs, hr, rfl⟩ := exists_position hl
    rw [step_position hs hr]
    obtain ⟨t, ht, hc⟩ : ∃ t ≤ 16, ceilTo (2 ^ (k + 4)) ((16 + s) * 2 ^ (k + 4) + rest) =
        (16 + t) * 2 ^ (k + 4) := by
      refine ⟨s + (rest + (2 ^ (k + 4) - 1)) / 2 ^ (k + 4), ?_, ?_⟩
      · have : (rest + (2 ^ (k + 4) - 1)) / 2 ^ (k + 4) < 2 := by
          rw [Nat.div_lt_iff_lt_mul (Nat.two_pow_pos _)]
          omega
        omega
      · rw [ceilTo, Nat.add_assoc, Nat.mul_comm (16 + s), Nat.mul_add_div (Nat.two_pow_pos _),
          ← Nat.add_assoc]
    rw [hc]
    rcases Nat.lt_or_ge t 16 with h16 | h16
    · have := ofSize_position (k := k) h16 (Nat.two_pow_pos (k + 4))
      rw [Nat.add_zero] at this
      rw [this, floor_position]
    · -- the carry into the next power of two
      obtain rfl : t = 16 := by omega
      have he : (16 + 16) * 2 ^ (k + 4) = (16 + 0) * 2 ^ (k + 1 + 4) + 0 := by ring
      rw [he, ofSize_position (by omega) (Nat.two_pow_pos _), floor_position]
      rfl

theorem floor_ofSize_of_ceil? {size r : Nat} (h : granule ∣ size) (hr : ceil? size = some r) :
    floor (ofSize r) = r := by
  rw [(eq_ceilTo_of_ceil? hr).1]
  exact floor_ofSize_ceilTo h

theorem le_of_ofSize_le {size r t : Nat} (h : granule ∣ size) (hr : ceil? size = some r)
    (hle : ofSize r ≤ ofSize t) : r ≤ t :=
  calc r = floor (ofSize r) := (floor_ofSize_of_ceil? h hr).symm
    _ ≤ floor (ofSize t) := floor_mono (isValid_ofSize (lt_wordLimit_of_ceil? hr)) hle
    _ ≤ t := floor_ofSize_le t

theorem granule_dvd_of_ceil? {size r : Nat} (h : granule ∣ size) (hr : ceil? size = some r) :
    granule ∣ r := by
  obtain ⟨rfl, -⟩ := eq_ceilTo_of_ceil? hr
  rcases Nat.lt_or_ge size linearLimit with hl | hl
  · rw [step_linear hl]
    simpa [ceilTo] using h
  · obtain ⟨k, s, rest, -, hs, hlt, rfl⟩ := exists_position hl
    rw [step_position hs hlt]
    refine Nat.dvd_trans ?_ (dvd_ceilTo _ _)
    exact ⟨2 ^ k, by rw [granule]; ring⟩

theorem le_ceilOrSelf (size : Nat) : size ≤ ceilOrSelf size := by
  unfold ceilOrSelf
  cases h : ceil? size with
  | none => exact Nat.le_refl _
  | some r => exact le_of_ceil? h

theorem granule_dvd_ceilOrSelf {size : Nat} (h : granule ∣ size) : granule ∣ ceilOrSelf size := by
  unfold ceilOrSelf
  cases hr : ceil? size with
  | none => exact h
  | some r => exact granule_dvd_of_ceil? h hr

end MemoryKit.SizeClass
