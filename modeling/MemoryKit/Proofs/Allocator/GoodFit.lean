import MemoryKit.Proofs.Allocator.Safety
import MemoryKit.Proofs.Heap.GoodFit

/-! # Which requests are served

A request is served exactly if its size, rounded up to a class, is a word and some free block is as
large. It is served from a good fit. The block keeps the rounded size, unless the data does not
follow the header: then it keeps what the distance to the data and the data come to, rounded up.
-/

namespace MemoryKit.Allocator

open Heap SizeClass

variable {a : Allocator} {h h' : Heap} {L L' : Layout} {b : Block} {user data total bytes x : Nat}
  {label : Label} {options : AllocationOptions}

/-- The heap is well formed and lies in a region of addresses. -/
structure IsInOrder (a : Allocator) : Prop where
  sized : a.Sized
  wellFormed : a.heap.IsWellFormed
  inRange : a.region.InRange

theorem IsInOrder.exists_layout (ho : a.IsInOrder) : ∃ L, a.HasLayout L := by
  obtain ⟨L, H, hs⟩ := ho.wellFormed.exists_layout ho.sized.capacity_lt
  exact ⟨L, H, hs, ho.sized.capacity_pos, ho.sized.capacity_le, ho.sized.granule_dvd,
    ho.sized.labels_le⟩

theorem isInOrder_of_reachable {arena : Arena} {u : Usage} (h : Usage.Reachable arena u)
    (hr : arena.toRegion.InRange) : u.allocator.IsInOrder := by
  obtain ⟨⟨L, S⟩, hregion⟩ := h.serves
  exact ⟨S.layout.sized, S.layout.heap.isWellFormed S.layout.settled, hregion ▸ hr⟩

/-- The size of a block that was taken with a size once data was placed in it. -/
def sizePlaced (size lead data : Nat) : Nat :=
  if lead = headerSize then size else min size (ceilTo (step (lead + data)) (lead + data))

theorem trades_furnish (tag : Nat) (T : Trades h L h' L' none (some b))
    (hs : KeepsStale h L h' L') (hdvd : granule ∣ user) (hle : b.offset + headerSize ≤ user)
    (hpos : 0 < data) (hdata : granule ∣ data) (hfits : user + data ≤ b.offset + total)
    (htotal : total ≤ b.size) (hround : total + (step total - 1) < wordLimit) :
    ∃ L'', Trades h L (furnish h' b.offset user data tag) L'' none
      (some { b with size := sizePlaced b.size (user - b.offset) data }) := by
  have T₁ := trades_linked tag T hs hdvd hle (by omega)
  have hb := T.layout.granule_dvd T.new_mem
  rw [furnish_eq, sizePlaced]
  by_cases hpad : headerSize < user - b.offset
  · rw [if_pos hpad, if_neg (Nat.ne_of_gt hpad)]
    have hneeded : granule ∣ user - b.offset + data := Nat.dvd_add (Nat.dvd_sub hdvd hb) hdata
    obtain ⟨L'', T₂, hs₂⟩ := T₁.layout.trades_shrink T₁.settled T₁.new_mem (T₁.fresh b rfl).1
      (by omega) hneeded
    rw [ceilOrSelf_eq (by omega) hround] at T₂
    exact ⟨L'', T₁.trans_cut T₂ hs₂ rfl⟩
  · rw [if_neg hpad, if_pos (by omega)]
    exact ⟨L', T₁⟩

section Serving

variable (H : a.HasLayout L) (hr : a.region.InRange) (hp : a.poisoned = false)

include H hr hp

theorem HasLayout.allocateAligned_of_taken (label : Label)
    (hs : requestSize? bytes options.alignment = some (data, total))
    (ha : a.heap.allocate total = some (x, h')) :
    ∃ user tag, granule ∣ user ∧ x + headerSize ≤ user ∧ user + data ≤ x + total ∧
      (a.allocateAligned bytes label options.alignment).answer = some (a.region.address user) ∧
      (a.allocateAligned bytes label options.alignment).state.heap =
        furnish h' x user data tag := by
  obtain ⟨hbytes, hdata, rfl⟩ := requestSize?_eq_some hs
  obtain ⟨L', b, T, rfl, hsize, -⟩ := H.heap.allocate H.settled
    (Nat.dvd_add hdata (granule_dvd_alignment options)) (by omega) ha
  have hend := (T.layout.valid.tiles.bounds T.new_mem).2.1
  have hcap := H.capacity_le
  have hlimit := H.heap.capacity_lt
  rw [T.capacity] at hend
  have hb := T.layout.granule_dvd T.new_mem
  obtain ⟨user, huser, hdvd, hle, hfits⟩ : ∃ user, _ :=
    exists_user (b := ⟨b.offset, data + options.alignment, true⟩) H.granule_dvd hb (Nat.le_refl _)
  dsimp only at huser hle hfits
  have hge : granule ≤ data := Nat.le_of_dvd (by omega) hdata
  have hpointer : ceilTo? sizeLimit options.alignment (a.region.address (b.offset + headerSize)) =
      some (a.region.address user) := by
    refine ceilTo?_eq_some_iff.mpr ⟨?_, huser⟩
    simp only [Region.address, Region.InRange, headerSize, granule] at *
    omega
  have hback : (a.region.address user - a.region.start) % wordLimit = user := by
    rw [Region.address, Nat.add_sub_cancel_left, Nat.mod_eq_of_lt (by omega)]
  refine ⟨user, tagOf options.alignment (recordLabel { a with heap := h' } label).answer,
    hdvd, hle, hfits, ?_⟩
  unfold allocateAligned
  rw [if_neg (Bool.eq_false_iff.mp hp)]
  simp only [hs, ha, hpointer, hback, true_and]
  exact congrArg (furnish · b.offset user data _) (heap_recordLabel _ label)

theorem HasLayout.isSome_allocateAligned_iff :
    (a.allocateAligned bytes label options.alignment).answer.isSome = true ↔
      ∃ data total, requestSize? bytes options.alignment = some (data, total) ∧
        (a.heap.allocate total).isSome = true := by
  constructor
  · intro h
    unfold allocateAligned at h
    rw [if_neg (Bool.eq_false_iff.mp hp)] at h
    cases hs : requestSize? bytes options.alignment with
    | none =>
      rw [hs] at h
      cases h
    | some sizes =>
      obtain ⟨data, total⟩ := sizes
      refine ⟨data, total, rfl, ?_⟩
      cases ha : a.heap.allocate total with
      | none =>
        rw [hs] at h
        simp only [ha, Option.isSome_none, Bool.false_eq_true] at h
      | some taken => rfl
  · rintro ⟨data, total, hs, ha⟩
    obtain ⟨⟨x, h'⟩, ha⟩ := Option.isSome_iff_exists.mp ha
    obtain ⟨user, -, -, -, -, hanswer, -⟩ := H.allocateAligned_of_taken hr hp label hs ha
    rw [hanswer]
    rfl

theorem HasLayout.isGoodFit_of_allocateAligned {rounded pointer : Nat}
    (hs : requestSize? bytes options.alignment = some (data, total))
    (hround : ceil? total = some rounded)
    (ha : (a.allocateAligned bytes label options.alignment).answer = some pointer) :
    ∃ b user, a.heap.IsGoodFit rounded b ∧ pointer = a.region.address user ∧
      b.offset + headerSize ≤ user ∧ ⟨b.offset, sizePlaced rounded (user - b.offset) data, true⟩ ∈
        (a.allocateAligned bytes label options.alignment).state.heap.blocks := by
  obtain ⟨data', total', hs', htaken⟩ :=
    (H.isSome_allocateAligned_iff hr hp).mp (Option.isSome_iff_exists.mpr ⟨pointer, ha⟩)
  cases hs.symm.trans hs'
  obtain ⟨⟨x, h'⟩, htaken⟩ := Option.isSome_iff_exists.mp htaken
  obtain ⟨user, tag, hgranule, hle, hfits, hanswer, hheap⟩ :=
    H.allocateAligned_of_taken hr hp label hs htaken
  obtain ⟨hbytes, hdata, rfl⟩ := requestSize?_eq_some hs
  obtain ⟨b, hfit, rfl, -, L', T, hkeeps⟩ := H.heap.isGoodFit_of_allocate H.settled
    (Nat.dvd_add hdata (granule_dvd_alignment options)) (by omega) hround htaken
  obtain ⟨L'', T'⟩ := trades_furnish tag T hkeeps hgranule hle (by omega) hdata hfits
    (le_of_ceil? hround) (eq_ceilTo_of_ceil? hround).2
  refine ⟨b, user, hfit, Option.some.inj (ha.symm.trans hanswer), hle, ?_⟩
  rw [hheap, T'.layout.blocks_eq]
  exact T'.new_mem

end Serving

/--
A request is served exactly if its size and the size rounded up to a class are words and some free
block is as large as that. It gets the first block of the first class that has one, from the class
of the rounded size on. Of this block it keeps the rounded size if the data follows the header, and
else the least of that and the size that the distance to the data and the data come to.
-/
theorem IsInOrder.serves_good_fit (ho : a.IsInOrder) (hp : a.poisoned = false) (bytes : Nat)
    (label : Label) (options : AllocationOptions) :
    let data := ceilTo granule (max bytes 1)
    let total := data + options.alignment
    let rounded := ceilTo (step total) total
    let served := a.allocate bytes label options
    (served.answer.isSome = true ↔ total < wordLimit ∧ rounded < wordLimit ∧
      ∃ b ∈ a.heap.blocks, b.used = false ∧ rounded ≤ b.size) ∧
    ∀ pointer, served.answer = some pointer → ∃ b user, a.heap.IsGoodFit rounded b ∧
      pointer = a.region.address user ∧ b.offset + headerSize ≤ user ∧
      ⟨b.offset, sizePlaced rounded (user - b.offset) data, true⟩ ∈ served.state.heap.blocks := by
  intro data total rounded served
  obtain ⟨L, H⟩ := ho.exists_layout
  have hdvd : granule ∣ total :=
    Nat.dvd_add (dvd_ceilTo _ _) (granule_dvd_alignment options)
  have hiff : served.answer.isSome = true ↔ total < wordLimit ∧ rounded < wordLimit ∧
      ∃ b ∈ a.heap.blocks, b.used = false ∧ rounded ≤ b.size := by
    apply (H.isSome_allocateAligned_iff ho.inRange hp).trans
    constructor
    · rintro ⟨data', total', hs, ha⟩
      obtain ⟨rfl, rfl, hword⟩ := requestSize?_eq_some_iff.mp hs
      cases hr : ceil? total with
      | none =>
        rw [allocate_of_ceil?_eq_none hr] at ha
        cases ha
      | some r =>
        obtain ⟨rfl, hlt⟩ := (ceil?_eq_some_iff hword).mp hr
        exact ⟨hword, hlt, (H.heap.isSome_allocate_iff H.settled hdvd hr).mp ha⟩
    · rintro ⟨hword, hlt, hfree⟩
      have hr : ceil? total = some rounded := (ceil?_eq_some_iff hword).mpr ⟨rfl, hlt⟩
      exact ⟨data, total, requestSize?_eq_some_iff.mpr ⟨rfl, rfl, hword⟩,
        (H.heap.isSome_allocate_iff H.settled hdvd hr).mpr hfree⟩
  refine ⟨hiff, ?_⟩
  intro pointer hserved
  obtain ⟨hword, hlt, -⟩ := hiff.mp (Option.isSome_iff_exists.mpr ⟨pointer, hserved⟩)
  exact H.isGoodFit_of_allocateAligned ho.inRange hp
    (requestSize?_eq_some_iff.mpr ⟨rfl, rfl, hword⟩) ((ceil?_eq_some_iff hword).mpr ⟨rfl, hlt⟩)
    hserved

def skewed : Allocator := ⟨⟨4128, 512⟩, .create .zeroed 512, #[], 0, 0, 0, false⟩

theorem IsInOrder.serves_good_fit_skewed :
    skewed.IsInOrder ∧ skewed.poisoned = false ∧
      ⟨0, 64, true⟩ ∈ (skewed.allocate 20 ⟨8, "a"⟩ { alignment := 64 }).state.heap.blocks ∧
      (skewed.allocate 497 ⟨16, "b"⟩ .standard).answer = none := by
  have hnew : Usage.Reachable (.borrow 4128 512 .zeroed) ⟨skewed, []⟩ := .start rfl
  have hrange : 4128 + 512 ≤ sizeLimit := by decide
  have ho : skewed.IsInOrder := isInOrder_of_reachable hnew hrange
  have hblocks : skewed.heap.blocks = [⟨0, 512, false⟩] := by decide +kernel
  refine ⟨ho, rfl, ?_, ?_⟩
  · have hanswer : (skewed.allocate 20 ⟨8, "a"⟩ { alignment := 64 }).answer = some 4160 := by
      decide +kernel
    obtain ⟨b, user, hfit, hpointer, -, hplaced⟩ :=
      (ho.serves_good_fit rfl 20 ⟨8, "a"⟩ { alignment := 64 }).2 4160 hanswer
    have hmem := hfit.mem
    rw [hblocks, List.mem_singleton] at hmem
    obtain rfl : user = 32 := Nat.add_left_cancel (hpointer.symm : 4128 + user = 4128 + 32)
    rw [hmem] at hplaced
    exact hplaced
  · have hiff := (ho.serves_good_fit rfl 497 ⟨16, "b"⟩ .standard).1
    rw [← Option.not_isSome_iff_eq_none, hiff]
    rintro ⟨-, -, b, hb, -, hfit⟩
    rw [hblocks, List.mem_singleton] at hb
    rw [hb] at hfit
    exact absurd hfit (by decide)

end MemoryKit.Allocator
