import MemoryKit.Proofs.Allocator.Usage
import MemoryKit.Proofs.Heap.Operations

/-! # Where allocations lie

An allocation lies in a used block, behind its header. The words that lead from its pointer to the
block are data of that block, so that an allocation stays where it is when other blocks come and go.
-/

namespace MemoryKit

/-- The addresses of a region are sizes. -/
def Region.InRange (r : Region) : Prop := r.start + r.size ≤ sizeLimit

namespace Allocator

open Heap

variable {a a' : Allocator} {L L' : Layout} {b b' c : Block} {user user' : Nat} {x x' y : Holding}
  {gone new : Option Block}

/-- The data of an allocation begins at an offset in a used block. -/
structure IsPlaced (a : Allocator) (x : Holding) (b : Block) (user : Nat) : Prop where
  used : b.used = true
  pointer_eq : x.pointer = a.region.address user
  granule_dvd : granule ∣ user
  header_le : b.offset + headerSize ≤ user
  fits : user + max x.bytes 1 ≤ b.offset + b.size
  user_eq : a.heap.user b.offset = user
  blockAt_eq : a.blockAt user = b.offset
  tag_eq : alignmentOfTag (a.heap.tag b.offset) = x.options.alignment
  aligned : x.options.alignment ∣ x.pointer

structure HasLayout (a : Allocator) (L : Layout) : Prop where
  heap : a.heap.HasLayout L
  settled : L.Settled
  capacity_pos : 0 < a.heap.capacity
  capacity_le : a.heap.capacity ≤ a.region.size
  granule_dvd : granule ∣ a.region.start
  labels_le : a.labels.size ≤ noLabel

theorem HasLayout.of_trades (H : a.HasLayout L) (T : Trades a.heap L a'.heap L' gone new)
    (hregion : a'.region = a.region) (hlabels : a'.labels.size ≤ noLabel) : a'.HasLayout L' where
  heap := T.layout
  settled := T.settled
  capacity_pos := by
    rw [T.capacity]
    exact H.capacity_pos
  capacity_le := by
    rw [T.capacity, hregion]
    exact H.capacity_le
  granule_dvd := hregion ▸ H.granule_dvd
  labels_le := hlabels

namespace IsPlaced

theorem user_lt (P : a.IsPlaced x b user) : user < b.offset + b.size := by
  have := P.fits
  omega

theorem locate_eq (H : a.HasLayout L) (hb : b ∈ L.blocks) (P : a.IsPlaced x b user) :
    a.locate x.pointer = .ok (b.offset, user) := by
  have hbounds := H.heap.valid.tiles.bounds hb
  have hlt := P.user_lt
  have hcap := H.capacity_le
  have hoffset : a.offsetOf? x.pointer = some user := by
    rw [offsetOf?, P.pointer_eq, Region.offsetOf?_address (by omega)]
    simp
    omega
  have huser : user % granule = 0 := Nat.mod_eq_zero_of_dvd P.granule_dvd
  have hheader : ¬ user < headerSize := by
    have := P.header_le
    omega
  have his : a.heap.isAllocation b.offset user = true := by
    have hmod : b.offset % granule = 0 := Nat.mod_eq_zero_of_dvd (H.heap.granule_dvd hb)
    simp only [isAllocation, hmod, H.heap.isUsed_eq hb, H.heap.blockSize_eq hb, P.user_eq, P.used,
      Bool.and_eq_true, decide_eq_true_eq, beq_self_eq_true, true_and, and_true]
    exact ⟨⟨P.header_le, by omega⟩, hlt⟩
  unfold locate
  rw [hoffset]
  simp only [huser, hheader, ne_eq, not_true_eq_false, or_false, if_false, P.blockAt_eq, his,
    if_true]

theorem size?_eq (H : a.HasLayout L) (hb : b ∈ L.blocks) (P : a.IsPlaced x b user) :
    a.size? x.pointer = some (b.offset + b.size - user) := by
  unfold size?
  rw [P.locate_eq H hb]
  simp only [H.heap.blockSize_eq hb]

/-- The words that lead to the block of an allocation lie between its header and its data. -/
theorem congr (P : a.IsPlaced x b user) (hregion : a'.region = a.region)
    (hb : b'.offset = b.offset) (hu : b'.used = true) (hp : x'.pointer = x.pointer)
    (ho : x'.options = x.options) (hfits : user + max x'.bytes 1 ≤ b'.offset + b'.size)
    (hkept : ∀ i, b.offset + 8 ≤ i → i < user →
      a'.heap.memory.byte i = a.heap.memory.byte i) : a'.IsPlaced x' b' user := by
  have hfront := P.header_le
  simp only [headerSize] at hfront
  have hword : ∀ i, b.offset + 8 ≤ i → i + 4 ≤ user → a'.heap.word i = a.heap.word i :=
    fun i hlo hhi => Memory.word_congr fun j hj hj' => hkept j (by omega) (by omega)
  have hlink : a'.blockAt user = a.blockAt user := by
    simp only [blockAt, hword (user - 4) (by omega) (by omega)]
  refine ⟨hu, ?_, P.granule_dvd, hb ▸ P.header_le, hfits, ?_, ?_, ?_, ?_⟩
  · rw [hp, hregion, P.pointer_eq]
  · rw [hb, ← P.user_eq]
    exact hword _ (by simp [nextField]) (by simp only [nextField]; omega)
  · rw [hb, hlink, P.blockAt_eq]
  · rw [hb, ho, ← P.tag_eq]
    exact congrArg alignmentOfTag
      (hword _ (by simp [prevField]) (by simp only [prevField]; omega))
  · rw [hp, ho]
    exact P.aligned

theorem inData (P : a.IsPlaced x b user) (hb : b ∈ L.blocks) {i : Nat}
    (hlo : b.offset + 8 ≤ i) (hhi : i < b.offset + b.size) : InData L.blocks i :=
  ⟨b, hb, P.used, hlo, hhi⟩

theorem of_trades (P : a.IsPlaced x b user) (hb : b ∈ L.blocks)
    (T : Trades a.heap L a'.heap L' gone new) (hregion : a'.region = a.region) (hgone : b ∉ gone) :
    b ∈ L'.blocks ∧ a'.IsPlaced x b user := by
  have hb' := T.mem_of_mem P.used hb hgone
  have hlt := P.user_lt
  exact ⟨hb', P.congr hregion rfl P.used rfl rfl P.fits fun i hlo hhi =>
    T.kept i (P.inData hb hlo (by omega)) (P.inData hb' hlo (by omega))⟩

theorem pointer_eq_of_eq (P : a.IsPlaced x b user) (P' : a.IsPlaced y b user') :
    x.pointer = y.pointer := by
  obtain rfl : user = user' := P.user_eq.symm.trans P'.user_eq
  rw [P.pointer_eq, P'.pointer_eq]

theorem eq_of_region (P : a.IsPlaced x b user) (P' : a'.IsPlaced y c user') (H : a.HasLayout L)
    (hb : b ∈ L.blocks) (hc : c ∈ L.blocks) (hregion : a'.region = a.region)
    (hp : x.pointer = y.pointer) : b = c ∧ user = user' := by
  have huser : user = user' := by
    have he := P.pointer_eq.symm.trans (hp.trans P'.pointer_eq)
    rw [hregion] at he
    exact Nat.add_left_cancel he
  have hlt := P.user_lt
  have hlt' := P'.user_lt
  have hle := P.header_le
  have hle' := P'.header_le
  refine ⟨(H.heap.valid.tiles.apart hb hc).resolve_right ?_, huser⟩
  omega

theorem block_eq (P : a.IsPlaced x b user) (P' : a.IsPlaced y c user') (H : a.HasLayout L)
    (hb : b ∈ L.blocks) (hc : c ∈ L.blocks) (hp : x.pointer = y.pointer) : b = c :=
  (P.eq_of_region P' H hb hc rfl hp).1

end IsPlaced

end Allocator

end MemoryKit
