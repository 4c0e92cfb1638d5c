import MemoryKit.Proofs.Allocator.Requests

/-! # Freeing and resizing allocations

A live allocation that is freed gives back its block. One that is resized ends in its own block, cut
or grown, or in a new one, and what it holds is the same up to the smaller of the two sizes.
-/

namespace MemoryKit.Allocator

open Heap

variable {a a' : Allocator} {h' : Heap} {L L' : Layout} {b b' : Block} {user user' bytes : Nat}
  {x : Holding}

theorem IsPlaced.pointer_ne_zero (P : a.IsPlaced x b user) : x.pointer ≠ 0 := by
  have hle := P.header_le
  rw [P.pointer_eq, Region.address]
  simp only [headerSize] at hle
  omega

theorem IsPlaced.deallocate_eq (P : a.IsPlaced x b user) (H : a.HasLayout L) (hb : b ∈ L.blocks)
    (hp : a.poisoned = false) : a.deallocate x.pointer = (.ok (), a.freeBlock b.offset) := by
  unfold deallocate
  rw [if_neg P.pointer_ne_zero, hp, P.locate_eq H hb]
  rfl

theorem HasLayout.freeBlock (H : a.HasLayout L) (hb : b ∈ L.blocks) (hu : b.used = true) :
    ∃ L', Trades a.heap L (a.freeBlock b.offset).heap L' (some b) none ∧
      (a.freeBlock b.offset).HasLayout L' ∧ KeepsBooks a L (a.freeBlock b.offset) L' ∧
        KeepsStale a.heap L (a.freeBlock b.offset).heap L' := by
  obtain ⟨L', T, hkeeps⟩ := H.heap.free H.settled hb hu
  exact ⟨L', T, H.of_trades T rfl H.labels_le, .leave H (Layout.mem_used.mpr ⟨hb, hu⟩) T, hkeeps⟩

inductive Resizes (a : Allocator) (L : Layout) (x : Holding) (b : Block) (user bytes : Nat) :
    Outcome Allocator (Option Nat) → Prop where
  | refused {log : List Record} : Resizes a L x b user bytes ⟨none, a, log⟩
  /-- The aligned address of a new block left the range of addresses. -/
  | lost {heap : Heap} {L' : Layout} {c : Block} {log : List Record} :
      ¬ a.region.InRange → Trades a.heap L heap L' none (some c) →
        Resizes a L x b user bytes ⟨none, { a with heap }, log⟩
  | placed {a' : Allocator} {pointer : Nat} {L' : Layout} {b' : Block} {user' : Nat}
      {log : List Record} : a'.HasLayout L' → a'.region = a.region →
        Trades a.heap L a'.heap L' (some b) (some b') →
          a'.IsPlaced { x with pointer, bytes } b' user' →
            (∀ i < min (b.offset + b.size - user) bytes,
              a'.heap.memory.byte (user' + i) = a.heap.memory.byte (user + i)) →
                KeepsBooks a L a' L' →
                  -- A pointer that changed tells that both blocks were held for a moment.
                  (a.Balanced L → a.allocatedBytes ≤ a.peak → a'.peak = max a.peak
                    (if pointer = x.pointer then a'.allocatedBytes
                      else a.allocatedBytes + b'.size)) →
                    (a.LabelsApart → ∀ label, a.label? (a.heap.tag b.offset) = some label →
                      a'.labels = a.labels ∧ a'.label? (a'.heap.tag b'.offset) = some label) →
                      Resizes a L x b user bytes ⟨some pointer, a', log⟩

theorem Resizes.inPlace (H : a.HasLayout L) (hb : b ∈ L.blocks) (P : a.IsPlaced x b user)
    (T : Trades a.heap L h' L' (some b) (some b')) (ho : b'.offset = b.offset)
    (hfits : user + max bytes 1 ≤ b'.offset + b'.size) {total peak : Nat}
    (htotal : (L.used.map Block.size).sum = a.allocatedBytes →
      total + b.size = a.allocatedBytes + b'.size)
    (hpeak : a.Balanced L → a.allocatedBytes ≤ a.peak → peak = max a.peak total)
    {log : List Record} :
    Resizes a L x b user bytes
      ⟨some x.pointer, { a with heap := h', allocatedBytes := total, peak }, log⟩ := by
  have hlt := P.user_lt
  have hfront := P.header_le
  simp only [headerSize] at hfront
  have hkept : ∀ i, b.offset + 8 ≤ i → i < b.offset + b.size → i < b'.offset + b'.size →
      h'.memory.byte i = a.heap.memory.byte i := fun i hlo hhi hhi' =>
    T.kept i (P.inData hb hlo hhi) ⟨b', T.new_mem, (T.fresh b' rfl).1, by omega, hhi'⟩
  have htag : h'.tag b.offset = a.heap.tag b.offset := by
    refine Memory.word_congr fun i hlo hhi => ?_
    simp only [prevField] at hlo hhi
    exact hkept i hlo (by omega) (by omega)
  let a' : Allocator := { a with heap := h', allocatedBytes := total, peak }
  have T' : Trades a.heap L a'.heap L' (some b) (some b') := T
  refine .placed (H.of_trades T' rfl H.labels_le) rfl T
    (P.congr rfl ho (T.fresh b' rfl).1 rfl rfl hfits fun i hlo hhi => ?_) (fun i hi => ?_)
    (.resize H (Layout.mem_used.mpr ⟨hb, P.used⟩) ho T' rfl htotal rfl htag rfl)
    (fun B hle => (hpeak B hle).trans (by rw [if_pos rfl]))
    (fun _ label hl => ⟨rfl, by rw [ho]; exact htag.symm ▸ hl⟩)
  · exact hkept i hlo (by omega) (by omega)
  · exact hkept (user + i) (by omega) (by omega) (by omega)

theorem neededSize?_eq_some {lead needed : Nat} (h : neededSize? bytes lead = some needed) :
    ∃ data, needed = data + lead ∧ max bytes 1 ≤ data ∧ granule ∣ data ∧
      data < max bytes 1 + granule := by
  unfold neededSize? at h
  cases hd : dataSize? bytes with
  | none => simp [hd] at h
  | some data =>
  simp only [hd, Option.bind_eq_some_iff] at h
  obtain ⟨sum, hsum, hneeded⟩ := h
  simp only [checkedAdd, Option.ite_none_right_eq_some, Option.some.injEq] at hsum
  simp only [asWord?, Option.ite_none_right_eq_some, Option.some.injEq] at hneeded
  obtain ⟨-, rfl⟩ := ceilTo?_eq_some_iff.mp hd
  exact ⟨_, hneeded.2.symm.trans hsum.2.symm, le_ceilTo _ (by decide), dvd_ceilTo _ _,
    ceilTo_lt _ (by decide)⟩

theorem IsPlaced.granule_dvd_usable (P : a.IsPlaced x b user) (H : a.HasLayout L)
    (hb : b ∈ L.blocks) : granule ∣ b.size - (user - b.offset) :=
  Nat.dvd_sub (H.heap.granule_dvd_size hb) (Nat.dvd_sub P.granule_dvd (H.heap.granule_dvd hb))

theorem IsPlaced.granule_dvd_moved (P : a.IsPlaced x b user) (H : a.HasLayout L)
    (hb : b ∈ L.blocks) (hmore : b.size - (user - b.offset) ≤ bytes) :
    granule ∣ min (b.size - (user - b.offset)) bytes := by
  rw [Nat.min_eq_left hmore]
  exact P.granule_dvd_usable H hb

theorem IsPlaced.usable_le (P : a.IsPlaced x b user) (H : a.HasLayout L) (hb : b ∈ L.blocks)
    {data : Nat} (hdata : granule ∣ data) (hlt : data < max bytes 1 + granule)
    (hmore : ¬ data + (user - b.offset) ≤ b.size) : b.size - (user - b.offset) ≤ bytes := by
  have huser := P.user_lt
  have hfront := P.header_le
  obtain ⟨j, hj⟩ := P.granule_dvd_usable H hb
  obtain ⟨k, rfl⟩ := hdata
  simp only [granule, headerSize] at *
  omega

def copied (a : Allocator) (source target count : Nat) : Allocator :=
  { a with heap := { a.heap with memory := a.heap.memory.copy source target count } }

theorem exists_granule_of_overlap {y target count : Nat} (hy : granule ∣ y)
    (htarget : granule ∣ target) (hcount : granule ∣ count)
    (h : ¬(y + granule ≤ target ∨ target + count ≤ y)) :
    ∃ i, y = target + i ∧ granule ∣ i ∧ i + granule ≤ count := by
  obtain ⟨i, rfl⟩ : ∃ i, y = target + i := by
    apply Nat.exists_eq_add_of_le
    obtain ⟨j, rfl⟩ := htarget
    obtain ⟨k, rfl⟩ := hy
    simp only [granule] at *
    omega
  have hi : granule ∣ i := (Nat.dvd_add_right htarget).mp hy
  refine ⟨i, rfl, hi, ?_⟩
  obtain ⟨j, rfl⟩ := hcount
  obtain ⟨k, rfl⟩ := hi
  simp only [granule] at *
  omega

theorem header_copied_of_outside (a : Allocator) (source : Nat) {target count y : Nat}
    (hy : y + granule ≤ target ∨ target + count ≤ y) :
    (a.copied source target count).heap.isUsed y = a.heap.isUsed y ∧
      (a.copied source target count).heap.user y = a.heap.user y := by
  have hword : ∀ f, f + 4 ≤ granule →
      (a.copied source target count).heap.word (y + f) = a.heap.word (y + f) := fun f hf =>
    Memory.word_copy_of_outside a.heap.memory source (by omega)
  exact ⟨congrArg isUsedWord (hword 0 (by decide)), hword nextField (by decide)⟩

theorem IsPlaced.isPlaced_copied (P : a.IsPlaced x b user) (source count : Nat) :
    (a.copied source user count).IsPlaced x b user :=
  P.congr rfl rfl P.used rfl rfl P.fits fun _ _ hi =>
    Memory.byte_copy_of_outside a.heap.memory source (.inl hi)

theorem IsPlaced.tag_copied (P : a.IsPlaced x b user) (source count : Nat) :
    (a.copied source user count).heap.tag b.offset = a.heap.tag b.offset := by
  have hfront := P.header_le
  simp only [headerSize] at hfront
  apply Memory.word_congr
  intro i _ hhi
  simp only [prevField] at hhi
  exact Memory.byte_copy_of_outside a.heap.memory source (.inl (by omega))

section Copying

variable {a₁ : Allocator} {L₁ : Layout} {c : Block} {y : Holding}
  (P : a.IsPlaced x b user) (hb : b ∈ L.blocks) (T : Trades a.heap L a₁.heap L₁ none (some c))
  (Pc : a₁.IsPlaced y c user') (H : a.HasLayout L)

include P hb T

theorem IsPlaced.header_copied (target : Nat) {count i : Nat}
    (hcount : user + count ≤ b.offset + b.size) (hi : i + granule ≤ count) :
    (a₁.copied user target count).heap.isUsed (target + i) = a.heap.isUsed (user + i) ∧
      (a₁.copied user target count).heap.user (target + i) = a.heap.user (user + i) := by
  have hfront := P.header_le
  have hb₁ := T.mem_of_mem P.used hb (by simp)
  simp only [headerSize] at hfront
  have hword : ∀ w, w + 4 ≤ count →
      (a₁.copied user target count).heap.word (target + w) = a.heap.word (user + w) := fun w hw =>
    (Memory.word_copy a₁.heap.memory user target hw).trans <| Memory.word_congr fun i hlo hhi =>
      T.kept i (P.inData hb (by omega) (by omega)) (P.inData hb₁ (by omega) (by omega))
  simp only [granule] at hi
  have huser := hword (i + nextField) (by simp only [nextField]; omega)
  rw [← Nat.add_assoc, ← Nat.add_assoc] at huser
  exact ⟨congrArg isUsedWord (hword i (by omega)), huser⟩

include Pc H

/-- Headers that are copied with the data are those of the data, and lead where those led. -/
theorem IsPlaced.inheritsStale_copied {count : Nat} (hdvd : granule ∣ count)
    (hcount : user + count ≤ b.offset + b.size) :
    InheritsStale a.heap L (a₁.copied user user' count).heap L₁ (some c) := by
  have hfront := P.header_le
  intro y hy
  by_cases hout : y + granule ≤ user' ∨ user' + count ≤ y
  · obtain ⟨hmark, huser⟩ := header_copied_of_outside a₁ user hout
    have hown : (a₁.copied user user' count).heap.user c.offset = a₁.heap.user c.offset :=
      (header_copied_of_outside a₁ user (.inl Pc.header_le)).2
    obtain ⟨x, hx, hfrom⟩ :=
      T.stale y ⟨hy.lt_capacity, hy.granule_dvd, hmark.symm.trans hy.marked, hy.ne⟩
    refine ⟨x, hx, ?_⟩
    rw [huser]
    rcases hfrom with hsame | ⟨d, hd, hfront, hlink⟩
    · exact .inl hsame
    · obtain rfl : c = d := Option.some.inj hd
      exact .inr ⟨c, rfl, hfront.trans hown.symm, hlink⟩
  · obtain ⟨i, rfl, hi, hfits⟩ := exists_granule_of_overlap hy.granule_dvd Pc.granule_dvd hdvd hout
    obtain ⟨hmark, huser⟩ := P.header_copied hb T user' hcount hfits
    refine ⟨user + i, ?_, .inl huser⟩
    simp only [headerSize, granule] at hfront hfits
    exact H.heap.isStale_of_inData (Nat.dvd_add P.granule_dvd hi)
      (P.inData hb (by omega) (by omega)) (hmark.symm.trans hy.marked)

/-- Only the new block is written to, so that the old one can still be found. -/
theorem IsPlaced.trades_copied {count : Nat} (hdvd : granule ∣ count)
    (hcount : user + count ≤ b.offset + b.size) (hcount' : user' + count ≤ c.offset + c.size) :
    Trades a.heap L (a₁.copied user user' count).heap L₁ none (some c) := by
  have hfront := Pc.header_le
  simp only [headerSize] at hfront
  exact T.write (fun i hi => Memory.byte_copy_of_outside a₁.heap.memory user (by omega))
    (P.inheritsStale_copied hb T Pc H hdvd hcount)

theorem IsPlaced.move_eq (H₁ : a₁.HasLayout L₁) {moved : Nat} {log : List Record}
    (ht : a.allocateAligned bytes ((a.label? (a.heap.tag b.offset)).getD .resized)
      x.options.alignment = ⟨some moved, a₁, log⟩) (hregion : a₁.region = a.region)
    (hpoisoned : a₁.poisoned = false) (hmoved : moved = y.pointer) (hbytes : bytes = y.bytes)
    (hdvd : granule ∣ min (b.size - (user - b.offset)) bytes) :
    a.move x.pointer b.offset user bytes = ⟨some moved,
      (a₁.copied user user' (min (b.size - (user - b.offset)) bytes)).freeBlock b.offset,
        log⟩ := by
  have hlt := P.user_lt
  have hfront := P.header_le
  have hfits := Pc.fits
  simp only [headerSize] at hfront
  have huser' : moved - a.region.start = user' := by
    rw [hmoved, Pc.pointer_eq, hregion, Region.address, Nat.add_sub_cancel_left]
  have T₂ := P.trades_copied hb T Pc H hdvd (by omega) (by omega)
  have Hc := H.of_trades T₂ hregion H₁.labels_le
  obtain ⟨hb₁, Pb⟩ := P.of_trades hb T₂ hregion (by simp)
  have hfreed := Pb.deallocate_eq Hc hb₁ hpoisoned
  unfold Allocator.move
  dsimp only
  rw [P.tag_eq, H.heap.blockSize_eq hb, ht]
  dsimp only
  rw [huser']
  unfold copied at hfreed ⊢
  rw [hfreed]

end Copying

theorem IsPlaced.move_eq_of_refused (P : a.IsPlaced x b user) {a₁ : Allocator} {log : List Record}
    (ht : a.allocateAligned bytes ((a.label? (a.heap.tag b.offset)).getD .resized)
      x.options.alignment = ⟨none, a₁, log⟩) :
    a.move x.pointer b.offset user bytes = ⟨none, a₁, log⟩ := by
  unfold Allocator.move
  dsimp only
  rw [P.tag_eq, ht]

/-- The contents of an allocation are copied into a new block, then its own is freed. -/
theorem IsPlaced.move (P : a.IsPlaced x b user) (H : a.HasLayout L) (hb : b ∈ L.blocks)
    (hmore : b.size - (user - b.offset) ≤ bytes) :
    Resizes a L x b user bytes (a.move x.pointer b.offset user bytes) := by
  have halloc := H.allocates bytes ((a.label? (a.heap.tag b.offset)).getD .resized) x.options
  cases hr : a.allocateAligned bytes ((a.label? (a.heap.tag b.offset)).getD .resized)
    x.options.alignment with
  | mk answer a₁ log =>
  rw [hr] at halloc
  cases answer with
  | none =>
    rw [P.move_eq_of_refused hr]
    cases halloc with
    | refused => exact .refused
    | lost hrange T => exact .lost hrange T
  | some moved =>
  cases halloc with
  | @placed _ _ L₁ c user' _ H₁ hregion hpoisoned T P₁ K hpeak hlabels hlabel =>
    have Pc := P₁ x.label
    have hlt := P.user_lt
    have hfront := P.header_le
    have hfits := Pc.fits
    have hfront' := Pc.header_le
    simp only [headerSize] at hfront hfront' hfits
    have hdvd := P.granule_dvd_moved H hb hmore
    rw [P.move_eq hb T Pc H H₁ hr hregion hpoisoned rfl rfl hdvd]
    have T₂ := P.trades_copied hb T Pc H hdvd (by omega) (by omega)
    have hin : ∀ i, i < min (b.size - (user - b.offset)) bytes → _ := fun i =>
      Memory.byte_copy a₁.heap.memory user user'
    let a₂ : Allocator := a₁.copied user user' (min (b.size - (user - b.offset)) bytes)
    have hregion' : a₂.region = a.region := hregion
    have Hc : a₂.HasLayout L₁ := H.of_trades T₂ hregion' H₁.labels_le
    obtain ⟨hb₁, Pb⟩ := P.of_trades hb T₂ hregion' (by simp)
    have Pm : a₂.IsPlaced { x with pointer := moved, bytes } c user' := Pc.isPlaced_copied user _
    obtain ⟨L₃, T₃, H₃, K₃, hkeeps⟩ := Hc.freeBlock hb₁ P.used
    have K₂ : KeepsBooks a₁ L₁ a₂ L₁ :=
      .write H₁ T.new_mem Pc fun i hi =>
        Memory.byte_copy_of_outside a₁.heap.memory user (by omega)
    have hne : c ∉ some b := fun he => T.not_mem_of_new (Option.some.inj he ▸ hb)
    obtain ⟨hc₃, Pf⟩ := Pm.of_trades T.new_mem T₃ rfl hne
    have hmoved : moved ≠ x.pointer := fun hp =>
      hne (congrArg some (Pb.block_eq Pm Hc hb₁ T.new_mem hp.symm))
    have hboth : a.Balanced L → a.allocatedBytes + c.size = a₁.allocatedBytes := fun B => by
      simpa using (B.counters_of_trades (K.balanced B) H T (by simp)).2.symm
    have htag : (a₂.freeBlock b.offset).heap.tag c.offset = a₁.heap.tag c.offset :=
      (T₃.tag_eq (Layout.mem_used.mpr ⟨T.new_mem, Pc.used⟩) hne).trans (Pc.tag_copied user _)
    refine .placed H₃ hregion (T₂.trans_free T₃ hb hkeeps) Pf (fun i hi => ?_)
      ((K.trans K₂).trans K₃) (fun B _ => by rw [if_neg hmoved, hboth B]; exact hpeak)
      (fun hapart label hl => ?_)
    · calc (a₂.freeBlock b.offset).heap.memory.byte (user' + i)
        _ = a₂.heap.memory.byte (user' + i) :=
          T₃.kept _ (Pm.inData T.new_mem (by omega) (by omega))
            (Pm.inData hc₃ (by omega) (by omega))
        _ = a₁.heap.memory.byte (user + i) := hin i (by omega)
        _ = a.heap.memory.byte (user + i) :=
          T.kept _ (P.inData hb (by omega) (by omega)) (Pb.inData hb₁ (by omega) (by omega))
    · -- The label of the old block is known, and so it is found for the new one.
      rw [hl, Option.getD_some] at hlabels hlabel
      rw [hapart.recordLabel_eq hl] at hlabels hlabel
      refine ⟨hlabels, ?_⟩
      rw [htag]
      exact hlabel.trans (hlabels ▸ hl)

theorem IsPlaced.resize (P : a.IsPlaced x b user) (H : a.HasLayout L) (hb : b ∈ L.blocks)
    (bytes : Nat) : Resizes a L x b user bytes (a.resize x.pointer b.offset user bytes) := by
  have hfront := P.header_le
  have hdvd : granule ∣ user - b.offset := Nat.dvd_sub P.granule_dvd (H.heap.granule_dvd hb)
  unfold Allocator.resize
  cases hn : neededSize? bytes (user - b.offset) with
  | none => exact .refused
  | some needed =>
  obtain ⟨data, rfl, hbytes, hdata, hround⟩ := neededSize?_eq_some hn
  have hneeded : granule ∣ data + (user - b.offset) := Nat.dvd_add hdata hdvd
  dsimp only
  rw [H.heap.blockSize_eq hb]
  split
  · next hle =>
    obtain ⟨L', b', T, ho, hs, hs', -⟩ := H.heap.shrink H.settled hb P.used (by omega) hneeded hle
    have hsize := ho ▸ T.layout.blockSize_eq T.new_mem
    rw [hsize]
    have htotal : (L.used.map Block.size).sum = a.allocatedBytes →
        wrappingSub sizeLimit a.allocatedBytes (b.size - b'.size) + b.size =
          a.allocatedBytes + b'.size := by
      intro hsum
      have hmem := Layout.size_le_sum_used (Layout.mem_used.mpr ⟨hb, P.used⟩)
      have hlt := H.sum_size_used_lt
      rw [wrappingSub_eq (by omega) (by omega)]
      omega
    refine .inPlace H hb P T ho (by omega) htotal fun B hle => ?_
    have hless := htotal B.bytes_eq.symm
    omega
  · next hlt =>
    cases hg : a.heap.grow b.offset (data + (user - b.offset)) with
    | none => exact P.move H hb (P.usable_le H hb hdata hround hlt)
    | some h' =>
      obtain ⟨L', b', T, ho, hs⟩ := H.heap.grow H.settled hb P.used (by omega) hneeded (by omega) hg
      have hsize := ho ▸ T.layout.blockSize_eq T.new_mem
      dsimp only
      rw [hsize]
      exact .inPlace H hb P T ho (by omega) (fun _ => by omega) fun _ _ => rfl

theorem IsPlaced.resizes (P : a.IsPlaced x b user) (H : a.HasLayout L) (hb : b ∈ L.blocks)
    (bytes : Nat) : Resizes a L x b user bytes (a.reallocate x.pointer bytes) := by
  unfold Allocator.reallocate
  rw [if_neg P.pointer_ne_zero, P.locate_eq H hb]
  split
  · exact .refused
  · exact P.resize H hb bytes

end MemoryKit.Allocator
