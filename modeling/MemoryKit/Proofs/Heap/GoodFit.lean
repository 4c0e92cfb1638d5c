import MemoryKit.Proofs.Heap.Operations
import MemoryKit.Proofs.Heap.WellFormed

/-! # Good fits

A request is rounded up to the least size of a class, so that every block from that class on is
large enough, and a block that is large enough is in one of these classes. The search takes the
first block of the first of them that has one. Nothing is taken only if no free block is as large as
the rounded size.
-/

namespace MemoryKit.Heap

open SizeClass

variable {h h' : Heap} {L : Layout} {b : Block} {x size rounded : Nat}

/-- The block is the first of its class, and no class between that of a size and its own has one. -/
structure IsGoodFit (h : Heap) (size : Nat) (b : Block) : Prop where
  mem : b ∈ h.blocks
  free : b.used = false
  class_le : ofSize size ≤ ofSize b.size
  least : ∀ c ∈ h.blocks, c.used = false → ofSize size ≤ ofSize c.size →
    ofSize b.size ≤ ofSize c.size
  first : h.index.head (ofSize b.size) = some b.offset

theorem allocate_of_ceil?_eq_none (hr : ceil? size = none) : h.allocate size = none := by
  unfold Heap.allocate roundUp?
  rw [hr]
  rfl

namespace HasLayout

theorem isGoodFit_of_allocate (H : h.HasLayout L) (hs : L.Settled) (hdvd : granule ∣ size)
    (hpos : 0 < size) (hr : ceil? size = some rounded) (ha : h.allocate size = some (x, h')) :
    ∃ b, h.IsGoodFit rounded b ∧ b.offset = x ∧ rounded ≤ b.size ∧
      ∃ L', Trades h L h' L' none (some ⟨x, rounded, true⟩) ∧ KeepsStale h L h' L' := by
  obtain ⟨rounded', d, hr', hd, hhead, -⟩ := exists_class_of_allocate ha
  obtain rfl : rounded = rounded' := Option.some.inj (hr.symm.trans hr')
  obtain ⟨hle, hne⟩ := H.index.search hd
  have hlist := hhead
  rw [H.index.head d (H.index.valid d hne)] at hlist
  obtain ⟨b, hb, rfl, hfree, rfl⟩ := H.valid.listed d x (List.mem_of_head? hlist)
  have hfit : rounded ≤ b.size := le_of_ofSize_le hdvd hr hle
  refine ⟨b, ⟨H.blocks_eq ▸ hb, hfree, hle, ?_, hhead⟩, rfl, hfit, ?_⟩
  · intro c hc hcfree hclass
    have hlisted := hs.listed c (H.blocks_eq ▸ hc) hcfree
    obtain ⟨d, hd', hle'⟩ := H.index.search_complete hclass (List.ne_nil_of_mem hlisted)
    cases hd.symm.trans hd'
    exact hle'
  · obtain ⟨f, rfl, rfl⟩ := Focus.exists_of_mem hb
    obtain ⟨T, -, hkeeps⟩ := H.trades_allocate hs hdvd hpos hr ha
    have hblock := H.granule_dvd_size hb
    have hcut : f.take.sizeAfter rounded = rounded :=
      Focus.sizeAfter_eq (granule_dvd_of_ceil? hdvd hr) hblock hfit
    rw [Focus.cut, hcut] at T
    exact ⟨_, T, hkeeps⟩

theorem isSome_allocate_iff (H : h.HasLayout L) (hs : L.Settled) (hdvd : granule ∣ size)
    (hr : ceil? size = some rounded) :
    (h.allocate size).isSome = true ↔ ∃ b ∈ h.blocks, b.used = false ∧ rounded ≤ b.size := by
  constructor
  · intro ha
    obtain ⟨⟨x, h'⟩, ha⟩ := Option.isSome_iff_exists.mp ha
    obtain ⟨rounded', d, hr', hd, hhead, -⟩ := exists_class_of_allocate ha
    obtain rfl : rounded = rounded' := Option.some.inj (hr.symm.trans hr')
    obtain ⟨hle, hne⟩ := H.index.search hd
    rw [H.index.head d (H.index.valid d hne)] at hhead
    obtain ⟨b, hb, -, hfree, rfl⟩ := H.valid.listed d x (List.mem_of_head? hhead)
    exact ⟨b, H.blocks_eq ▸ hb, hfree, le_of_ofSize_le hdvd hr hle⟩
  · rintro ⟨b, hb, hfree, hfit⟩
    have hlisted := hs.listed b (H.blocks_eq ▸ hb) hfree
    obtain ⟨d, hd, -⟩ :=
      H.index.search_complete (ofSize_mono hfit) (List.ne_nil_of_mem hlisted)
    obtain ⟨-, hne⟩ := H.index.search hd
    obtain ⟨y, rest, hcons⟩ := List.exists_cons_of_ne_nil hne
    have hhead : h.index.head d = some y := by
      rw [H.index.head d (H.index.valid d hne), hcons]
      rfl
    unfold Heap.allocate roundUp?
    rw [hr]
    dsimp only [Option.map_some]
    rw [hd, Option.bind_some, hhead]
    rfl

end HasLayout

end MemoryKit.Heap
