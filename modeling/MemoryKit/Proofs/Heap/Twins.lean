import MemoryKit.Proofs.Heap.Canonical
import MemoryKit.Proofs.Heap.Operations
import MemoryKit.Proofs.Heap.WellFormed

/-! # Heaps with one layout

What a heap does depends on its layout alone. Two heaps with one layout may hold different headers
of blocks that are gone, different tags and different data: they find the same blocks, and what they
do leaves them with one layout again. A heap has no more than one layout, so that the layout that
was found for each of them is the same.
-/

namespace MemoryKit

open SizeClass

variable {x y : FreeIndex} {lists lists' : SizeClass → List Nat}

theorem Bitmap.eq_of_contains_eq {b c : Bitmap} (h : ∀ i, b.contains i = c.contains i) : b = c :=
  BitVec.eq_of_getLsbD_eq fun i _ => h i

theorem FreeIndex.Matches.search_eq (h : x.Matches lists) (h' : y.Matches lists) (c : SizeClass) :
    x.search c = y.search c := by
  have hsubs : x.subsOf = y.subsOf := funext fun bin => Bitmap.eq_of_contains_eq fun sub =>
    Bool.eq_iff_iff.mpr ((h.marked ⟨bin, sub⟩).trans (h'.marked ⟨bin, sub⟩).symm)
  have hbins : x.bins = y.bins := Bitmap.eq_of_contains_eq fun bin =>
    Bool.eq_iff_iff.mpr ((h.bins_iff bin).trans (h'.bins_iff bin).symm)
  simp only [FreeIndex.search, hsubs, hbins]

namespace Heap

variable {h h' g g' : Heap} {L L' : Layout} {b : Block} {size : Nat}

theorem HasLayout.unique (H : h.HasLayout L) (H' : h.HasLayout L') : L = L' := by
  have hblocks : L.blocks = L'.blocks := H.blocks_eq.symm.trans H'.blocks_eq
  have hlists : L.lists = L'.lists := funext fun c => by
    by_cases hc : c.IsValid
    · exact (H.chained c).unique (H'.chained c)
        ((H.index.head c hc).symm.trans (H'.index.head c hc))
    · rw [of_not_not (mt (H.index.valid c) hc), of_not_not (mt (H'.index.valid c) hc)]
  cases L
  cases L'
  exact congrArg₂ Layout.mk hblocks hlists

def Twins (h h' : Heap) (L : Layout) : Prop := L.Settled ∧ h.HasLayout L ∧ h'.HasLayout L

namespace Twins

theorem symm (W : Twins h h' L) : Twins h' h L := ⟨W.1, W.2.2, W.2.1⟩

theorem eq_of_trades {gone gone' new new' : Option Block} {L₁ L₂ : Layout} (W : Twins g g' L')
    (T : Trades h L g L₁ gone new) (T' : Trades h' L g' L₂ gone' new') : L₁ = L₂ :=
  (T.layout.unique W.2.1).trans (W.2.2.unique T'.layout)

theorem capacity_eq (W : Twins h h' L) : h.capacity = h'.capacity :=
  (Tiles.sum_size W.2.1.valid.tiles).symm.trans (Tiles.sum_size W.2.2.valid.tiles)

theorem blockSize_eq (W : Twins h h' L) (hb : b ∈ L.blocks) :
    h.blockSize b.offset = h'.blockSize b.offset :=
  (W.2.1.blockSize_eq hb).trans (W.2.2.blockSize_eq hb).symm

theorem allocate_of_eq_some (W : Twins h h' L) (hdvd : granule ∣ size) (hpos : 0 < size) {x : Nat}
    (ha : h.allocate size = some (x, g)) :
    ∃ g' L', h'.allocate size = some (x, g') ∧ Twins g g' L' := by
  obtain ⟨hs, H, H'⟩ := W
  obtain ⟨rounded, hr, f, rfl, rfl⟩ := H.exists_of_allocate ha
  have T := (H.trades_allocate hs hdvd hpos hr ha).1
  have hsame : (h.index.search (ofSize rounded)).bind h.index.head =
      (h'.index.search (ofSize rounded)).bind h'.index.head := by
    rw [H.index.search_eq H'.index]
    cases hd : h'.index.search (ofSize rounded) with
    | none => rfl
    | some d =>
      have hv := H'.index.valid d (H'.index.search hd).2
      exact (H.index.head d hv).trans (H'.index.head d hv).symm
  unfold Heap.allocate roundUp? at ha
  simp only [hr, Option.map_some, hsame] at ha
  cases hb : (h'.index.search (ofSize rounded)).bind h'.index.head with
  | none => simp [hb] at ha
  | some x =>
    simp only [hb, Option.some.injEq, Prod.mk.injEq] at ha
    obtain ⟨rfl, -⟩ := ha
    have ha' : ∃ g', h'.allocate size = some (f.block.offset, g') := by
      unfold Heap.allocate roundUp?
      simp only [hr, Option.map_some, hb]
      exact ⟨_, rfl⟩
    obtain ⟨g', ha'⟩ := ha'
    have T' := (H'.trades_allocate hs hdvd hpos hr ha').1
    exact ⟨g', _, ha', T.settled, T.layout, T'.layout⟩

theorem allocate_eq_none (W : Twins h h' L) (hdvd : granule ∣ size) (hpos : 0 < size)
    (ha : h.allocate size = none) : h'.allocate size = none := by
  cases ha' : h'.allocate size with
  | none => rfl
  | some r =>
    obtain ⟨x, g'⟩ := r
    obtain ⟨g, L', hg, -⟩ := W.symm.allocate_of_eq_some hdvd hpos ha'
    rw [ha] at hg
    cases hg

theorem free (W : Twins h h' L) (hb : b ∈ L.blocks) (hu : b.used = true) :
    ∃ L', Twins (h.free b.offset) (h'.free b.offset) L' := by
  obtain ⟨hs, H, H'⟩ := W
  obtain ⟨f, rfl, rfl⟩ := Focus.exists_of_mem hb
  have T := (H.trades_free hs hu).1
  exact ⟨_, T.settled, T.layout, (H'.trades_free hs hu).1.layout⟩

theorem shrink (W : Twins h h' L) (hb : b ∈ L.blocks) (hu : b.used = true) (hpos : 0 < size)
    (hdvd : granule ∣ size) :
    ∃ L', Twins (h.shrink b.offset size) (h'.shrink b.offset size) L' := by
  have hsize := W.blockSize_eq hb
  obtain ⟨hs, H, H'⟩ := W
  unfold Heap.shrink
  dsimp only
  rw [← hsize, H.blockSize_eq hb]
  split
  · next hlt =>
    obtain ⟨f, rfl, rfl⟩ := Focus.exists_of_mem hb
    have hself := le_ceilOrSelf size
    have hdvd' := granule_dvd_ceilOrSelf hdvd
    have T := (H.trades_split hs hu (by omega) hdvd' (Nat.le_of_lt hlt)).1
    have T' := (H'.trades_split hs hu (by omega) hdvd' (Nat.le_of_lt hlt)).1
    exact ⟨_, T.settled, T.layout, T'.layout⟩
  · exact ⟨L, hs, H, H'⟩

theorem isSome_grow (W : Twins h h' L) (hb : b ∈ L.blocks) (size : Nat) :
    (h.grow b.offset size).isSome = (h'.grow b.offset size).isSome := by
  have hsize := W.blockSize_eq hb
  obtain ⟨-, H, H'⟩ := W
  obtain ⟨f, rfl, rfl⟩ := Focus.exists_of_mem hb
  have hbehind : h.behind f.block.offset = h'.behind f.block.offset :=
    (HasLayout.behind_eq H).trans (HasLayout.behind_eq H').symm
  unfold Heap.grow
  rw [← hsize, ← hbehind]
  split
  · rfl
  cases hn : h.behind f.block.offset with
  | none => rfl
  | some x =>
    rw [HasLayout.behind_eq H, Option.map_eq_some_iff] at hn
    obtain ⟨n, hn, rfl⟩ := hn
    have hmem : n ∈ f.layout.blocks :=
      Focus.mem_blocks.mpr (Or.inr (Or.inr (List.mem_of_head? hn)))
    simp only [H.isUsed_eq hmem, H'.isUsed_eq hmem, H.blockSize_eq hmem, H'.blockSize_eq hmem,
      H.blockSize_eq Focus.block_mem]
    by_cases hfit : n.used = true ∨ f.block.size + n.size < size
    · rw [if_pos hfit, if_pos hfit]
    · rw [if_neg hfit, if_neg hfit, Option.isSome_some, Option.isSome_some]

theorem grow (W : Twins h h' L) (hb : b ∈ L.blocks) (hu : b.used = true) (hpos : 0 < size)
    (hdvd : granule ∣ size) (hlt : b.size < size) (hg : h.grow b.offset size = some g)
    (hg' : h'.grow b.offset size = some g') : ∃ L', Twins g g' L' := by
  obtain ⟨hs, H, H'⟩ := W
  obtain ⟨f, rfl, rfl⟩ := Focus.exists_of_mem hb
  have T := (H.trades_grow hs hu hpos hdvd hlt hg).1
  have T' := (H'.trades_grow hs hu hpos hdvd hlt hg').1
  exact ⟨_, T.settled, T.layout, T'.layout⟩

end Twins

end Heap

end MemoryKit
