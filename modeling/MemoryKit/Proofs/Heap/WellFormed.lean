import MemoryKit.Proofs.Heap.Headers

/-! # Well-formed heaps

What it means for a heap to be well formed is said of what can be read from it: the blocks met on
the walk over their sizes, the links in their headers, and the index. A heap with a settled layout
is well formed, and the layout has the blocks of the walk.
-/

namespace MemoryKit.Heap

open SizeClass

variable {h : Heap} {L : Layout} {bs : List Block} {start stop capacity steps : Nat}

theorem Tiles.length_le (ht : Tiles start bs stop) : start + granule * bs.length ≤ stop := by
  induction bs generalizing start with
  | nil => exact Nat.le_of_eq ht
  | cons b bs ih =>
    obtain ⟨-, hpos, hdvd, hrest⟩ := ht
    have hle := Nat.le_of_dvd hpos hdvd
    have := ih hrest
    rw [List.length_cons, Nat.mul_succ]
    omega

/--
The sizes and uses in the headers are those of the blocks, the first of which points back to `prev`.
Unlike `Follows`, this leaves open what else a size word holds.
-/
def Describes (h : Heap) : Option Nat → List Block → Prop
  | _, [] => True
  | prev, b :: bs =>
    (h.blockSize b.offset = b.size ∧ h.isUsed b.offset = b.used) ∧ h.before b.offset = prev ∧
      Describes h (some b.offset) bs

theorem Follows.describes {prev : Option Nat} (hf : h.Follows prev bs)
    (ht : Tiles start bs stop) : h.Describes prev bs := by
  induction bs generalizing start prev with
  | nil => trivial
  | cons b bs ih =>
    obtain ⟨hw, hback, hrest⟩ := hf
    obtain ⟨-, -, hdvd, htiles⟩ := ht
    refine ⟨⟨?_, ?_⟩, hback, ih hrest htiles⟩
    · rw [blockSize, hw, sizeOfWord_header hdvd]
    · rw [isUsed, hw, isUsedWord_header hdvd]

theorem Describes.header_eq {prev : Option Nat} {b : Block} (hd : h.Describes prev bs)
    (hb : b ∈ bs) : h.blockSize b.offset = b.size ∧ h.isUsed b.offset = b.used := by
  induction bs generalizing prev with
  | nil => cases hb
  | cons c bs ih =>
    obtain ⟨hc, -, hrest⟩ := hd
    rcases List.mem_cons.mp hb with rfl | hb
    · exact hc
    · exact ih hrest hb

theorem run_foldBlocks {β : Type} {prev : Option Nat} {f : β → Block → β} {acc : β}
    (ht : Tiles start bs capacity) (hd : h.Describes prev bs) (hsteps : bs.length ≤ steps) :
    (foldBlocks capacity f acc start steps).run h.memory = bs.foldl f acc := by
  induction bs generalizing start steps acc prev with
  | nil =>
    obtain rfl : start = capacity := ht
    cases steps <;> simp [foldBlocks]
  | cons b bs ih =>
    obtain ⟨rfl, hpos, -, hrest⟩ := ht
    obtain ⟨⟨hsize, hused⟩, -, hdrest⟩ := hd
    obtain ⟨steps, rfl⟩ : ∃ n, steps = n + 1 := ⟨steps - 1, by simp at hsteps; omega⟩
    have hlt : ¬ capacity ≤ b.offset := by
      have := hrest.le
      omega
    have hsize' : sizeOfWord (h.memory.word b.offset) = b.size := hsize
    have hused' : isUsedWord (h.memory.word b.offset) = b.used := hused
    rw [foldBlocks, if_neg hlt, Inspect.run_read]
    dsimp only
    rw [hsize', hused', if_neg (Nat.ne_of_gt hpos), List.foldl_cons]
    exact ih hrest hdrest (by simpa using hsteps)

theorem Tiles.length_le_maxBlocks (ht : Tiles 0 bs capacity) : bs.length ≤ maxBlocks capacity := by
  have hle := ht.length_le
  unfold maxBlocks
  simp only [granule] at *
  omega

theorem Describes.foldBlocks_eq {β : Type} (hd : h.Describes none bs)
    (ht : Tiles 0 bs h.capacity) (f : β → Block → β) (acc : β) :
    (foldBlocks h.capacity f acc 0 (maxBlocks h.capacity)).run h.memory = bs.foldl f acc :=
  run_foldBlocks ht hd ht.length_le_maxBlocks

theorem Describes.blocks_eq (hd : h.Describes none bs) (ht : Tiles 0 bs h.capacity) :
    h.blocks = bs := by
  unfold blocks inspectBlocks
  rw [Inspect.run_bind, Inspect.run_done, hd.foldBlocks_eq ht, List.foldl_flip_cons_eq_append',
    List.append_nil, List.reverse_reverse]

theorem HasLayout.describes (H : h.HasLayout L) : h.Describes none L.blocks :=
  H.follows.describes H.valid.tiles

theorem HasLayout.blocks_eq (H : h.HasLayout L) : h.blocks = L.blocks :=
  H.describes.blocks_eq H.valid.tiles

/-- The free lists that the index and the links of the free blocks describe. -/
structure HasFreeLists (h : Heap) (lists : SizeClass → List Nat) : Prop where
  head : ∀ c : SizeClass, c.IsValid → h.index.head c = (lists c).head?
  /-- Neighbours in a list point to each other. -/
  chained : ∀ c, Chained h.prevFree h.nextFree none (lists c) none
  nodup : ∀ c, (lists c).Nodup
  /-- A list holds the free blocks of its class and nothing else. -/
  mem_iff : ∀ c x, x ∈ lists c ↔ ∃ b ∈ h.blocks, b.offset = x ∧ b.used = false ∧ ofSize b.size = c
  marked_iff : ∀ c : SizeClass, (h.index.subsOf c.bin).contains c.sub = true ↔ lists c ≠ []
  bin_marked_iff : ∀ bin, h.index.bins.contains bin = true ↔ ∃ sub, lists ⟨bin, sub⟩ ≠ []

/-- The blocks of the walk cover the heap, and the free ones are merged and listed. -/
structure IsWellFormed (h : Heap) : Prop where
  /-- Sizes are multiples of the granule, not zero, and lead from offset zero to the capacity. -/
  tiles : Tiles 0 h.blocks h.capacity
  /-- Every block points back to the one in front, the first one to none. -/
  follows : h.Follows none h.blocks
  merged : h.blocks.IsChain Block.NotBothFree
  listed : ∃ lists, h.HasFreeLists lists

theorem HasLayout.isWellFormed (H : h.HasLayout L) (hs : L.Settled) : h.IsWellFormed where
  tiles := H.blocks_eq ▸ H.valid.tiles
  follows := H.blocks_eq ▸ H.follows
  merged := H.blocks_eq ▸ hs.merged
  listed := by
    refine ⟨L.lists, H.index.head, H.chained, H.valid.nodup, fun c x => ?_, H.index.marked,
      H.index.bins_iff⟩
    rw [H.blocks_eq]
    refine ⟨H.valid.listed c x, ?_⟩
    rintro ⟨b, hb, rfl, hfree, rfl⟩
    exact hs.listed b hb hfree

theorem IsWellFormed.exists_layout (hw : h.IsWellFormed) (hlt : h.capacity < wordLimit) :
    ∃ L, h.HasLayout L ∧ L.Settled := by
  obtain ⟨lists, hl⟩ := hw.listed
  have hvalid : ∀ c, lists c ≠ [] → c.IsValid := by
    intro c hne
    obtain ⟨x, hx⟩ := List.exists_mem_of_ne_nil _ hne
    obtain ⟨b, hb, -, -, rfl⟩ := (hl.mem_iff c x).mp hx
    have hend := (hw.tiles.bounds hb).2.1
    exact isValid_ofSize (by omega)
  have hcoherent : h.index.IsCoherent := by
    intro bin
    rw [hl.bin_marked_iff]
    exact exists_congr fun sub => (hl.marked_iff ⟨bin, sub⟩).symm
  refine ⟨⟨h.blocks, lists⟩, ⟨⟨hw.tiles, ?_, hl.nodup⟩, hlt, hw.follows,
    ⟨hvalid, hl.head, hl.marked_iff, hcoherent⟩, hl.chained⟩, ?_, hw.merged⟩
  · intro c x hx
    exact (hl.mem_iff c x).mp hx
  · intro b hb hfree
    exact (hl.mem_iff _ _).mpr ⟨b, hb, rfl, hfree, rfl⟩

end MemoryKit.Heap
