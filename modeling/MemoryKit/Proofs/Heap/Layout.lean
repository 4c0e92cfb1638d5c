import Mathlib.Data.List.Chain
import Mathlib.Data.List.Nodup
import MemoryKit.Heap.Inspect
import MemoryKit.Proofs.Heap.FreeIndex

/-! # Layouts

A layout names the blocks of a heap in the order of their addresses and the offsets in each free
list. It is valid if the blocks cover the heap and the lists hold free blocks of their class, and
settled if every free block is listed and no two of them are side by side.
-/

namespace MemoryKit.Heap

open SizeClass

variable {start stop capacity size : Nat} {b c n u : Block} {bs pre post : List Block}
  {lists : SizeClass → List Nat}

/-- The blocks cover the offsets from `start` to `stop` without gaps. -/
def Tiles : Nat → List Block → Nat → Prop
  | start, [], stop => start = stop
  | start, b :: bs, stop =>
    b.offset = start ∧ 0 < b.size ∧ granule ∣ b.size ∧ Tiles (start + b.size) bs stop

theorem tiles_append {bs₁ bs₂ : List Block} :
    Tiles start (bs₁ ++ bs₂) stop ↔ ∃ m, Tiles start bs₁ m ∧ Tiles m bs₂ stop := by
  induction bs₁ generalizing start with
  | nil => simp [Tiles]
  | cons b bs₁ ih => simp only [List.cons_append, Tiles, ih, exists_and_left, and_assoc]

theorem tiles_middle : Tiles start (pre ++ b :: post) stop ↔
    Tiles start pre b.offset ∧ 0 < b.size ∧ granule ∣ b.size ∧
      Tiles (b.offset + b.size) post stop := by
  rw [tiles_append]
  constructor
  · rintro ⟨m, hpre, rfl, hpos, hdvd, hpost⟩
    exact ⟨hpre, hpos, hdvd, hpost⟩
  · rintro ⟨hpre, hpos, hdvd, hpost⟩
    exact ⟨_, hpre, rfl, hpos, hdvd, hpost⟩

namespace Tiles

theorem le (h : Tiles start bs stop) : start ≤ stop := by
  induction bs generalizing start with
  | nil => exact Nat.le_of_eq h
  | cons b bs ih =>
    obtain ⟨-, -, -, hrest⟩ := h
    exact Nat.le_trans (Nat.le_add_right _ _) (ih hrest)

theorem bounds (h : Tiles start bs stop) (hb : b ∈ bs) :
    start ≤ b.offset ∧ b.offset + b.size ≤ stop ∧ 0 < b.size ∧ granule ∣ b.size := by
  obtain ⟨pre, post, rfl⟩ := List.append_of_mem hb
  obtain ⟨hpre, hpos, hdvd, hpost⟩ := tiles_middle.mp h
  exact ⟨hpre.le, hpost.le, hpos, hdvd⟩

theorem granule_dvd_stop (h : Tiles start bs stop) (hs : granule ∣ start) : granule ∣ stop := by
  induction bs generalizing start with
  | nil => exact (show start = stop from h) ▸ hs
  | cons b bs ih =>
    obtain ⟨-, -, hdvd, hrest⟩ := h
    exact ih hrest (Nat.dvd_add hs hdvd)

theorem granule_dvd (h : Tiles 0 bs stop) (hb : b ∈ bs) : granule ∣ b.offset := by
  obtain ⟨pre, post, rfl⟩ := List.append_of_mem hb
  exact (tiles_middle.mp h).1.granule_dvd_stop (Nat.dvd_zero _)

theorem apart (h : Tiles start bs stop) (hb : b ∈ bs) (hc : c ∈ bs) :
    b = c ∨ b.offset + b.size ≤ c.offset ∨ c.offset + c.size ≤ b.offset := by
  obtain ⟨pre, post, rfl⟩ := List.append_of_mem hb
  obtain ⟨hpre, -, -, hpost⟩ := tiles_middle.mp h
  rcases List.mem_append.mp hc with hc | hc
  · exact Or.inr (Or.inr (hpre.bounds hc).2.1)
  · rcases List.mem_cons.mp hc with rfl | hc
    · exact Or.inl rfl
    · exact Or.inr (Or.inl (hpost.bounds hc).1)

theorem offset_ne (h : Tiles start (pre ++ b :: post) stop) (hc : c ∈ pre ∨ c ∈ post) :
    c.offset ≠ b.offset := by
  obtain ⟨hpre, hpos, -, hpost⟩ := tiles_middle.mp h
  rcases hc with hc | hc
  · have := hpre.bounds hc
    omega
  · have := hpost.bounds hc
    omega

theorem offset_ne_of_append {bs₁ bs₂ : List Block} (h : Tiles start (bs₁ ++ bs₂) stop)
    (hb : b ∈ bs₁) (hc : c ∈ bs₂) : b.offset ≠ c.offset := by
  obtain ⟨m, h₁, h₂⟩ := tiles_append.mp h
  have := h₁.bounds hb
  have := h₂.bounds hc
  omega

theorem eq_of_offset_eq (h : Tiles start bs stop) (hb : b ∈ bs) (hc : c ∈ bs)
    (he : b.offset = c.offset) : b = c := by
  have := (h.bounds hb).2.2.1
  have := (h.bounds hc).2.2.1
  rcases h.apart hb hc with hbc | hbc | hbc
  · exact hbc
  · omega
  · omega

theorem pairwise_lt (h : Tiles start bs stop) : (bs.map Block.offset).Pairwise (· < ·) := by
  induction bs generalizing start with
  | nil => exact .nil
  | cons b bs ih =>
    obtain ⟨rfl, hpos, -, hrest⟩ := h
    refine List.pairwise_cons.mpr ⟨?_, ih hrest⟩
    intro offset ho
    obtain ⟨c, hc, rfl⟩ := List.mem_map.mp ho
    have := (hrest.bounds hc).1
    omega

theorem nodup_offsets (h : Tiles start bs stop) : (bs.map Block.offset).Nodup :=
  h.pairwise_lt.imp Nat.ne_of_lt

theorem nodup (h : Tiles start bs stop) : bs.Nodup := List.Nodup.of_map _ h.nodup_offsets

end Tiles

/-- Blocks in the order of their addresses, and the free ones by size class. -/
structure Layout where
  blocks : List Block
  lists : SizeClass → List Nat

/-- The blocks cover the heap, and the lists hold free blocks of their class, each once. -/
structure Layout.IsValid (L : Layout) (capacity : Nat) : Prop where
  tiles : Tiles 0 L.blocks capacity
  listed : ∀ c, ∀ x ∈ L.lists c,
    ∃ b ∈ L.blocks, b.offset = x ∧ b.used = false ∧ ofSize b.size = c
  nodup : ∀ c, (L.lists c).Nodup

def Block.NotBothFree (b c : Block) : Prop := b.used = true ∨ c.used = true

theorem Block.NotBothFree.symm (h : b.NotBothFree c) : c.NotBothFree b := Or.symm h

/-- Every free block is listed, and no two of them are side by side. -/
structure Layout.Settled (L : Layout) : Prop where
  listed : ∀ b ∈ L.blocks, b.used = false → b.offset ∈ L.lists (ofSize b.size)
  merged : L.blocks.IsChain Block.NotBothFree

theorem Layout.IsValid.free_of_listed {L : Layout} (h : L.IsValid capacity) (hb : b ∈ L.blocks)
    {d : SizeClass} (hd : b.offset ∈ L.lists d) : b.used = false ∧ ofSize b.size = d := by
  obtain ⟨b', hb', he, hfree, hclass⟩ := h.listed d _ hd
  obtain rfl := h.tiles.eq_of_offset_eq hb hb' he.symm
  exact ⟨hfree, hclass⟩

theorem Layout.IsValid.unlisted_of_used {L : Layout} (h : L.IsValid capacity) (hb : b ∈ L.blocks)
    (hu : b.used = true) (d : SizeClass) : b.offset ∉ L.lists d := by
  intro hd
  have hf := (h.free_of_listed hb hd).1
  rw [hu] at hf
  cases hf

/-- The bytes at the start of a block that belong to the heap, whoever uses the block. -/
def Block.linkSize (b : Block) : Nat := if b.used then 8 else 16

def InLinks (bs : List Block) (i : Nat) : Prop :=
  ∃ b ∈ bs, b.offset ≤ i ∧ i < b.offset + b.linkSize

theorem Block.linkSize_le (b : Block) : b.linkSize ≤ granule := by
  unfold linkSize granule
  split <;> decide

theorem Block.eight_le_linkSize (b : Block) : 8 ≤ b.linkSize := by
  unfold linkSize
  split <;> decide

/-- The offset lies in a used block behind its links, where tag, data offset and data are. -/
def InData (bs : List Block) (i : Nat) : Prop :=
  ∃ u ∈ bs, u.used = true ∧ u.offset + 8 ≤ i ∧ i < u.offset + u.size

theorem Tiles.not_inLinks (h : Tiles start bs stop) {i : Nat} (hi : InData bs i) :
    ¬ InLinks bs i := by
  obtain ⟨u, hu, hused, hlo, hhi⟩ := hi
  rintro ⟨b, hb, hlo', hhi'⟩
  obtain ⟨-, -, hpos, hdvd⟩ := h.bounds hb
  have hle : granule ≤ b.size := Nat.le_of_dvd hpos hdvd
  have hlink := b.linkSize_le
  rcases h.apart hu hb with rfl | hap | hap
  · simp only [Block.linkSize, hused, if_true] at hhi'
    omega
  · omega
  · omega

def unlist (lists : SizeClass → List Nat) (b : Block) : SizeClass → List Nat :=
  Function.update lists (ofSize b.size) ((lists (ofSize b.size)).erase b.offset)

def enlist (lists : SizeClass → List Nat) (b : Block) : SizeClass → List Nat :=
  Function.update lists (ofSize b.size) (b.offset :: lists (ofSize b.size))

theorem mem_unlist_of_mem {d : SizeClass} {x : Nat} (h : x ∈ unlist lists b d) : x ∈ lists d := by
  unfold unlist at h
  by_cases hd : d = ofSize b.size
  · subst hd
    rw [Function.update_self] at h
    exact List.mem_of_mem_erase h
  · rwa [Function.update_of_ne hd] at h

theorem mem_unlist_of_ne {d : SizeClass} {x : Nat} (h : x ∈ lists d) (hx : x ≠ b.offset) :
    x ∈ unlist lists b d := by
  unfold unlist
  by_cases hd : d = ofSize b.size
  · subst hd
    rw [Function.update_self]
    exact (List.mem_erase_of_ne hx).mpr h
  · rwa [Function.update_of_ne hd]

theorem mem_enlist {d : SizeClass} {x : Nat} :
    x ∈ enlist lists b d ↔ x ∈ lists d ∨ x = b.offset ∧ d = ofSize b.size := by
  unfold enlist
  by_cases hd : d = ofSize b.size
  · subst hd
    simp [or_comm]
  · simp [hd]

namespace Layout.IsValid

theorem unlisted_unlist (h : IsValid ⟨bs, lists⟩ capacity) (hb : b ∈ bs) (d : SizeClass) :
    b.offset ∉ unlist lists b d := by
  intro hd
  obtain ⟨-, rfl⟩ := h.free_of_listed hb (mem_unlist_of_mem hd)
  rw [unlist, Function.update_self] at hd
  exact (h.nodup _).not_mem_erase hd

theorem unlist (h : IsValid ⟨bs, lists⟩ capacity) (b : Block) :
    IsValid ⟨bs, unlist lists b⟩ capacity where
  tiles := h.tiles
  listed d x hx := h.listed d x (mem_unlist_of_mem hx)
  nodup d := by
    dsimp only [Heap.unlist]
    by_cases hd : d = ofSize b.size
    · subst hd
      rw [Function.update_self]
      exact (h.nodup _).erase _
    · rw [Function.update_of_ne hd]
      exact h.nodup d

theorem enlist (h : IsValid ⟨bs, lists⟩ capacity) (hb : b ∈ bs) (hfree : b.used = false)
    (hout : ∀ d, b.offset ∉ lists d) : IsValid ⟨bs, enlist lists b⟩ capacity where
  tiles := h.tiles
  listed d x hx := by
    rcases mem_enlist.mp hx with hx | ⟨rfl, rfl⟩
    · exact h.listed d x hx
    · exact ⟨b, hb, rfl, hfree, rfl⟩
  nodup d := by
    dsimp only [Heap.enlist]
    by_cases hd : d = ofSize b.size
    · subst hd
      rw [Function.update_self]
      exact List.nodup_cons.mpr ⟨hout _, h.nodup _⟩
    · rw [Function.update_of_ne hd]
      exact h.nodup d

theorem replace (old new : List Block) (h : IsValid ⟨pre ++ (old ++ post), lists⟩ capacity)
    (hnew : ∀ start stop, Tiles start old stop → Tiles start new stop)
    (hout : ∀ b ∈ old, ∀ d, b.offset ∉ lists d) :
    IsValid ⟨pre ++ (new ++ post), lists⟩ capacity where
  tiles := by
    obtain ⟨m, hpre, hrest⟩ := tiles_append.mp h.tiles
    obtain ⟨m', hold, hpost⟩ := tiles_append.mp hrest
    exact tiles_append.mpr ⟨m, hpre, tiles_append.mpr ⟨m', hnew _ _ hold, hpost⟩⟩
  listed d x hx := by
    obtain ⟨b, hb, rfl, hfree, hclass⟩ := h.listed d x hx
    refine ⟨b, ?_, rfl, hfree, hclass⟩
    simp only [List.mem_append] at hb ⊢
    rcases hb with hb | hb | hb
    · exact Or.inl hb
    · exact absurd hx (hout b hb d)
    · exact Or.inr (Or.inr hb)
  nodup := h.nodup

end Layout.IsValid

end MemoryKit.Heap
