import Mathlib.Algebra.Order.BigOperators.Group.List
import Mathlib.Algebra.Order.Group.Nat
import MemoryKit.Proofs.Heap.Trades

/-! # Used blocks decide all blocks

Where no two free blocks are side by side, the free blocks are the gaps between the used ones, so
that settled layouts with the same used blocks have the same blocks. A trade exchanges used blocks
one for one, which the number of used blocks and their sizes together follow.
-/

namespace MemoryKit.Heap

variable {h h' : Heap} {L L' : Layout} {b c u : Block} {bs cs : List Block} {start stop : Nat}
  {gone new : Option Block}

/-- A free block does not end inside of another one: what follows it is used and lies elsewhere. -/
theorem Tiles.not_lt_of_merged (hb : Tiles start (b :: bs) stop) (hc : Tiles start (c :: cs) stop)
    (hm : (b :: bs).IsChain Block.NotBothFree) (hfree : b.used = false) (hfree' : c.used = false)
    (hmem : ∀ u : Block, u.used = true → u ∈ b :: bs → u ∈ c :: cs) : ¬ b.size < c.size := by
  intro hlt
  obtain ⟨hboff, -, -, hrest⟩ := hb
  obtain ⟨hcoff, -, -, hrest'⟩ := hc
  have hle := hrest'.le
  cases bs with
  | nil =>
    have hend : start + b.size = stop := hrest
    omega
  | cons n bs =>
    have hused : n.used = true := (List.isChain_cons_cons.mp hm).1.resolve_left (by simp [hfree])
    obtain ⟨hnoff, -, -, -⟩ := hrest
    rcases List.mem_cons.mp (hmem n hused (by simp)) with rfl | hn
    · rw [hused] at hfree'
      cases hfree'
    · have := (hrest'.bounds hn).1
      omega

theorem Tiles.head_eq (hb : Tiles start (b :: bs) stop) (hc : Tiles start (c :: cs) stop)
    (hm : (b :: bs).IsChain Block.NotBothFree) (hm' : (c :: cs).IsChain Block.NotBothFree)
    (hmem : ∀ u : Block, u.used = true → (u ∈ b :: bs ↔ u ∈ c :: cs)) : b = c := by
  have hoff : b.offset = c.offset := hb.1.trans hc.1.symm
  by_cases hused : b.used = true
  · exact hc.eq_of_offset_eq ((hmem b hused).mp (by simp)) (by simp) hoff
  by_cases hused' : c.used = true
  · exact hb.eq_of_offset_eq (by simp) ((hmem c hused').mpr (by simp)) hoff
  rw [Bool.not_eq_true] at hused hused'
  have hlt := hb.not_lt_of_merged hc hm hused hused' fun u hu => (hmem u hu).mp
  have hlt' := hc.not_lt_of_merged hb hm' hused' hused fun u hu => (hmem u hu).mpr
  have hsize : b.size = c.size := by omega
  cases b
  cases c
  simp_all

/-- Merged blocks that cover the same offsets are the same if the used ones are. -/
theorem Tiles.eq_of_used (hb : Tiles start bs stop) (hc : Tiles start cs stop)
    (hm : bs.IsChain Block.NotBothFree) (hm' : cs.IsChain Block.NotBothFree)
    (hmem : ∀ u : Block, u.used = true → (u ∈ bs ↔ u ∈ cs)) : bs = cs := by
  induction bs generalizing start cs with
  | nil =>
    cases cs with
    | nil => rfl
    | cons c cs =>
      obtain ⟨-, hpos, -, hrest⟩ := hc
      have := hrest.le
      have hend : start = stop := hb
      omega
  | cons b bs ih =>
    cases cs with
    | nil =>
      obtain ⟨-, hpos, -, hrest⟩ := hb
      have := hrest.le
      have hend : start = stop := hc
      omega
    | cons c cs =>
      obtain rfl := hb.head_eq hc hm hm' hmem
      obtain ⟨hoff, hpos, -, hrest⟩ := hb
      obtain ⟨-, -, -, hrest'⟩ := hc
      congr 1
      refine ih hrest hrest' hm.tail hm'.tail fun u hu => ?_
      have hne : ∀ ds, Tiles (start + b.size) ds stop → u ∈ ds → u ≠ b := by
        rintro ds hds hu rfl
        have := (hds.bounds hu).1
        omega
      have hiff := hmem u hu
      simp only [List.mem_cons] at hiff
      constructor
      · exact fun hmem => (hiff.mp (Or.inr hmem)).resolve_left (hne bs hrest hmem)
      · exact fun hmem => (hiff.mpr (Or.inr hmem)).resolve_left (hne cs hrest' hmem)

theorem Layout.Settled.blocks_eq (hs : L.Settled) (hs' : L'.Settled) {capacity : Nat}
    (hv : L.IsValid capacity) (hv' : L'.IsValid capacity)
    (hmem : ∀ u : Block, u.used = true → (u ∈ L.blocks ↔ u ∈ L'.blocks)) : L.blocks = L'.blocks :=
  hv.tiles.eq_of_used hv'.tiles hs.merged hs'.merged hmem

theorem Layout.Settled.blocks_eq_singleton (hs : L.Settled) {capacity : Nat}
    (hv : L.IsValid capacity) (hpos : 0 < capacity) (hnone : ∀ u ∈ L.blocks, u.used = false) :
    L.blocks = [⟨0, capacity, false⟩] := by
  have hdvd := hv.tiles.granule_dvd_stop (Nat.dvd_zero _)
  have ht : Tiles 0 [⟨0, capacity, false⟩] capacity := ⟨rfl, hpos, hdvd, Nat.zero_add _⟩
  refine hv.tiles.eq_of_used ht hs.merged (List.isChain_singleton _) fun u hu => ?_
  constructor
  · intro hmem
    rw [hnone u hmem] at hu
    cases hu
  · intro hmem
    obtain rfl := List.mem_singleton.mp hmem
    cases hu

def Layout.used (L : Layout) : List Block := L.blocks.filter Block.used

theorem Layout.mem_used : u ∈ L.used ↔ u ∈ L.blocks ∧ u.used = true := List.mem_filter

theorem Tiles.sum_size (ht : Tiles start bs stop) : start + (bs.map Block.size).sum = stop := by
  induction bs generalizing start with
  | nil => exact ht
  | cons b bs ih =>
    obtain ⟨-, -, -, hrest⟩ := ht
    rw [List.map_cons, List.sum_cons, ← Nat.add_assoc]
    exact ih hrest

theorem Layout.IsValid.nodup_used {capacity : Nat} (hv : L.IsValid capacity) : L.used.Nodup :=
  hv.tiles.nodup.filter _

theorem Layout.IsValid.sum_size_used_le {capacity : Nat} (hv : L.IsValid capacity) :
    (L.used.map Block.size).sum ≤ capacity := by
  have hsub : (L.used.map Block.size).Sublist (L.blocks.map Block.size) :=
    List.filter_sublist.map _
  have hle := hsub.sum_le_sum fun _ _ => Nat.zero_le _
  have hsum := hv.tiles.sum_size
  omega

theorem Layout.size_le_sum_used (hb : b ∈ L.used) : b.size ≤ (L.used.map Block.size).sum :=
  List.le_sum_of_mem (List.mem_map_of_mem hb)

theorem Trades.mem_used (T : Trades h L h' L' gone new) :
    u ∈ L'.used ↔ u ∈ L.used ∧ u ∉ gone ∨ u ∈ new := by
  have hnew : u ∈ new → u.used = true := fun hn => (T.fresh u hn).1
  rw [Layout.mem_used, Layout.mem_used]
  constructor
  · rintro ⟨hu, hused⟩
    exact ((T.used u hused).mp hu).imp_left fun ⟨hu, hg⟩ => ⟨⟨hu, hused⟩, hg⟩
  · rintro (⟨⟨hu, hused⟩, hg⟩ | hn)
    · exact ⟨(T.used u hused).mpr (Or.inl ⟨hu, hg⟩), hused⟩
    · exact ⟨(T.used u (hnew hn)).mpr (Or.inr hn), hnew hn⟩

theorem Trades.perm_used (T : Trades h L h' L' gone new) (hv : L.IsValid h.capacity)
    (hgone : ∀ b ∈ gone, b ∈ L.used) :
    (gone.toList ++ L'.used).Perm (new.toList ++ L.used) := by
  have hcount : ∀ (o : Option Block) (u : Block), o.toList.count u = if u ∈ o then 1 else 0 := by
    intro o u
    cases o <;> simp [List.count_singleton]
  refine List.perm_iff_count.mpr fun u => ?_
  have hfresh : u ∈ new → u ∈ L.used → u ∈ gone := fun hn hu =>
    (T.fresh u hn).2 (Layout.mem_used.mp hu).1
  rw [List.count_append, List.count_append, hcount, hcount, hv.nodup_used.count,
    T.layout.valid.nodup_used.count, if_congr T.mem_used rfl rfl]
  have hgone := hgone u
  split_ifs <;> tauto

theorem Trades.totals_used (T : Trades h L h' L' gone new) (hv : L.IsValid h.capacity)
    (hgone : ∀ b ∈ gone, b ∈ L.used) :
    L'.used.length + gone.toList.length = L.used.length + new.toList.length ∧
      (L'.used.map Block.size).sum + (gone.toList.map Block.size).sum =
        (L.used.map Block.size).sum + (new.toList.map Block.size).sum := by
  have hperm := T.perm_used hv hgone
  have hlen := hperm.length_eq
  have hsum := (hperm.map Block.size).sum_eq
  simp only [List.length_append, List.map_append, List.sum_append] at hlen hsum
  omega

theorem Trades.word_eq (T : Trades h L h' L' gone new) (hb : b ∈ L.used) (hgone : b ∉ gone)
    {f : Nat} (hlo : 8 ≤ f) (hhi : f + 4 ≤ headerSize) :
    h'.word (b.offset + f) = h.word (b.offset + f) := by
  obtain ⟨hb, hu⟩ := Layout.mem_used.mp hb
  have hb' := T.mem_of_mem hu hb hgone
  exact T.word_eq_of_offset_eq hb hu (T.layout.headerSize_le hb') hb' hu rfl hlo hhi

theorem Trades.tag_eq (T : Trades h L h' L' gone new) (hb : b ∈ L.used) (hgone : b ∉ gone) :
    h'.tag b.offset = h.tag b.offset :=
  T.word_eq hb hgone (by decide) (by decide)

theorem Trades.user_eq (T : Trades h L h' L' gone new) (hb : b ∈ L.used) (hgone : b ∉ gone) :
    h'.user b.offset = h.user b.offset :=
  T.word_eq hb hgone (by decide) (by decide)

end MemoryKit.Heap
