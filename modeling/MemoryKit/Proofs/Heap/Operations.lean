import MemoryKit.Proofs.Heap.Merging
import MemoryKit.Proofs.Heap.Trades

/-! # The operations of a heap

Taking, returning, cutting and growing a block trades used blocks of a settled layout: one has come,
is gone, or has another size.
-/

namespace MemoryKit.Heap

open SizeClass

variable {h h' : Heap} {L : Layout} {f : Focus} {b : Block} {x size rounded : Nat}

def Focus.take (f : Focus) : Focus := mark { f with lists := unlist f.lists f.block } true

def Focus.cut (f : Focus) (size : Nat) : Block := { f.block with size := f.sizeAfter size }

theorem Focus.le_sizeAfter (hle : size ≤ f.block.size) : size ≤ f.sizeAfter size := by
  unfold sizeAfter
  split
  · exact hle
  · exact Nat.le_refl _

/-- What would be left over is a block, or there is nothing left over. -/
theorem Focus.sizeAfter_eq (hdvd : granule ∣ size) (hblock : granule ∣ f.block.size)
    (hle : size ≤ f.block.size) : f.sizeAfter size = size := by
  unfold sizeAfter
  split
  · next hlt =>
    obtain ⟨j, hj⟩ := hdvd
    obtain ⟨k, hk⟩ := hblock
    simp only [headerSize, granule] at *
    omega
  · rfl

namespace HasLayout

theorem trades_allocate (H : h.HasLayout f.layout) (hs : f.layout.Settled) (hdvd : granule ∣ size)
    (hpos : 0 < size) (hr : ceil? size = some rounded)
    (ha : h.allocate size = some (f.block.offset, h')) :
    Trades h f.layout h' (f.take.split rounded) none (some (f.take.cut rounded)) ∧
      size ≤ (f.take.cut rounded).size ∧ KeepsStale h f.layout h' (f.take.split rounded) := by
  obtain ⟨rounded', d, hr', hd, hhead, rfl⟩ := exists_class_of_allocate ha
  obtain rfl : rounded = rounded' := Option.some.inj (hr.symm.trans hr')
  obtain ⟨hle, hne⟩ := H.index.search hd
  rw [H.index.head d (H.index.valid d hne)] at hhead
  have hc : f.block ∈ f.layout.blocks := Focus.block_mem
  obtain ⟨hfree, rfl⟩ := H.valid.free_of_listed hc (List.mem_of_head? hhead)
  have hlisted : f.block.offset ∈ f.lists (ofSize f.block.size) := List.mem_of_head? hhead
  have hfit : rounded ≤ f.block.size := le_of_ofSize_le hdvd hr hle
  have hpos' : 0 < rounded := Nat.lt_of_lt_of_le hpos (le_of_ceil? hr)
  have hdvd' := granule_dvd_of_ceil? hdvd hr
  -- The block is unlisted, then marked as used, then cut.
  let g : Focus := { f with lists := Heap.unlist f.lists f.block }
  have ho : g.IsOpen := Focus.isOpen_unlist H.valid hs
  have Hg : (h.extractFree f.block.offset).HasLayout g.layout := H.extractFree hc hlisted
  have Hm := Hg.mark ho true
  have ho' := Focus.isOpen_mark ho true
  obtain ⟨H', hagree⟩ := Hm.split ho' rfl hpos' hdvd' hfit
  have hextract := H.agreeOff_extractFree hc hlisted
  have hx := H.granule_dvd hc
  have hused : ∀ u : Block, u.used = true → (u ∈ (f.take.split rounded).blocks ↔
      u ∈ f.layout.blocks ∧ u ∉ none ∨ u ∈ some (f.take.cut rounded)) := fun u hu => by
    have hne : u ≠ f.block := fun he => by simp [he, hfree] at hu
    have hothers : u ∈ f.before ∨ u ∈ f.after ↔ u ∈ f.layout.blocks :=
      (Focus.mem_others H.valid).trans (and_iff_left hne)
    rw [Focus.mem_split hu, ← hothers]
    simp [Focus.cut, Focus.take, Focus.mark, or_comm, eq_comm]
  have hkeeps : KeepsStale h f.layout
      (((h.extractFree f.block.offset).mark f.block.offset true).split f.block.offset rounded)
      (f.take.split rounded) := by
    refine .of_marks (hagree.capacity.trans hextract.capacity) hused
      (by simp [Focus.cut, Focus.take, Focus.mark]) fun y hy hne hu => ⟨?_, by simp⟩
    have hne' : f.block.offset ≠ y := hne (f.take.cut rounded) rfl
    obtain ⟨hmark, huser⟩ := hagree.marks y hy hu
    rw [Heap.mark, isUsed_setSize hx (granule_dvd_blockSize _ _) true hy, if_neg hne'] at hmark
    obtain ⟨hmark, huser'⟩ := hextract.marks y hy hmark
    exact ⟨hmark, huser.trans ((user_setSize hx hy).trans huser')⟩
  refine ⟨⟨H', ?_, ?_, hused, fun u hu => ?_, fun i hi hi' => ?_, hkeeps.inherits _⟩,
    Nat.le_trans (le_of_ceil? hr) (Focus.le_sizeAfter hfit), hkeeps⟩
  · exact Focus.settled_split ho' Hm.valid rfl hpos' hdvd'
  · exact hagree.capacity.trans hextract.capacity
  · obtain rfl : f.take.cut rounded = u := Option.some.inj hu
    refine ⟨rfl, fun hmem => ?_⟩
    have he := H.valid.tiles.eq_of_offset_eq hmem hc rfl
    have hcontra : true = f.block.used := congrArg Block.used he
    rw [hfree] at hcontra
    cases hcontra
  · have hout := H.valid.tiles.not_inLinks hi
    exact (hagree.byte i hi').trans
      ((byte_setSize_of_not_inLinks hc hout).trans (hextract.byte i hout))

theorem exists_of_allocate (H : h.HasLayout L) (ha : h.allocate size = some (x, h')) :
    ∃ rounded, ceil? size = some rounded ∧ ∃ f : Focus, f.block.offset = x ∧ f.layout = L := by
  obtain ⟨rounded, d, hr, hd, hhead, -⟩ := exists_class_of_allocate ha
  obtain ⟨-, hne⟩ := H.index.search hd
  rw [H.index.head d (H.index.valid d hne)] at hhead
  obtain ⟨c, hc, rfl, -, -⟩ := H.valid.listed d x (List.mem_of_head? hhead)
  obtain ⟨f, rfl, rfl⟩ := Focus.exists_of_mem hc
  exact ⟨rounded, hr, f, rfl, rfl⟩

theorem allocate (H : h.HasLayout L) (hs : L.Settled) (hdvd : granule ∣ size) (hpos : 0 < size)
    (ha : h.allocate size = some (x, h')) :
    ∃ L' b, Trades h L h' L' none (some b) ∧ b.offset = x ∧ size ≤ b.size ∧
      KeepsStale h L h' L' := by
  obtain ⟨rounded, hr, f, rfl, rfl⟩ := H.exists_of_allocate ha
  obtain ⟨T, hle, hkeeps⟩ := H.trades_allocate hs hdvd hpos hr ha
  exact ⟨_, _, T, rfl, hle, hkeeps⟩

theorem trades_free (H : h.HasLayout f.layout) (hs : f.layout.Settled)
    (hu : f.block.used = true) :
    Trades h f.layout (h.free f.block.offset) f.release (some f.block) none ∧
      KeepsStale h f.layout (h.free f.block.offset) f.release := by
  have hb : f.block ∈ f.layout.blocks := Focus.block_mem
  have ho := Focus.isOpen_of_settled H.valid hs hu
  have hx : granule ∣ f.block.offset := H.granule_dvd hb
  have hle := H.headerSize_le hb
  have hlo : f.block.offset + 8 ≤ f.block.offset + nextField := by simp [nextField]
  have hhi : f.block.offset + nextField + 4 ≤ f.block.offset + f.block.size := by
    simp only [nextField, headerSize] at *
    omega
  obtain ⟨H', hagree, hmark⟩ := (H.of_setWord hb hu hlo hhi noLink).release ho
  have hout : ∀ i, InData f.release.blocks i → ¬ InLinks (f.mark false).blocks i := fun i hi =>
    (Focus.isValid_mark ho H.valid false).tiles.not_inLinks
      (Focus.inData_release (f := f.mark false) hi)
  have hused : ∀ u : Block, u.used = true → (u ∈ f.release.blocks ↔
      u ∈ f.layout.blocks ∧ u ∉ some f.block ∨ u ∈ none) := fun u hu => by
    rw [Focus.mem_release hu, Focus.mem_others H.valid]
    simp [Focus.layout, eq_comm]
  -- The offset of the data is erased under the mark, which is gone in the end.
  have hkeeps : KeepsStale h f.layout (h.free f.block.offset) f.release := by
    refine .of_marks hagree.capacity hused (by simp) fun y hy _ hu => ?_
    have hne : f.block.offset ≠ y := by
      rintro rfl
      exact Bool.eq_false_iff.mp hmark hu
    obtain ⟨hu', huser⟩ := hagree.marks y hy hu
    rw [isUsed_setWord hx isField_next (by decide) hy] at hu'
    have herased : (h.setWord (f.block.offset + nextField) noLink).user y = h.user y :=
      (word_setWord_same isField_next hx hy).trans (if_neg hne)
    exact ⟨⟨hu', huser.trans herased⟩, by simpa using hne⟩
  refine ⟨⟨H', Focus.settled_release ho H.valid, hagree.capacity, hused, by simp,
    fun i _ hi => ?_, hkeeps.inherits _⟩, hkeeps⟩
  exact (hagree.byte i (hout i hi)).trans (byte_setWord_of_not_inLinks
    (b := (f.mark false).block) Focus.block_mem (by simp [Block.linkSize, Focus.mark, nextField])
    (hout i hi))

theorem free (H : h.HasLayout L) (hs : L.Settled) (hb : b ∈ L.blocks) (hu : b.used = true) :
    ∃ L', Trades h L (h.free b.offset) L' (some b) none ∧ KeepsStale h L (h.free b.offset) L' := by
  obtain ⟨f, rfl, rfl⟩ := Focus.exists_of_mem hb
  exact ⟨_, H.trades_free hs hu⟩

theorem trades_split (H : h.HasLayout f.layout) (hs : f.layout.Settled)
    (hu : f.block.used = true) (hpos : 0 < size) (hdvd : granule ∣ size)
    (hle : size ≤ f.block.size) :
    Trades h f.layout (h.split f.block.offset size) (f.split size) (some f.block)
      (some (f.cut size)) ∧ KeepsStale h f.layout (h.split f.block.offset size) (f.split size) := by
  have ho := Focus.isOpen_of_settled H.valid hs hu
  obtain ⟨H', hagree⟩ := H.split ho hu hpos hdvd hle
  have hused : ∀ u : Block, u.used = true → (u ∈ (f.split size).blocks ↔
      u ∈ f.layout.blocks ∧ u ∉ some f.block ∨ u ∈ some (f.cut size)) := fun u hu => by
    rw [Focus.mem_split hu, Focus.mem_others H.valid]
    simp [Focus.layout, Focus.cut, or_comm, eq_comm]
  have hkeeps : KeepsStale h f.layout (h.split f.block.offset size) (f.split size) :=
    .of_marks_same hagree.capacity hused hu rfl hagree.marks
  exact ⟨⟨H', Focus.settled_split ho H.valid hu hpos hdvd, hagree.capacity, hused,
    fresh_of_offset_eq H.valid Focus.block_mem hu rfl, fun i _ hi => hagree.byte i hi,
    hkeeps.inherits _⟩, hkeeps⟩

theorem trades_shrink (H : h.HasLayout L) (hs : L.Settled) (hb : b ∈ L.blocks)
    (hu : b.used = true) (hpos : 0 < size) (hdvd : granule ∣ size) :
    ∃ L', Trades h L (h.shrink b.offset size) L' (some b)
        (some { b with size := min b.size (ceilOrSelf size) }) ∧
      KeepsStale h L (h.shrink b.offset size) L' := by
  have hdvd' := granule_dvd_ceilOrSelf hdvd
  have hself := le_ceilOrSelf size
  unfold Heap.shrink
  dsimp only
  rw [H.blockSize_eq hb]
  split
  · next hlt =>
    obtain ⟨f, rfl, rfl⟩ := Focus.exists_of_mem hb
    have hcut := Focus.sizeAfter_eq hdvd' (H.granule_dvd_size hb) (Nat.le_of_lt hlt)
    obtain ⟨T, hkeeps⟩ := H.trades_split hs hu (by omega) hdvd' (Nat.le_of_lt hlt)
    rw [Focus.cut, hcut] at T
    rw [Nat.min_eq_right (Nat.le_of_lt hlt)]
    exact ⟨_, T, hkeeps⟩
  · next hge =>
    rw [Nat.min_eq_left (Nat.not_lt.mp hge)]
    exact ⟨L, .refl H hs hb hu, .refl h L⟩

theorem shrink (H : h.HasLayout L) (hs : L.Settled) (hb : b ∈ L.blocks) (hu : b.used = true)
    (hpos : 0 < size) (hdvd : granule ∣ size) (hle : size ≤ b.size) :
    ∃ L' b', Trades h L (h.shrink b.offset size) L' (some b) (some b') ∧ b'.offset = b.offset ∧
      size ≤ b'.size ∧ b'.size ≤ b.size ∧ KeepsStale h L (h.shrink b.offset size) L' := by
  obtain ⟨L', T, hkeeps⟩ := H.trades_shrink hs hb hu hpos hdvd
  exact ⟨L', _, T, rfl, Nat.le_min.mpr ⟨hle, le_ceilOrSelf size⟩, Nat.min_le_left _ _, hkeeps⟩

theorem trades_grow (H : h.HasLayout f.layout) (hs : f.layout.Settled) (hu : f.block.used = true)
    (hpos : 0 < size) (hdvd : granule ∣ size) (hlt : f.block.size < size)
    (hg : h.grow f.block.offset size = some h') :
    Trades h f.layout h' (f.joinAfter.split size) (some f.block) (some (f.joinAfter.cut size)) ∧
      size ≤ (f.joinAfter.cut size).size := by
  have hb : f.block ∈ f.layout.blocks := Focus.block_mem
  have ho := Focus.isOpen_of_settled H.valid hs hu
  have hbehind : h.behind f.block.offset = f.after.head?.map Block.offset := H.behind_eq
  unfold Heap.grow at hg
  rw [H.blockSize_eq hb, hbehind, if_neg (Nat.not_le_of_lt hlt)] at hg
  cases ha : f.after with
  | nil => simp [ha] at hg
  | cons n after =>
  have hmem : n ∈ f.layout.blocks := Focus.mem_blocks.mpr (by simp [ha])
  simp only [ha, List.head?_cons, Option.map_some, H.isUsed_eq hmem, H.blockSize_eq hmem] at hg
  split at hg
  · cases hg
  · next hfit =>
    rw [not_or, Bool.not_eq_true, Nat.not_lt] at hfit
    obtain ⟨hn, hfit⟩ := hfit
    have hjoin : h.joinAfter f.block.offset =
        (h.extractFree n.offset).absorbNext f.block.offset := by
      simp [Heap.joinAfter, hbehind, ha, H.isUsed_eq hmem, hn]
    obtain ⟨H', hagree⟩ := H.joinAfter ho
    have ho' := Focus.isOpen_joinAfter ho H.valid
    have hu' : f.joinAfter.block.used = true := f.used_joinAfter.trans hu
    have hle : size ≤ f.joinAfter.block.size := by rwa [Focus.joinAfter_cons ha hn]
    obtain ⟨H'', hagree'⟩ := H'.split ho' hu' hpos hdvd hle
    rw [Focus.offset_joinAfter, hjoin] at H'' hagree'
    rw [hjoin] at hagree
    cases hg
    have hused : ∀ u : Block, u.used = true → (u ∈ (f.joinAfter.split size).blocks ↔
        u ∈ f.layout.blocks ∧ u ∉ some f.block ∨ u ∈ some (f.joinAfter.cut size)) :=
      fun u hu => by
        rw [Focus.mem_split hu, Focus.before_joinAfter, Focus.mem_after_joinAfter hu,
          Focus.mem_others H.valid]
        simp [Focus.layout, Focus.cut, or_comm, eq_comm]
    have hcap := hagree'.capacity.trans hagree.capacity
    have hkeeps := KeepsStale.of_marks_same hcap hused hu' f.offset_joinAfter
      (hagree.marks.trans hagree'.marks)
    refine ⟨⟨H'', Focus.settled_split ho' H'.valid hu' hpos hdvd, hcap, hused,
      fresh_of_offset_eq H.valid hb hu' f.offset_joinAfter, fun i hi hi' => ?_,
      hkeeps.inherits _⟩, Focus.le_sizeAfter hle⟩
    exact (hagree'.byte i hi').trans (hagree.byte i (H.valid.tiles.not_inLinks hi))

theorem grow (H : h.HasLayout L) (hs : L.Settled) (hb : b ∈ L.blocks) (hu : b.used = true)
    (hpos : 0 < size) (hdvd : granule ∣ size) (hlt : b.size < size)
    (hg : h.grow b.offset size = some h') :
    ∃ L' b', Trades h L h' L' (some b) (some b') ∧ b'.offset = b.offset ∧ size ≤ b'.size := by
  obtain ⟨f, rfl, rfl⟩ := Focus.exists_of_mem hb
  obtain ⟨T, hle⟩ := H.trades_grow hs hu hpos hdvd hlt hg
  exact ⟨_, _, T, f.offset_joinAfter, hle⟩

end HasLayout

@[simp] theorem capacity_reset (h : Heap) : h.reset.capacity = h.capacity := by
  simp [reset]

def emptyLayout (capacity : Nat) : Layout :=
  ⟨[⟨0, capacity, false⟩], enlist (fun _ => []) ⟨0, capacity, false⟩⟩

def unlisted (h : Heap) : Heap :=
  ({ h with index := .empty }.setSize 0 h.capacity false).setBefore 0 none

theorem reset_eq (h : Heap) : h.reset = h.unlisted.insertFree 0 := rfl

section StartingOver

variable (h : Heap) (hdvd : granule ∣ h.capacity) (hpos : 0 < h.capacity)
  (hlt : h.capacity < wordLimit)

include hdvd hpos hlt

theorem hasLayout_unlisted : h.unlisted.HasLayout ⟨[⟨0, h.capacity, false⟩], fun _ => []⟩ := by
  have h0 : granule ∣ 0 := Nat.dvd_zero _
  have hword : h.unlisted.word 0 = h.capacity := by
    rw [unlisted, word_setBefore h0 h0, word_setSize h0 h0, if_pos rfl, Bool.toNat_false,
      Nat.add_zero, Nat.mod_eq_of_lt hlt]
  have hbefore : h.unlisted.before 0 = none := by
    rw [unlisted, before_setBefore h0 h0 (by simp), if_pos rfl]
  exact
    { valid := ⟨⟨rfl, hpos, hdvd, Nat.zero_add _⟩, by simp, by simp⟩
      capacity_lt := hlt
      follows := ⟨hword, hbefore, trivial⟩
      index := .empty
      chained := fun _ => trivial }

theorem hasLayout_reset : h.reset.HasLayout (emptyLayout h.capacity) := by
  rw [reset_eq]
  exact (hasLayout_unlisted h hdvd hpos hlt).insertFree (b := ⟨0, h.capacity, false⟩)
    List.mem_cons_self rfl (by simp)

theorem addsNoMarks_reset : AddsNoMarks h h.reset := by
  have hb : (⟨0, h.capacity, false⟩ : Block) ∈ [⟨0, h.capacity, false⟩] := List.mem_cons_self
  have h0 : granule ∣ (⟨0, h.capacity, false⟩ : Block).offset := Nat.dvd_zero _
  have hsize : AddsNoMarks h (Heap.setSize { h with index := .empty } 0 h.capacity false) := by
    intro y hy hu
    rw [isUsed_setSize h0 hdvd false hy] at hu
    refine ⟨?_, user_setSize h0 hy⟩
    split at hu
    · cases hu
    · exact hu
  have hunlisted : AddsNoMarks h h.unlisted :=
    hsize.trans (addsNoMarks_setWord h0 isField_back (by decide) (absurd · (by decide)))
  rw [reset_eq]
  exact hunlisted.trans ((hasLayout_unlisted h hdvd hpos hlt).agreeOff_insertFree hb rfl).marks

end StartingOver

theorem settled_emptyLayout (capacity : Nat) : (emptyLayout capacity).Settled where
  listed b hb _ := by
    obtain rfl := List.mem_singleton.mp hb
    simp [emptyLayout, mem_enlist]
  merged := List.isChain_singleton _

end MemoryKit.Heap
