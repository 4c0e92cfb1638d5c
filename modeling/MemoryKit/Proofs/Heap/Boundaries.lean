import MemoryKit.Proofs.Heap.Headers

/-! # Boundaries of blocks in memory

A block is marked, joined with the one behind it or cut in two. Each of these writes sizes and links
back, and changes the blocks of the layout accordingly. Free lists stay as they are, so that blocks
which come or go must not be listed.
-/

namespace MemoryKit.Heap

open SizeClass

variable {h h' : Heap} {L : Layout} {f : Focus} {b n : Block} {bs pre post : List Block}
  {lists : SizeClass → List Nat} {x y size : Nat} {link : Option Nat}

theorem follows_middle : h.Follows none (pre ++ b :: post) ↔
    h.Follows none pre ∧ h.word b.offset = b.size + b.used.toNat ∧
      h.before b.offset = pre.getLast?.map Block.offset ∧ h.Follows (some b.offset) post := by
  rw [follows_append, Option.or_none]
  rfl

def tieBehind (h : Heap) (behind : Option Nat) (x : Nat) : Heap :=
  match behind with
  | some a => h.setBefore a (some x)
  | none => h

@[simp] theorem capacity_tieBehind (h : Heap) (link : Option Nat) (x : Nat) :
    (h.tieBehind link x).capacity = h.capacity := by
  cases link <;> rfl

@[simp] theorem index_tieBehind (h : Heap) (link : Option Nat) (x : Nat) :
    (h.tieBehind link x).index = h.index := by
  cases link <;> rfl

theorem tieBehind_words (hlink : ∀ a ∈ link, granule ∣ a) (hx : x < noLink) (hy : granule ∣ y) :
    (h.tieBehind link x).word y = h.word y ∧
    (h.tieBehind link x).before y = (if link = some y then some x else h.before y) ∧
    (h.tieBehind link x).prevFree y = h.prevFree y ∧
    (h.tieBehind link x).nextFree y = h.nextFree y := by
  cases link with
  | none => exact ⟨rfl, rfl, rfl, rfl⟩
  | some a =>
    have ha := hlink a rfl
    have hlink : ∀ z ∈ some x, z < noLink := by simpa using hx
    have hb := before_setBefore (h := h) ha hy hlink
    simp only [tieBehind, Option.some.injEq]
    exact ⟨word_setBefore ha hy, hb, prevFree_setBefore ha hy, nextFree_setBefore ha hy⟩

theorem AgreeOff.tieBehind (hb : ∀ a ∈ link, ∃ b ∈ bs, b.offset = a)
    (hd : ∀ b ∈ bs, granule ∣ b.offset) : AgreeOff bs h (h.tieBehind link x) := by
  cases link with
  | none => exact .refl _ _
  | some a =>
    obtain ⟨c, hc, rfl⟩ := hb a rfl
    exact .setBefore hc (hd c hc)

theorem absorbNext_of_behind {next : Nat} (hn : h.behind x = some next) :
    h.absorbNext x = (h.setSize x (h.blockSize x + h.blockSize next) (h.isUsed x)).tieBehind
      ((h.setSize x (h.blockSize x + h.blockSize next) (h.isUsed x)).behind x) x := by
  cases hb : (h.setSize x (h.blockSize x + h.blockSize next) (h.isUsed x)).behind x <;>
    simp [absorbNext, hn, hb, tieBehind]

def writeParts (h : Heap) (x size rest : Nat) (used : Bool) : Heap :=
  ((h.setSize x size used).setSize (x + size) rest false).setBefore (x + size) (some x)

@[simp] theorem capacity_writeParts (h : Heap) (x size rest : Nat) (used : Bool) :
    (h.writeParts x size rest used).capacity = h.capacity := by
  simp [writeParts]

@[simp] theorem index_writeParts (h : Heap) (x size rest : Nat) (used : Bool) :
    (h.writeParts x size rest used).index = h.index := by
  simp [writeParts]

theorem writeParts_words (rest : Nat) (used : Bool) (hx : granule ∣ x) (hx' : x < noLink)
    (hsize : granule ∣ size) (hy : granule ∣ y) :
    (h.writeParts x size rest used).word y =
      (if x + size = y then rest % wordLimit
        else if x = y then (size + used.toNat) % wordLimit else h.word y) ∧
    (h.writeParts x size rest used).before y = (if x + size = y then some x else h.before y) ∧
    (h.writeParts x size rest used).prevFree y = h.prevFree y ∧
    (h.writeParts x size rest used).nextFree y = h.nextFree y := by
  have hr : granule ∣ x + size := Nat.dvd_add hx hsize
  have hl : ∀ z ∈ some x, z < noLink := by simpa using hx'
  refine ⟨?_, ?_, ?_, ?_⟩
  · rw [writeParts, word_setBefore hr hy, word_setSize hr hy, word_setSize hx hy]
    rfl
  · rw [writeParts, before_setBefore hr hy hl, before_setSize hr hy, before_setSize hx hy]
  · rw [writeParts, prevFree_setBefore hr hy, prevFree_setSize hr hy, prevFree_setSize hx hy]
  · rw [writeParts, nextFree_setBefore hr hy, nextFree_setSize hr hy, nextFree_setSize hx hy]

/-- Cuts a block in two, without a check whether the rest can be a block. -/
def cutAt (h : Heap) (x size : Nat) : Heap :=
  let remainder := wrappingSub wordLimit (h.blockSize x) size
  (h.writeParts x size remainder (h.isUsed x)).tieBehind (h.behind x) (x + size)

theorem split_eq (h : Heap) (x size : Nat) : h.split x size =
    if wrappingSub wordLimit (h.blockSize x) size < headerSize then h
    else (h.cutAt x size).release (x + size) := by
  unfold split cutAt writeParts tieBehind
  cases h.behind x <;> rfl

namespace HasLayout

theorem of_headers (H : h.HasLayout ⟨bs, lists⟩) {bs' : List Block}
    (hv : Layout.IsValid ⟨bs', lists⟩ h.capacity) (hcap : h'.capacity = h.capacity)
    (hidx : h'.index = h.index)
    (hlinks : ∀ x, granule ∣ x → h'.prevFree x = h.prevFree x ∧ h'.nextFree x = h.nextFree x)
    (hf : h'.Follows none bs') : h'.HasLayout ⟨bs', lists⟩ where
  valid := hcap ▸ hv
  capacity_lt := hcap ▸ H.capacity_lt
  follows := hf
  index := hidx ▸ H.index
  chained d := (H.chained d).congr fun x hx => hlinks x (H.granule_dvd_of_listed hx)

theorem mark (H : h.HasLayout f.layout) (ho : f.IsOpen) (used : Bool) :
    (h.mark f.block.offset used).HasLayout (f.mark used).layout := by
  have hb : f.block ∈ f.layout.blocks := Focus.block_mem
  have hx := H.granule_dvd hb
  have ht := H.valid.tiles
  have hother : ∀ c, c ∈ f.before.reverse ∨ c ∈ f.after →
      (h.mark f.block.offset used).word c.offset = h.word c.offset ∧
        (h.mark f.block.offset used).before c.offset = h.before c.offset := by
    intro c hc
    have hy := H.granule_dvd (Focus.mem_blocks.mpr (Or.inr (by simpa using hc)))
    refine ⟨?_, before_setSize hx hy⟩
    rw [Heap.mark, word_setSize hx hy, if_neg (Ne.symm (ht.offset_ne hc))]
  obtain ⟨hpre, -, hback, hpost⟩ := follows_middle.mp H.follows
  refine H.of_headers (Focus.isValid_mark ho H.valid used) rfl rfl
    (fun y hy => ⟨prevFree_setSize hx hy, nextFree_setSize hx hy⟩)
    (follows_middle.mpr ⟨?_, ?_, ?_, ?_⟩)
  · exact hpre.congr fun c hc => hother c (Or.inl hc)
  · change (h.mark f.block.offset used).word f.block.offset = f.block.size + used.toNat
    rw [Heap.mark, word_setSize hx hx, if_pos rfl, H.blockSize_eq hb,
      H.valid.tiles.header_lt H.capacity_lt hb]
  · exact (before_setSize hx hx).trans hback
  · exact hpost.congr fun c hc => hother c (Or.inr hc)

/--
Blocks are replaced by others, whose headers are in place already. The block behind is left to point
back to the last of them.
-/
theorem tieBehind (old new : List Block) (H : h.HasLayout ⟨pre ++ (old ++ post), lists⟩)
    (hv : Layout.IsValid ⟨pre ++ (new ++ post), lists⟩ h.capacity) (hcap : h'.capacity = h.capacity)
    (hidx : h'.index = h.index)
    (hlinks : ∀ y, granule ∣ y → h'.prevFree y = h.prevFree y ∧ h'.nextFree y = h.nextFree y)
    (hsame : ∀ c, c ∈ pre ∨ c ∈ post →
      h'.word c.offset = h.word c.offset ∧ h'.before c.offset = h.before c.offset)
    (hnew : h'.Follows (pre.getLast?.map Block.offset) new)
    (hlast : new.getLast?.map Block.offset = some x) :
    (h'.tieBehind (post.head?.map Block.offset) x).HasLayout ⟨pre ++ (new ++ post), lists⟩ := by
  have hd : ∀ c ∈ pre ++ (new ++ post), granule ∣ c.offset := fun c hc => hv.tiles.granule_dvd hc
  have hlink : ∀ a ∈ post.head?.map Block.offset, granule ∣ a := by
    intro a ha
    obtain ⟨c, hc, rfl⟩ := Option.map_eq_some_iff.mp ha
    exact hd c (by simp [List.mem_of_head? hc])
  have hx : x < noLink := by
    obtain ⟨c, hc, rfl⟩ := Option.map_eq_some_iff.mp hlast
    have := hv.tiles.bounds (b := c) (by simp [List.mem_of_getLast? hc])
    have := H.capacity_lt
    simp only [noLink, wordLimit] at *
    omega
  have hwords : ∀ y, granule ∣ y → _ := fun y hy => tieBehind_words (h := h') hlink hx hy
  -- Only the first block behind is written to.
  have hfront : ∀ c, c ∈ pre ∨ c ∈ new → post.head?.map Block.offset ≠ some c.offset := by
    intro c hc he
    obtain ⟨a, ha, hac⟩ := Option.map_eq_some_iff.mp he
    have ht := hv.tiles
    rw [← List.append_assoc] at ht
    exact ht.offset_ne_of_append (by simpa using hc) (List.mem_of_head? ha) hac.symm
  obtain ⟨hpre, hrest⟩ := follows_append.mp H.follows
  obtain ⟨-, hpost⟩ := follows_append.mp hrest
  obtain ⟨m, -, hnewpost⟩ := tiles_append.mp hv.tiles
  obtain ⟨m', -, htpost⟩ := tiles_append.mp hnewpost
  refine H.of_headers hv (by simp [hcap]) (by simp [hidx]) (fun y hy => ?_)
    (follows_append.mpr ⟨?_, follows_append.mpr ⟨?_, ?_⟩⟩)
  · exact ⟨(hwords y hy).2.2.1.trans (hlinks y hy).1, (hwords y hy).2.2.2.trans (hlinks y hy).2⟩
  · refine hpre.congr fun c hc => ?_
    have hy := hd c (by simp [hc])
    rw [(hwords _ hy).1, (hwords _ hy).2.1, if_neg (hfront c (Or.inl hc))]
    exact hsame c (Or.inl hc)
  · rw [Option.or_none]
    refine hnew.congr fun c hc => ?_
    have hy := hd c (by simp [hc])
    rw [(hwords _ hy).1, (hwords _ hy).2.1, if_neg (hfront c (Or.inr hc))]
    exact ⟨rfl, rfl⟩
  · rw [hlast, Option.some_or]
    refine hpost.rebase htpost (fun c hc => ?_) (fun c hc => ?_)
    · rw [(hwords _ (hd c (by simp [hc]))).1, (hsame c (Or.inr hc)).1]
    · rw [(hwords _ (hd c (by simp [hc]))).2.1, (hsame c (Or.inr hc)).2]

theorem absorbNext_eq (H : h.HasLayout ⟨pre ++ b :: n :: post, lists⟩)
    (hv : Layout.IsValid ⟨pre ++ ⟨b.offset, b.size + n.size, b.used⟩ :: post, lists⟩ h.capacity) :
    h.absorbNext b.offset = (h.setSize b.offset (b.size + n.size) b.used).tieBehind
      (post.head?.map Block.offset) b.offset := by
  have hb : b ∈ pre ++ b :: n :: post := by simp
  have hn : n ∈ pre ++ b :: n :: post := by simp
  have hbehind : h.behind b.offset = some n.offset := H.behind_eq
  obtain ⟨-, -, hdvd, hpost⟩ := tiles_middle.mp hv.tiles
  have hword : (h.setSize b.offset (b.size + n.size) b.used).blockSize b.offset =
      b.size + n.size := by
    have hx := H.granule_dvd hb
    rw [blockSize, word_setSize hx hx, if_pos rfl,
      hv.tiles.header_lt (b := ⟨b.offset, b.size + n.size, b.used⟩) H.capacity_lt (by simp),
      sizeOfWord_header hdvd]
  have hmerged := behind_of_tiles hword hpost
  rw [absorbNext_of_behind hbehind, H.blockSize_eq hb, H.blockSize_eq hn, H.isUsed_eq hb, hmerged]

theorem absorbNext (H : h.HasLayout ⟨pre ++ b :: n :: post, lists⟩)
    (hb : ∀ d, b.offset ∉ lists d) (hn : ∀ d, n.offset ∉ lists d) :
    (h.absorbNext b.offset).HasLayout
      ⟨pre ++ ⟨b.offset, b.size + n.size, b.used⟩ :: post, lists⟩ := by
  have hv := Focus.isValid_join H.valid hb hn b.used
  have hx : granule ∣ b.offset := H.granule_dvd (by simp)
  rw [H.absorbNext_eq hv]
  refine HasLayout.tieBehind [b, n] [⟨b.offset, b.size + n.size, b.used⟩] H hv rfl rfl
    (fun y hy => ⟨prevFree_setSize hx hy, nextFree_setSize hx hy⟩) (fun c hc => ?_) ?_ rfl
  · have hy : granule ∣ c.offset := H.granule_dvd (by
      rcases hc with hc | hc <;> simp [hc])
    have hne := hv.tiles.offset_ne hc
    rw [word_setSize hx hy, before_setSize hx hy, if_neg (Ne.symm hne)]
    exact ⟨rfl, rfl⟩
  · refine ⟨?_, (before_setSize hx hx).trans H.before_eq, trivial⟩
    rw [word_setSize hx hx, if_pos rfl]
    exact hv.tiles.header_lt (b := ⟨b.offset, b.size + n.size, b.used⟩) H.capacity_lt (by simp) _

theorem agreeOff_absorbNext (H : h.HasLayout ⟨pre ++ b :: n :: post, lists⟩)
    (hb : ∀ d, b.offset ∉ lists d) (hn : ∀ d, n.offset ∉ lists d) :
    AgreeOff (pre ++ b :: n :: post) h (h.absorbNext b.offset) := by
  have hmem : b ∈ pre ++ b :: n :: post := by simp
  have hsize : granule ∣ b.size + n.size :=
    Nat.dvd_add (H.granule_dvd_size hmem) (H.granule_dvd_size (by simp))
  rw [H.absorbNext_eq (Focus.isValid_join H.valid hb hn b.used)]
  refine (AgreeOff.setSize hmem (H.granule_dvd hmem) hsize (H.isUsed_eq hmem).trans).trans
    (.tieBehind (fun a ha => ?_) fun _ hc => H.granule_dvd hc)
  obtain ⟨c, hc, rfl⟩ := Option.map_eq_some_iff.mp ha
  exact ⟨c, by simp [List.mem_of_head? hc], rfl⟩

theorem cutAt_eq (H : h.HasLayout f.layout) (hc : f.CanCut size) :
    h.cutAt f.block.offset size =
      (h.writeParts f.block.offset size (f.block.size - size) true).tieBehind
        (f.after.head?.map Block.offset) (f.block.offset + size) := by
  have hb : f.block ∈ f.layout.blocks := Focus.block_mem
  have hsub : wrappingSub wordLimit f.block.size size = f.block.size - size :=
    wrappingSub_eq (Nat.le_of_lt hc.lt) (H.size_lt hb)
  have hbehind : h.behind f.block.offset = f.after.head?.map Block.offset := H.behind_eq
  unfold Heap.cutAt
  rw [H.blockSize_eq hb, H.isUsed_eq hb, hc.used, hbehind, hsub]

theorem cutAt (H : h.HasLayout f.layout) (ho : f.IsOpen) (hc : f.CanCut size) :
    (h.cutAt f.block.offset size).HasLayout (f.rest size).layout := by
  have hb : f.block ∈ f.layout.blocks := Focus.block_mem
  have hx := H.granule_dvd hb
  have hwords : ∀ y, granule ∣ y → _ := fun y hy =>
    writeParts_words (h := h) (f.block.size - size) true hx (H.offset_lt hb) hc.dvd hy
  have hblocks : (f.rest size).layout =
      ⟨f.before.reverse ++ ([{ f.block with size }, (f.rest size).block] ++ f.after), f.lists⟩ := by
    simp [Focus.layout, Focus.blocks, Focus.rest]
  have hv := Focus.isValid_rest ho H.valid hc
  rw [hblocks] at hv
  have hfirst := hv.tiles.header_lt (b := { f.block with size }) H.capacity_lt (by simp) true
  have hsecond := hv.tiles.header_lt (b := (f.rest size).block) H.capacity_lt (by simp) false
  have hpos := hc.pos
  rw [H.cutAt_eq hc, hblocks]
  refine HasLayout.tieBehind [f.block] _ H hv (by simp) (by simp)
    (fun y hy => (hwords y hy).2.2) (fun c hmem => ?_) ⟨?_, ?_, ?_, ?_, trivial⟩ rfl
  · have hy : granule ∣ c.offset :=
      H.granule_dvd (Focus.mem_blocks.mpr (Or.inr (by simpa using hmem)))
    obtain ⟨hfront, hbehind⟩ : f.block.offset + size ≠ c.offset ∧ f.block.offset ≠ c.offset := by
      obtain ⟨hpre, -, -, hpost⟩ := tiles_middle.mp H.valid.tiles
      have hlt := hc.lt
      rcases hmem with hmem | hmem
      · have := hpre.bounds hmem
        omega
      · have := hpost.bounds hmem
        omega
    rw [(hwords _ hy).1, (hwords _ hy).2.1, if_neg hfront, if_neg hbehind, if_neg hfront]
    exact ⟨rfl, rfl⟩
  · have hne : f.block.offset + size ≠ f.block.offset := by omega
    rw [(hwords _ hx).1, if_neg hne, if_pos rfl, hc.used]
    exact hfirst
  · have hne : f.block.offset + size ≠ f.block.offset := by omega
    rw [(hwords _ hx).2.1, if_neg hne]
    exact H.before_eq
  · have hr := Nat.dvd_add hx hc.dvd
    exact (hwords _ hr).1.trans ((if_pos rfl).trans hsecond)
  · have hr := Nat.dvd_add hx hc.dvd
    exact (hwords _ hr).2.1.trans (if_pos rfl)

theorem agreeOff_cutAt (H : h.HasLayout f.layout) (ho : f.IsOpen) (hc : f.CanCut size) :
    AgreeOff (f.rest size).blocks h (h.cutAt f.block.offset size) := by
  have hv := Focus.isValid_rest ho H.valid hc
  have hd : ∀ b ∈ (f.rest size).blocks, granule ∣ b.offset := fun _ hb => hv.tiles.granule_dvd hb
  have hb : { f.block with size } ∈ (f.rest size).blocks :=
    Focus.mem_blocks.mpr (Or.inr (Or.inl List.mem_cons_self))
  have hr : (f.rest size).block ∈ (f.rest size).blocks := Focus.block_mem
  have hsize : granule ∣ f.block.size - size :=
    Nat.dvd_sub (H.granule_dvd_size Focus.block_mem) hc.dvd
  have hused : h.isUsed f.block.offset = true := (H.isUsed_eq Focus.block_mem).trans hc.used
  rw [H.cutAt_eq hc]
  refine AgreeOff.trans (((AgreeOff.setSize hb (hd _ hb) hc.dvd fun _ => hused).trans
    (.setSize hr (hd _ hr) hsize (by simp))).trans (.setBefore hr (hd _ hr)))
    (.tieBehind (fun a ha => ?_) hd)
  obtain ⟨c, hmem, rfl⟩ := Option.map_eq_some_iff.mp ha
  exact ⟨c, Focus.mem_blocks.mpr (Or.inr (Or.inr (List.mem_of_head? hmem))), rfl⟩

end HasLayout

end MemoryKit.Heap
