import MemoryKit.Proofs.Heap.Layout

/-! # Blocks in hand

The operations on a heap take a block in hand, which no free list holds meanwhile: they join it with
its free neighbours, cut it and list it. Described on layouts, releasing the block in hand settles
the layout and keeps all used blocks but that one.
-/

namespace MemoryKit.Heap

open SizeClass

/-- A layout with a block in hand. The blocks before it are given from the nearest one on. -/
structure Focus where
  before : List Block
  block : Block
  after : List Block
  lists : SizeClass → List Nat

namespace Focus

variable {f : Focus} {b u : Block} {capacity size i : Nat}

def blocks (f : Focus) : List Block := f.before.reverse ++ f.block :: f.after

def layout (f : Focus) : Layout := ⟨f.blocks, f.lists⟩

def mark (f : Focus) (used : Bool) : Focus := { f with block := { f.block with used } }

@[simp] theorem offset_mark (f : Focus) (used : Bool) :
    (f.mark used).block.offset = f.block.offset := rfl

def joinAfter (f : Focus) : Focus :=
  match f.after with
  | [] => f
  | n :: after =>
    if n.used then f
    else
      { f with
        block := { f.block with size := f.block.size + n.size }
        after
        lists := unlist f.lists n }

/-- Adds the block in hand to the one in front, if that is free, which is in hand from then on. -/
def joinBefore (f : Focus) : Focus :=
  match f.before with
  | [] => f
  | p :: before =>
    if p.used then f
    else
      { f with
        before
        block := { p with size := p.size + f.block.size }
        lists := unlist f.lists p }

def listed (f : Focus) : Layout := ⟨f.blocks, enlist f.lists f.block⟩

/-- Frees the block in hand, joins it with its free neighbours and lists it. -/
def release (f : Focus) : Layout := (f.mark false).joinAfter.joinBefore.listed

def rest (f : Focus) (size : Nat) : Focus :=
  { before := { f.block with size } :: f.before
    block := ⟨f.block.offset + size, f.block.size - size, false⟩
    after := f.after
    lists := f.lists }

def split (f : Focus) (size : Nat) : Layout :=
  if f.block.size - size < headerSize then f.layout else (f.rest size).release

theorem mem_blocks : b ∈ f.blocks ↔ b = f.block ∨ b ∈ f.before ∨ b ∈ f.after := by
  simp only [blocks, List.mem_append, List.mem_reverse, List.mem_cons]
  tauto

theorem block_mem : f.block ∈ f.blocks := mem_blocks.mpr (Or.inl rfl)

theorem exists_of_mem {L : Layout} (hb : b ∈ L.blocks) :
    ∃ f : Focus, f.block = b ∧ f.layout = L := by
  obtain ⟨pre, post, hL⟩ := List.append_of_mem hb
  refine ⟨⟨pre.reverse, b, post, L.lists⟩, rfl, ?_⟩
  simp [layout, blocks, ← hL]

theorem mem_others (hv : f.layout.IsValid capacity) :
    u ∈ f.before ∨ u ∈ f.after ↔ u ∈ f.blocks ∧ u ≠ f.block := by
  rw [mem_blocks]
  refine ⟨fun hu => ⟨Or.inr hu, fun he => ?_⟩, fun ⟨hu, hne⟩ => hu.resolve_left hne⟩
  rw [← List.mem_reverse] at hu
  exact hv.tiles.offset_ne hu (congrArg Block.offset he)

/-- The block in hand is in no list, and all else is settled. -/
structure IsOpen (f : Focus) : Prop where
  unlisted : ∀ d, f.block.offset ∉ f.lists d
  listed : ∀ b, b ∈ f.before ∨ b ∈ f.after → b.used = false → b.offset ∈ f.lists (ofSize b.size)
  merged_before : f.before.IsChain Block.NotBothFree
  merged_after : f.after.IsChain Block.NotBothFree

theorem isOpen_mark (h : f.IsOpen) (used : Bool) : (f.mark used).IsOpen := ⟨h.1, h.2, h.3, h.4⟩

theorem isChain_blocks : f.blocks.IsChain Block.NotBothFree ↔
    f.before.IsChain Block.NotBothFree ∧ f.after.IsChain Block.NotBothFree ∧
      (∀ p ∈ f.before.head?, p.NotBothFree f.block) ∧
      ∀ n ∈ f.after.head?, f.block.NotBothFree n := by
  have hflip : (fun b c : Block => c.NotBothFree b) = Block.NotBothFree := by
    funext b c
    exact propext ⟨Block.NotBothFree.symm, Block.NotBothFree.symm⟩
  simp only [blocks, List.isChain_append, List.isChain_reverse, List.isChain_cons,
    List.getLast?_reverse, List.head?_cons, Option.mem_some_iff, forall_eq', hflip]
  tauto

theorem isOpen_of_settled (hv : f.layout.IsValid capacity) (hs : f.layout.Settled)
    (hu : f.block.used = true) : f.IsOpen := by
  obtain ⟨hbefore, hafter, -, -⟩ := isChain_blocks.mp hs.merged
  exact ⟨hv.unlisted_of_used block_mem hu,
    fun b hb => hs.listed b (mem_blocks.mpr (Or.inr hb)), hbefore, hafter⟩

theorem settled_of_isOpen (h : f.IsOpen) (hu : f.block.used = true) : f.layout.Settled where
  listed b hb hfree := by
    rcases mem_blocks.mp hb with rfl | hb
    · rw [hu] at hfree
      cases hfree
    · exact h.listed b hb hfree
  merged := isChain_blocks.mpr ⟨h.merged_before, h.merged_after,
    fun _ _ => Or.inr hu, fun _ _ => Or.inl hu⟩

theorem isOpen_unlist (hv : f.layout.IsValid capacity) (hs : f.layout.Settled) :
    IsOpen { f with lists := unlist f.lists f.block } := by
  obtain ⟨hbefore, hafter, -, -⟩ := isChain_blocks.mp hs.merged
  refine ⟨hv.unlisted_unlist block_mem, fun b hb hfree => ?_, hbefore, hafter⟩
  have hmem : b ∈ f.blocks := mem_blocks.mpr (Or.inr hb)
  rw [← List.mem_reverse] at hb
  exact mem_unlist_of_ne (hs.listed b hmem hfree) (hv.tiles.offset_ne hb)

theorem isValid_mark (ho : f.IsOpen) (hv : f.layout.IsValid capacity) (used : Bool) :
    (f.mark used).layout.IsValid capacity :=
  Layout.IsValid.replace [f.block] [{ f.block with used }] hv (fun _ _ ht => ht)
    (by simpa [mark] using ho.unlisted)

theorem isValid_join {pre post : List Block} {lists : SizeClass → List Nat} {n : Block}
    (hv : Layout.IsValid ⟨pre ++ b :: n :: post, lists⟩ capacity)
    (hb : ∀ d, b.offset ∉ lists d) (hn : ∀ d, n.offset ∉ lists d) (used : Bool) :
    Layout.IsValid ⟨pre ++ ⟨b.offset, b.size + n.size, used⟩ :: post, lists⟩ capacity := by
  refine Layout.IsValid.replace [b, n] [⟨b.offset, b.size + n.size, used⟩] hv ?_ ?_
  · rintro start stop ⟨hb, hpos, hdvd, -, -, hdvd', hstop⟩
    exact ⟨hb, by dsimp only; omega, Nat.dvd_add hdvd hdvd', by simpa [Nat.add_assoc] using hstop⟩
  · simpa using ⟨hb, hn⟩

theorem joinAfter_cons {n : Block} {after : List Block} (ha : f.after = n :: after)
    (hn : n.used = false) : f.joinAfter =
      { f with
        block := { f.block with size := f.block.size + n.size }
        after
        lists := unlist f.lists n } := by
  simp [joinAfter, ha, hn]

theorem joinBefore_cons {p : Block} {before : List Block} (hb : f.before = p :: before)
    (hp : p.used = false) : f.joinBefore =
      { f with
        before
        block := { p with size := p.size + f.block.size }
        lists := unlist f.lists p } := by
  simp [joinBefore, hb, hp]

theorem joinAfter_cases (f : Focus) : f.joinAfter = f ∧ (∀ n ∈ f.after.head?, n.used = true) ∨
    ∃ n after, f.after = n :: after ∧ n.used = false := by
  unfold joinAfter
  split
  · next ha => exact Or.inl ⟨rfl, by simp [ha]⟩
  · next n after ha =>
    split
    · next hn => exact Or.inl ⟨rfl, by simp [ha, hn]⟩
    · next hn => exact Or.inr ⟨n, after, ha, by simpa using hn⟩

theorem joinBefore_cases (f : Focus) :
    f.joinBefore = f ∧ (∀ p ∈ f.before.head?, p.used = true) ∨
      ∃ p before, f.before = p :: before ∧ p.used = false := by
  unfold joinBefore
  split
  · next hb => exact Or.inl ⟨rfl, by simp [hb]⟩
  · next p before hb =>
    split
    · next hp => exact Or.inl ⟨rfl, by simp [hb, hp]⟩
    · next hp => exact Or.inr ⟨p, before, hb, by simpa using hp⟩

theorem blocks_of_after {n : Block} {after : List Block} (ha : f.after = n :: after) :
    f.blocks = (f.before.reverse ++ [f.block]) ++ n :: after := by
  simp [blocks, ha]

theorem blocks_of_before {p : Block} {before : List Block} (hb : f.before = p :: before) :
    f.blocks = before.reverse ++ p :: f.block :: f.after := by
  simp [blocks, hb]

theorem isValid_joinAfter (ho : f.IsOpen) (hv : f.layout.IsValid capacity) :
    f.joinAfter.layout.IsValid capacity := by
  rcases f.joinAfter_cases with ⟨he, -⟩ | ⟨n, after, ha, hn⟩
  · rwa [he]
  · have hmem : n ∈ f.blocks := mem_blocks.mpr (by simp [ha])
    have hv' := hv.unlist n
    simp only [blocks, ha] at hv'
    rw [joinAfter_cons ha hn]
    exact isValid_join hv' (fun d hd => ho.unlisted d (mem_unlist_of_mem hd))
      (hv.unlisted_unlist hmem) f.block.used

theorem isOpen_joinAfter (ho : f.IsOpen) (hv : f.layout.IsValid capacity) :
    f.joinAfter.IsOpen := by
  rcases f.joinAfter_cases with ⟨he, -⟩ | ⟨n, after, ha, hn⟩
  · rwa [he]
  · have ht := hv.tiles
    simp only [layout, blocks_of_after ha] at ht
    have hma := ho.merged_after
    rw [ha, List.isChain_cons] at hma
    rw [joinAfter_cons ha hn]
    refine ⟨fun d hd => ho.unlisted d (mem_unlist_of_mem hd), fun b hb hfree => ?_,
      ho.merged_before, hma.2⟩
    have hl := ho.listed b (hb.imp_right fun hb => ha ▸ List.mem_cons_of_mem n hb) hfree
    refine mem_unlist_of_ne hl (ht.offset_ne (hb.imp_left fun hb => ?_))
    simpa using Or.inl hb

theorem isOpen_joinBefore (ho : f.IsOpen) (hv : f.layout.IsValid capacity) :
    f.joinBefore.IsOpen := by
  rcases f.joinBefore_cases with ⟨he, -⟩ | ⟨p, before, hb, hp⟩
  · rwa [he]
  · have ht := hv.tiles
    simp only [layout, blocks_of_before hb] at ht
    have hmem : p ∈ f.blocks := mem_blocks.mpr (by simp [hb])
    have hmb := ho.merged_before
    rw [hb, List.isChain_cons] at hmb
    rw [joinBefore_cons hb hp]
    refine ⟨hv.unlisted_unlist hmem, fun b hb' hfree => ?_, hmb.2, ho.merged_after⟩
    have hl := ho.listed b (hb'.imp_left fun hb' => hb ▸ List.mem_cons_of_mem p hb') hfree
    refine mem_unlist_of_ne hl (ht.offset_ne ?_)
    exact hb'.imp (fun hb' => List.mem_reverse.mpr hb') (List.mem_cons_of_mem f.block)

@[simp] theorem before_joinAfter (f : Focus) : f.joinAfter.before = f.before := by
  rcases f.joinAfter_cases with ⟨he, -⟩ | ⟨n, after, ha, hn⟩
  · rw [he]
  · rw [joinAfter_cons ha hn]

@[simp] theorem after_joinBefore (f : Focus) : f.joinBefore.after = f.after := by
  rcases f.joinBefore_cases with ⟨he, -⟩ | ⟨p, before, hb, hp⟩
  · rw [he]
  · rw [joinBefore_cons hb hp]

@[simp] theorem used_joinAfter (f : Focus) : f.joinAfter.block.used = f.block.used := by
  rcases f.joinAfter_cases with ⟨he, -⟩ | ⟨n, after, ha, hn⟩
  · rw [he]
  · rw [joinAfter_cons ha hn]

@[simp] theorem offset_joinAfter (f : Focus) : f.joinAfter.block.offset = f.block.offset := by
  rcases f.joinAfter_cases with ⟨he, -⟩ | ⟨n, after, ha, hn⟩
  · rw [he]
  · rw [joinAfter_cons ha hn]

theorem used_joinBefore (hf : f.block.used = false) : f.joinBefore.block.used = false := by
  rcases f.joinBefore_cases with ⟨he, -⟩ | ⟨p, before, hb, hp⟩
  · rwa [he]
  · rwa [joinBefore_cons hb hp]

/-- A free neighbour behind has been joined, so the next one is used. -/
theorem used_of_joinAfter (ho : f.IsOpen) {n : Block} (hn : n ∈ f.joinAfter.after.head?) :
    n.used = true := by
  rcases f.joinAfter_cases with ⟨he, hused⟩ | ⟨m, after, ha, hm⟩
  · rw [he] at hn
    exact hused n hn
  · have hma := ho.merged_after
    rw [ha, List.isChain_cons] at hma
    rw [joinAfter_cons ha hm] at hn
    exact (hma.1 n hn).resolve_left (by simp [hm])

theorem used_of_joinBefore (ho : f.IsOpen) {p : Block} (hp : p ∈ f.joinBefore.before.head?) :
    p.used = true := by
  rcases f.joinBefore_cases with ⟨he, hused⟩ | ⟨m, before, hb, hm⟩
  · rw [he] at hp
    exact hused p hp
  · have hmb := ho.merged_before
    rw [hb, List.isChain_cons] at hmb
    rw [joinBefore_cons hb hm] at hp
    exact (hmb.1 p hp).resolve_left (by simp [hm])

theorem mem_after_joinAfter (hu : u.used = true) : u ∈ f.joinAfter.after ↔ u ∈ f.after := by
  rcases f.joinAfter_cases with ⟨he, -⟩ | ⟨n, after, ha, hn⟩
  · rw [he]
  · have hne : u ≠ n := fun he => by simp [he, hn] at hu
    simp [joinAfter_cons ha hn, ha, hne]

theorem mem_before_joinBefore (hu : u.used = true) : u ∈ f.joinBefore.before ↔ u ∈ f.before := by
  rcases f.joinBefore_cases with ⟨he, -⟩ | ⟨p, before, hb, hp⟩
  · rw [he]
  · have hne : u ≠ p := fun he => by simp [he, hp] at hu
    simp [joinBefore_cons hb hp, hb, hne]

theorem inLinks_joinAfter (h : InLinks f.joinAfter.blocks i) : InLinks f.blocks i := by
  rcases f.joinAfter_cases with ⟨he, -⟩ | ⟨n, after, ha, hn⟩
  · rwa [he] at h
  · obtain ⟨b, hb, hlo, hhi⟩ := h
    rw [joinAfter_cons ha hn] at hb
    rcases mem_blocks.mp hb with rfl | hb
    · exact ⟨f.block, block_mem, hlo, hhi⟩
    · exact ⟨b, mem_blocks.mpr (Or.inr (hb.imp_right fun hb => ha ▸ List.mem_cons_of_mem n hb)),
        hlo, hhi⟩

theorem inLinks_joinBefore (h : InLinks f.joinBefore.blocks i) : InLinks f.blocks i := by
  rcases f.joinBefore_cases with ⟨he, -⟩ | ⟨p, before, hb, hp⟩
  · rwa [he] at h
  · obtain ⟨b, hb', hlo, hhi⟩ := h
    rw [joinBefore_cons hb hp] at hb'
    rcases mem_blocks.mp hb' with rfl | hb'
    · exact ⟨p, mem_blocks.mpr (by simp [hb]), hlo, hhi⟩
    · exact ⟨b, mem_blocks.mpr (Or.inr (hb'.imp_left fun hb' => hb ▸ List.mem_cons_of_mem p hb')),
        hlo, hhi⟩

theorem settled_listed (ho : f.IsOpen) (hbefore : ∀ p ∈ f.before.head?, p.used = true)
    (hafter : ∀ n ∈ f.after.head?, n.used = true) : f.listed.Settled where
  listed b hb hfree := by
    refine mem_enlist.mpr ?_
    rcases mem_blocks.mp hb with rfl | hb
    · exact Or.inr ⟨rfl, rfl⟩
    · exact Or.inl (ho.listed b hb hfree)
  merged := isChain_blocks.mpr ⟨ho.merged_before, ho.merged_after,
    fun p hp => Or.inl (hbefore p hp), fun n hn => Or.inr (hafter n hn)⟩

def joined (f : Focus) : Focus := (f.mark false).joinAfter.joinBefore

theorem isOpen_joined (ho : f.IsOpen) (hv : f.layout.IsValid capacity) : f.joined.IsOpen :=
  have hv' := isValid_mark ho hv false
  isOpen_joinBefore (isOpen_joinAfter (isOpen_mark ho false) hv')
    (isValid_joinAfter (isOpen_mark ho false) hv')

theorem used_joined (f : Focus) : f.joined.block.used = false :=
  used_joinBefore (used_joinAfter (f.mark false))

theorem settled_release (ho : f.IsOpen) (hv : f.layout.IsValid capacity) : f.release.Settled := by
  have ho' := isOpen_mark ho false
  have hv' := isValid_mark ho hv false
  refine settled_listed (isOpen_joined ho hv) (fun p hp => ?_) (fun n hn => ?_)
  · exact used_of_joinBefore (isOpen_joinAfter ho' hv') hp
  · change n ∈ (f.mark false).joinAfter.joinBefore.after.head? at hn
    rw [after_joinBefore] at hn
    exact used_of_joinAfter ho' hn

theorem mem_release (hu : u.used = true) :
    u ∈ f.release.blocks ↔ u ∈ f.before ∨ u ∈ f.after := by
  have hne : u ≠ f.joined.block := fun he => by simp [he, used_joined] at hu
  have h : u ∈ f.release.blocks ↔ u ∈ f.joined.before ∨ u ∈ f.joined.after :=
    mem_blocks.trans (or_iff_right hne)
  rw [h, joined, after_joinBefore, mem_before_joinBefore hu, before_joinAfter,
    mem_after_joinAfter hu]
  rfl

theorem inData_release (h : InData f.release.blocks i) : InData f.blocks i := by
  obtain ⟨u, hmem, hu, hi⟩ := h
  exact ⟨u, mem_blocks.mpr (Or.inr ((mem_release hu).mp hmem)), hu, hi⟩

structure CanCut (f : Focus) (size : Nat) : Prop where
  used : f.block.used = true
  pos : 0 < size
  dvd : granule ∣ size
  lt : size < f.block.size

theorem isOpen_rest (ho : f.IsOpen) (hv : f.layout.IsValid capacity) (hc : f.CanCut size) :
    (f.rest size).IsOpen := by
  have hb := hv.tiles.bounds block_mem
  refine ⟨fun d hd => ?_, fun b hb' hfree => ?_, ?_, ho.merged_after⟩
  · obtain ⟨b, hmem, he, -, -⟩ := hv.listed d _ hd
    have := hc.lt
    have := hc.pos
    have hb' := hv.tiles.bounds hmem
    dsimp only [rest] at he
    rcases hv.tiles.apart hmem block_mem with rfl | hap | hap <;> omega
  · refine ho.listed b (hb'.imp_left fun hb' => ?_) hfree
    rcases List.mem_cons.mp hb' with rfl | hb'
    · exact absurd hc.used (Bool.eq_false_iff.mp hfree)
    · exact hb'
  · exact List.isChain_cons.mpr ⟨fun _ _ => Or.inl hc.used, ho.merged_before⟩

theorem isValid_rest (ho : f.IsOpen) (hv : f.layout.IsValid capacity) (hc : f.CanCut size) :
    (f.rest size).layout.IsValid capacity := by
  have hlt := hc.lt
  have h := Layout.IsValid.replace [f.block]
    [{ f.block with size }, ⟨f.block.offset + size, f.block.size - size, false⟩] hv ?_
    (by simpa using ho.unlisted)
  · simpa [layout, blocks, rest] using h
  · rintro start stop ⟨rfl, -, hdvd, rfl⟩
    refine ⟨rfl, hc.pos, hc.dvd, rfl, ?_, Nat.dvd_sub hdvd hc.dvd, ?_⟩
    · dsimp only
      omega
    · change _ + _ = _
      dsimp only
      omega

theorem canCut_of_ge (hu : f.block.used = true) (hpos : 0 < size) (hdvd : granule ∣ size)
    (h : ¬ f.block.size - size < headerSize) : f.CanCut size :=
  ⟨hu, hpos, hdvd, by unfold headerSize at h; omega⟩

theorem settled_split (ho : f.IsOpen) (hv : f.layout.IsValid capacity)
    (hu : f.block.used = true) (hpos : 0 < size) (hdvd : granule ∣ size) :
    (f.split size).Settled := by
  unfold split
  split
  · exact settled_of_isOpen ho hu
  · next h =>
    have hc := canCut_of_ge hu hpos hdvd h
    exact settled_release (isOpen_rest ho hv hc) (isValid_rest ho hv hc)

/-- The size of the block in hand after it was cut to a size, if the rest could be a block. -/
def sizeAfter (f : Focus) (size : Nat) : Nat :=
  if f.block.size - size < headerSize then f.block.size else size

theorem mem_split (hu : u.used = true) :
    u ∈ (f.split size).blocks ↔
      u = { f.block with size := f.sizeAfter size } ∨ u ∈ f.before ∨ u ∈ f.after := by
  unfold split sizeAfter
  split
  · exact mem_blocks
  · rw [mem_release hu]
    simp only [rest, List.mem_cons, or_assoc]

end Focus

end MemoryKit.Heap
