import MemoryKit.Proofs.Heap.Headers

/-! # Trading blocks

Every operation takes a heap with a settled layout to another one. A used block may have gone and a
new one may have come; all other used blocks stay, and so do the bytes of what is data before and
afterwards. Headers of used blocks that are none any more may lie about in the data. They come from
such headers only, and lead where those led, unless the new block puts its link there. Operations
that follow each other on a new block trade as one.
-/

namespace MemoryKit.Heap

variable {h h' h'' : Heap} {L L' L'' : Layout} {b c u : Block} {gone gone' new : Option Block}

/-- A granule reads as the header of a used block, though no such block begins there. -/
structure IsStale (h : Heap) (L : Layout) (y : Nat) : Prop where
  lt_capacity : y < h.capacity
  granule_dvd : granule ∣ y
  marked : h.isUsed y = true
  ne : ∀ b ∈ L.blocks, b.used = true → b.offset ≠ y

/-- Stale headers were there before, and lead to the same data. -/
def KeepsStale (h : Heap) (L : Layout) (h' : Heap) (L' : Layout) : Prop :=
  ∀ y, h'.IsStale L' y → h.IsStale L y ∧ h'.user y = h.user y

/--
A stale header leads where one led before. If not, it lies in front of the data of the new block and
took in the link to it.
-/
def InheritsStale (h : Heap) (L : Layout) (h' : Heap) (L' : Layout) (new : Option Block) : Prop :=
  ∀ y, h'.IsStale L' y → ∃ x, h.IsStale L x ∧
    (h'.user y = h.user x ∨
      ∃ c ∈ new, y + granule = h'.user c.offset ∧ h'.user y = c.offset)

/-- The heap goes from one layout to another: one used block may have gone, one may be new. -/
structure Trades (h : Heap) (L : Layout) (h' : Heap) (L' : Layout) (gone new : Option Block) :
    Prop where
  layout : h'.HasLayout L'
  settled : L'.Settled
  capacity : h'.capacity = h.capacity
  used : ∀ u : Block, u.used = true → (u ∈ L'.blocks ↔ u ∈ L.blocks ∧ u ∉ gone ∨ u ∈ new)
  fresh : ∀ u ∈ new, u.used = true ∧ (u ∈ L.blocks → u ∈ gone)
  kept : ∀ i, InData L.blocks i → InData L'.blocks i → h'.memory.byte i = h.memory.byte i
  stale : InheritsStale h L h' L' new

theorem isUsed_iff (h : Heap) (y : Nat) :
    h.isUsed y = true ↔ (h.memory.byte y).toNat % 2 = 1 := by
  simp only [isUsed, isUsedWord, word, Memory.word, beq_iff_eq]
  omega

/-- No block begins inside of the data of a used one, so that what looks as if one did is stale. -/
theorem HasLayout.isStale_of_inData (H : h.HasLayout L) {y : Nat} (hy : granule ∣ y)
    (hi : InData L.blocks y) (hu : h.isUsed y = true) : h.IsStale L y := by
  obtain ⟨u, hmem, hused, hlo, hhi⟩ := hi
  have hend := (H.valid.tiles.bounds hmem).2.1
  refine ⟨by omega, hy, hu, ?_⟩
  rintro c hc - rfl
  have hpos := (H.valid.tiles.bounds hc).2.2.1
  rcases H.valid.tiles.apart hmem hc with rfl | hap | hap <;> omega

/-- A byte that looks like the header of a used block was not written, if those written do not. -/
theorem IsStale.of_memory {m : Memory} {y : Nat} (hy : IsStale { h with memory := m } L y)
    (hm : m.byte y = h.memory.byte y ∨ (m.byte y).toNat % 2 = 0) : h.IsStale L y := by
  have hodd : (m.byte y).toNat % 2 = 1 := (isUsed_iff _ y).mp hy.marked
  refine ⟨hy.lt_capacity, hy.granule_dvd, (isUsed_iff h y).mpr ?_, hy.ne⟩
  rcases hm with he | he
  · rwa [← he]
  · omega

theorem KeepsStale.refl (h : Heap) (L : Layout) : KeepsStale h L h L := fun _ hy => ⟨hy, rfl⟩

theorem KeepsStale.inherits (hs : KeepsStale h L h' L') (new : Option Block) :
    InheritsStale h L h' L' new := fun y hy => ⟨y, (hs y hy).1, .inl (hs y hy).2⟩

theorem KeepsStale.of_marks (hcap : h'.capacity = h.capacity)
    (hused : ∀ u : Block, u.used = true → (u ∈ L'.blocks ↔ u ∈ L.blocks ∧ u ∉ gone ∨ u ∈ new))
    (hnew : ∀ u ∈ new, u.used = true)
    (hmarks : ∀ y, granule ∣ y → (∀ c ∈ new, c.offset ≠ y) → h'.isUsed y = true →
      (h.isUsed y = true ∧ h'.user y = h.user y) ∧ ∀ b ∈ gone, b.offset ≠ y) :
    KeepsStale h L h' L' := by
  intro y hy
  obtain ⟨⟨hu, huser⟩, hgone⟩ := hmarks y hy.granule_dvd
    (fun c hc => hy.ne c ((hused c (hnew c hc)).mpr (.inr hc)) (hnew c hc)) hy.marked
  refine ⟨⟨hcap ▸ hy.lt_capacity, hy.granule_dvd, hu, fun b hb hub he => ?_⟩, huser⟩
  exact hy.ne b ((hused b hub).mpr (.inl ⟨hb, fun hg => hgone b hg he⟩)) hub he

theorem KeepsStale.of_marks_same (hcap : h'.capacity = h.capacity)
    (hused : ∀ u : Block, u.used = true →
      (u ∈ L'.blocks ↔ u ∈ L.blocks ∧ u ∉ some b ∨ u ∈ some c))
    (hu : c.used = true) (ho : c.offset = b.offset) (hmarks : AddsNoMarks h h') :
    KeepsStale h L h' L' := by
  refine .of_marks hcap hused (by simpa using hu) fun y hy hne hu => ⟨hmarks y hy hu, ?_⟩
  rintro b' hb'
  obtain rfl := Option.some.inj hb'
  exact ho ▸ hne c rfl

theorem Trades.refl (H : h.HasLayout L) (hs : L.Settled) (hb : b ∈ L.blocks)
    (hu : b.used = true) : Trades h L h L (some b) (some b) where
  layout := H
  settled := hs
  capacity := rfl
  used u _ := by
    by_cases he : b = u
    · simp [← he, hb]
    · simp [he]
  fresh u hu := by
    obtain rfl : b = u := Option.some.inj hu
    exact ⟨‹_›, fun _ => rfl⟩
  kept _ _ _ := rfl
  stale := (KeepsStale.refl h L).inherits _

theorem Trades.same (H : h.HasLayout L) (hs : L.Settled) : Trades h L h L none none where
  layout := H
  settled := hs
  capacity := rfl
  used u _ := by simp
  fresh u hu := by simp at hu
  kept _ _ _ := rfl
  stale := (KeepsStale.refl h L).inherits _

theorem fresh_of_offset_eq {c : Block} (hv : L.IsValid h.capacity) (hb : b ∈ L.blocks)
    (hc : c.used = true) (ho : c.offset = b.offset) :
    ∀ u ∈ some c, u.used = true ∧ (u ∈ L.blocks → u ∈ some b) := by
  rintro u hu
  obtain rfl : c = u := Option.some.inj hu
  exact ⟨hc, fun hmem => congrArg some (hv.tiles.eq_of_offset_eq hb hmem ho.symm)⟩

namespace Trades

theorem mem_of_mem (T : Trades h L h' L' gone new) (hu : u.used = true) (hmem : u ∈ L.blocks)
    (hgone : u ∉ gone) : u ∈ L'.blocks :=
  (T.used u hu).mpr (Or.inl ⟨hmem, hgone⟩)

theorem new_mem (T : Trades h L h' L' gone (some b)) : b ∈ L'.blocks :=
  (T.used b (T.fresh b rfl).1).mpr (Or.inr rfl)

theorem apart_new (T : Trades h L h' L' gone (some b)) (hu : u.used = true) (hmem : u ∈ L.blocks)
    (hgone : u ∉ gone) :
    u.offset + u.size ≤ b.offset ∨ b.offset + b.size ≤ u.offset := by
  have hne : u ≠ b := fun he => hgone (he ▸ (T.fresh b rfl).2 (he ▸ hmem))
  exact (T.layout.valid.tiles.apart (T.mem_of_mem hu hmem hgone) T.new_mem).resolve_left hne

theorem word_eq_of_offset_eq (T : Trades h L h' L' gone new) (hb : b ∈ L.blocks)
    (hu : b.used = true) (hle : headerSize ≤ b.size) (hc : c ∈ L'.blocks) (hu' : c.used = true)
    (ho : c.offset = b.offset) {f : Nat} (hlo : 8 ≤ f) (hhi : f + 4 ≤ headerSize) :
    h'.word (b.offset + f) = h.word (b.offset + f) := by
  have hle' := T.layout.headerSize_le hc
  exact Memory.word_congr fun i hlo' hhi' =>
    T.kept i ⟨b, hb, hu, by omega, by omega⟩ ⟨c, hc, hu', by omega, by omega⟩

theorem write (T : Trades h L h' L' none (some b)) {m : Memory}
    (hm : ∀ i, i < b.offset + 8 ∨ b.offset + b.size ≤ i → m.byte i = h'.memory.byte i)
    (hstale : InheritsStale h L { h' with memory := m } L' (some b)) :
    Trades h L { h' with memory := m } L' none (some b) where
  layout := T.layout.of_memory fun i hi => hm i <| by
    by_contra hcon
    exact T.layout.valid.tiles.not_inLinks
      ⟨b, T.new_mem, (T.fresh b rfl).1, by omega, by omega⟩ hi
  settled := T.settled
  capacity := T.capacity
  used := T.used
  fresh := T.fresh
  kept i hi hi' := by
    refine (hm i ?_).trans (T.kept i hi hi')
    obtain ⟨u, hmem, hu, hlo, hhi⟩ := hi
    have := T.apart_new hu hmem (by simp)
    omega
  stale := hstale

theorem kept_trans (T : Trades h L h' L' none new) (T' : Trades h' L' h'' L'' gone gone') (i : Nat)
    (hi : InData L.blocks i) (hi' : InData L''.blocks i) :
    h''.memory.byte i = h.memory.byte i := by
  have hmid : InData L'.blocks i := by
    obtain ⟨u, hmem, hu, hrange⟩ := hi
    exact ⟨u, T.mem_of_mem hu hmem (by simp), hu, hrange⟩
  exact (T'.kept i hmid hi').trans (T.kept i hi hmid)

theorem not_mem_of_new (T : Trades h L h' L' none (some b)) : b ∉ L.blocks := fun hmem => by
  simpa using (T.fresh b rfl).2 hmem

theorem trans_cut (T : Trades h L h' L' none (some b))
    (T' : Trades h' L' h'' L'' (some b) (some c)) (hs : KeepsStale h' L' h'' L'')
    (ho : c.offset = b.offset) : Trades h L h'' L'' none (some c) where
  layout := T'.layout
  settled := T'.settled
  capacity := T'.capacity.trans T.capacity
  used u hu := by
    have hb : u ∈ L.blocks → b ≠ u := fun hmem he => T.not_mem_of_new (he ▸ hmem)
    rw [T'.used u hu, T.used u hu]
    simp only [Option.mem_def, Option.some.injEq, reduceCtorEq, not_false_eq_true, and_true]
    tauto
  fresh u hu := by
    obtain rfl : c = u := Option.some.inj hu
    refine ⟨(T'.fresh c rfl).1, fun hmem => ?_⟩
    have hmid := T.mem_of_mem (T'.fresh c rfl).1 hmem (by simp)
    obtain rfl : b = c := Option.some.inj ((T'.fresh c rfl).2 hmid)
    exact absurd hmem T.not_mem_of_new
  kept := T.kept_trans T'
  stale y hy := by
    have huser := T'.word_eq_of_offset_eq T.new_mem (T.fresh b rfl).1
      (T.layout.headerSize_le T.new_mem) T'.new_mem (T'.fresh c rfl).1 ho
      (show 8 ≤ nextField by decide) (by decide)
    obtain ⟨hy', he⟩ := hs y hy
    obtain ⟨x, hx, hsame | ⟨d, hd, hfront, hlink⟩⟩ := T.stale y hy'
    · exact ⟨x, hx, .inl (he.trans hsame)⟩
    · obtain rfl : b = d := Option.some.inj hd
      refine ⟨x, hx, .inr ⟨c, rfl, ?_, ?_⟩⟩
      · rw [ho, hfront]
        exact huser.symm
      · rw [ho, he, hlink]

theorem trans_free (T : Trades h L h' L' none (some c)) (T' : Trades h' L' h'' L'' (some b) none)
    (hb : b ∈ L.blocks) (hs : KeepsStale h' L' h'' L'') :
    Trades h L h'' L'' (some b) (some c) where
  layout := T'.layout
  settled := T'.settled
  capacity := T'.capacity.trans T.capacity
  used u hu := by
    have hc : b ≠ c := fun he => T.not_mem_of_new (he ▸ hb)
    rw [T'.used u hu, T.used u hu]
    by_cases he : c = u
    · simp [← he, hc]
    · simp [he]
  fresh u hu := by
    obtain rfl : c = u := Option.some.inj hu
    exact ⟨(T.fresh c rfl).1, fun hmem => absurd hmem T.not_mem_of_new⟩
  kept := T.kept_trans T'
  stale y hy := by
    have hu := (T.fresh c rfl).1
    have hc : c ∉ some b := fun he => T.not_mem_of_new (Option.some.inj he ▸ hb)
    have huser := T'.word_eq_of_offset_eq T.new_mem hu (T.layout.headerSize_le T.new_mem)
      (T'.mem_of_mem hu T.new_mem hc) hu rfl (show 8 ≤ nextField by decide) (by decide)
    obtain ⟨hy', he⟩ := hs y hy
    obtain ⟨x, hx, hsame | ⟨d, hd, hfront, hlink⟩⟩ := T.stale y hy'
    · exact ⟨x, hx, .inl (he.trans hsame)⟩
    · obtain rfl : c = d := Option.some.inj hd
      exact ⟨x, hx, .inr ⟨c, rfl, hfront.trans huser.symm, he.trans hlink⟩⟩

end Trades

end MemoryKit.Heap
