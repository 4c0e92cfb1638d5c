import MemoryKit.Proofs.Heap.Boundaries
import MemoryKit.Proofs.Heap.FreeLists

/-! # Releasing and cutting in memory

The heap joins, lists and cuts a block as the layout with that block in hand does. What is data of a
used block afterwards keeps its bytes.
-/

namespace MemoryKit.Heap

open SizeClass

variable {h : Heap} {f : Focus} {b n : Block} {size : Nat}

def joinAfter (h : Heap) (x : Nat) : Heap :=
  match h.behind x with
  | some next => if h.isUsed next then h else (h.extractFree next).absorbNext x
  | none => h

def joinBefore (h : Heap) (x : Nat) : Heap × Nat :=
  match h.before x with
  | some prev => if h.isUsed prev then (h, x) else ((h.extractFree prev).absorbNext prev, prev)
  | none => (h, x)

def insertJoined (r : Heap × Nat) : Heap := r.1.insertFree r.2

theorem insertJoined_joinBefore (h : Heap) (x : Nat) : insertJoined (h.joinBefore x) =
    match h.before x with
    | some prev =>
      if h.isUsed prev then h.insertFree x
      else ((h.extractFree prev).absorbNext prev).insertFree prev
    | none => h.insertFree x := by
  unfold joinBefore
  cases h.before x with
  | none => rfl
  | some prev => cases hu : h.isUsed prev <;> simp [hu, insertJoined]

theorem release_eq (h : Heap) (x : Nat) :
    h.release x = insertJoined (((h.mark x false).joinAfter x).joinBefore x) := by
  rw [insertJoined_joinBefore]
  rfl

namespace HasLayout

theorem extractJoin {pre post : List Block} {lists : SizeClass → List Nat} {m : Block}
    (H : h.HasLayout ⟨pre ++ b :: n :: post, lists⟩) (hm : m ∈ pre ++ b :: n :: post)
    (hl : m.offset ∈ lists (ofSize m.size)) (hb : ∀ d, b.offset ∉ unlist lists m d)
    (hn : ∀ d, n.offset ∉ unlist lists m d) :
    ((h.extractFree m.offset).absorbNext b.offset).HasLayout
        ⟨pre ++ ⟨b.offset, b.size + n.size, b.used⟩ :: post, unlist lists m⟩ ∧
      AgreeOff (pre ++ b :: n :: post) h ((h.extractFree m.offset).absorbNext b.offset) := by
  have H' := H.extractFree hm hl
  exact ⟨H'.absorbNext hb hn, (H.agreeOff_extractFree hm hl).trans (H'.agreeOff_absorbNext hb hn)⟩

theorem joinAfter (H : h.HasLayout f.layout) (ho : f.IsOpen) :
    (h.joinAfter f.block.offset).HasLayout f.joinAfter.layout ∧
      AgreeOff f.blocks h (h.joinAfter f.block.offset) := by
  have hbehind : h.behind f.block.offset = f.after.head?.map Block.offset := H.behind_eq
  rcases f.joinAfter_cases with ⟨he, hused⟩ | ⟨n, after, ha, hn⟩
  · have hstop : h.joinAfter f.block.offset = h := by
      unfold Heap.joinAfter
      rw [hbehind]
      cases hhead : f.after.head? with
      | none => rfl
      | some n =>
        have hmem : n ∈ f.layout.blocks :=
          Focus.mem_blocks.mpr (Or.inr (Or.inr (List.mem_of_head? hhead)))
        simp only [Option.map_some, H.isUsed_eq hmem, hused n hhead, if_true]
    rw [hstop, he]
    exact ⟨H, .refl _ _⟩
  · have hmem : n ∈ f.layout.blocks := Focus.mem_blocks.mpr (by simp [ha])
    have hjoin : h.joinAfter f.block.offset =
        (h.extractFree n.offset).absorbNext f.block.offset := by
      simp [Heap.joinAfter, hbehind, ha, H.isUsed_eq hmem, hn]
    have hblocks : f.blocks = f.before.reverse ++ f.block :: n :: after := by
      simp [Focus.blocks, ha]
    have hout := H.valid.unlisted_unlist hmem
    rw [hjoin, Focus.joinAfter_cons ha hn]
    unfold Focus.layout at H hmem
    rw [hblocks] at H hmem ⊢
    exact H.extractJoin hmem (ho.listed n (Or.inr (by simp [ha])) hn)
      (fun d hd => ho.unlisted d (mem_unlist_of_mem hd)) hout

theorem joinBefore (H : h.HasLayout f.layout) (ho : f.IsOpen) :
    (h.joinBefore f.block.offset).1.HasLayout f.joinBefore.layout ∧
      AgreeOff f.blocks h (h.joinBefore f.block.offset).1 ∧
      (h.joinBefore f.block.offset).2 = f.joinBefore.block.offset := by
  have hbefore : h.before f.block.offset = f.before.head?.map Block.offset := by
    have he : h.before f.block.offset = f.before.reverse.getLast?.map Block.offset := H.before_eq
    rwa [List.getLast?_reverse] at he
  rcases f.joinBefore_cases with ⟨he, hused⟩ | ⟨p, before, hb, hp⟩
  · have hstop : h.joinBefore f.block.offset = (h, f.block.offset) := by
      unfold Heap.joinBefore
      rw [hbefore]
      cases hhead : f.before.head? with
      | none => rfl
      | some p =>
        have hmem : p ∈ f.layout.blocks :=
          Focus.mem_blocks.mpr (Or.inr (Or.inl (List.mem_of_head? hhead)))
        simp only [Option.map_some, H.isUsed_eq hmem, hused p hhead, if_true]
    rw [hstop, he]
    exact ⟨H, .refl _ _, rfl⟩
  · have hmem : p ∈ f.layout.blocks := Focus.mem_blocks.mpr (by simp [hb])
    have hjoin : h.joinBefore f.block.offset =
        ((h.extractFree p.offset).absorbNext p.offset, p.offset) := by
      simp [Heap.joinBefore, hbefore, hb, H.isUsed_eq hmem, hp]
    have hout := H.valid.unlisted_unlist hmem
    rw [hjoin, Focus.joinBefore_cons hb hp]
    unfold Focus.layout at H hmem
    rw [Focus.blocks_of_before hb] at H hmem ⊢
    have hjoined := H.extractJoin hmem (ho.listed p (Or.inl (by simp [hb])) hp) hout
      (fun d hd => ho.unlisted d (mem_unlist_of_mem hd))
    exact ⟨hjoined.1, hjoined.2, rfl⟩

/-- The block in hand is released; only headers are written to, its own as that of a free one. -/
theorem release (H : h.HasLayout f.layout) (ho : f.IsOpen) :
    (h.release f.block.offset).HasLayout f.release ∧
      AgreeOff (f.mark false).blocks h (h.release f.block.offset) ∧
      (h.release f.block.offset).isUsed f.block.offset = false := by
  have hx := H.granule_dvd Focus.block_mem
  have ho₁ := Focus.isOpen_mark ho false
  have H₁ := H.mark ho false
  have ho₂ := Focus.isOpen_joinAfter ho₁ H₁.valid
  obtain ⟨H₂, hagree₂⟩ := H₁.joinAfter ho₁
  rw [Focus.offset_mark] at H₂ hagree₂
  have ho₃ := Focus.isOpen_joinBefore ho₂ H₂.valid
  obtain ⟨H₃, hagree₃, hblock⟩ := H₂.joinBefore ho₂
  rw [Focus.offset_joinAfter, Focus.offset_mark] at H₃ hagree₃ hblock
  have hfree := f.used_joined
  have hagree₁ : AgreeOff (f.mark false).blocks h (h.mark f.block.offset false) :=
    AgreeOff.mark (b := (f.mark false).block) Focus.block_mem hx
  have hmarked : (h.mark f.block.offset false).isUsed f.block.offset = false := by
    rw [Heap.mark, isUsed_setSize hx (h.granule_dvd_blockSize _) false hx, if_pos rfl]
  have hlinks : ∀ i, InLinks (f.mark false).joinAfter.blocks i → InLinks (f.mark false).blocks i :=
    fun _ => Focus.inLinks_joinAfter
  rw [release_eq, insertJoined, hblock]
  have hrest := (hagree₂.trans (hagree₃.mono hlinks)).trans
    ((H₃.agreeOff_insertFree Focus.block_mem hfree).mono fun i hi =>
      hlinks i (Focus.inLinks_joinBefore hi))
  refine ⟨H₃.insertFree Focus.block_mem hfree ho₃.unlisted, hagree₁.trans hrest, ?_⟩
  exact Bool.eq_false_iff.mpr fun hu => by simpa [hmarked] using (hrest.marks _ hx hu).1

theorem split (H : h.HasLayout f.layout) (ho : f.IsOpen) (hu : f.block.used = true)
    (hpos : 0 < size) (hdvd : granule ∣ size) (hle : size ≤ f.block.size) :
    (h.split f.block.offset size).HasLayout (f.split size) ∧
      AgreeOn (f.split size).blocks h (h.split f.block.offset size) := by
  have hb : f.block ∈ f.layout.blocks := Focus.block_mem
  have hsub : wrappingSub wordLimit (h.blockSize f.block.offset) size = f.block.size - size := by
    rw [H.blockSize_eq hb]
    exact wrappingSub_eq hle (H.size_lt hb)
  rw [split_eq, hsub, Focus.split]
  by_cases hlt : f.block.size - size < headerSize
  · simp only [if_pos hlt]
    exact ⟨H, .refl _ _⟩
  · simp only [if_neg hlt]
    have hc := Focus.canCut_of_ge hu hpos hdvd hlt
    have hv := Focus.isValid_rest ho H.valid hc
    obtain ⟨H', hagree, -⟩ := (H.cutAt ho hc).release (Focus.isOpen_rest ho H.valid hc)
    have hkept := (H.agreeOff_cutAt ho hc).trans hagree
    exact ⟨H', hkept.agreeOn hv.tiles fun _ => Focus.inData_release⟩

end HasLayout

end MemoryKit.Heap
