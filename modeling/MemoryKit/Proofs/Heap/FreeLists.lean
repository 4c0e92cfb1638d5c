import MemoryKit.Proofs.Heap.Headers

/-! # Free lists in memory

A block is taken out of its list by changing the links of its neighbours, and put in front by
changing those of the first block. Both change the lists of the layout accordingly and write to
headers of free blocks only.
-/

namespace MemoryKit.Heap

open SizeClass

variable {h h' : Heap} {L : Layout} {b : Block} {lists : SizeClass → List Nat} {x y : Nat}
  {prev next : Option Nat}

theorem exists_class_of_allocate {size : Nat} (ha : h.allocate size = some (x, h')) :
    ∃ rounded d, ceil? size = some rounded ∧ h.index.search (ofSize rounded) = some d ∧
      h.index.head d = some x ∧ h' = ((h.extractFree x).mark x true).split x rounded := by
  unfold Heap.allocate roundUp? at ha
  cases hr : ceil? size with
  | none => simp [hr] at ha
  | some rounded =>
  cases hb : (h.index.search (ofSize rounded)).bind h.index.head with
  | none => simp [hr, hb] at ha
  | some y =>
  simp only [hr, Option.map_some, hb, Option.some.injEq, Prod.mk.injEq] at ha
  obtain ⟨rfl, rfl⟩ := ha
  obtain ⟨d, hd, hhead⟩ := Option.bind_eq_some_iff.mp hb
  exact ⟨rounded, d, rfl, hd, hhead, rfl⟩

def skipTo (h : Heap) (c : SizeClass) (prev next : Option Nat) : Heap :=
  match prev with
  | some p => h.setNextFree p next
  | none => { h with index := h.index.dropHead c next }

def pointBack (h : Heap) (next prev : Option Nat) : Heap :=
  match next with
  | some n => h.setPrevFree n prev
  | none => h

theorem extractFree_eq (h : Heap) (x : Nat) : h.extractFree x =
    (h.skipTo (ofSize (h.blockSize x)) (h.prevFree x) (h.nextFree x)).pointBack
      (h.nextFree x) (h.prevFree x) := by
  unfold extractFree skipTo pointBack FreeIndex.dropHead
  cases h.prevFree x <;> cases h.nextFree x <;> rfl

section Relinking

variable {d : SizeClass} (hprev : ∀ p ∈ prev, granule ∣ p ∧ p < noLink)
  (hnext : ∀ n ∈ next, granule ∣ n ∧ n < noLink) (hy : granule ∣ y)

include hprev hnext hy

theorem skipTo_words : (h.skipTo d prev next).word y = h.word y ∧
    (h.skipTo d prev next).before y = h.before y ∧
    (h.skipTo d prev next).prevFree y = h.prevFree y ∧
    (h.skipTo d prev next).nextFree y = if prev = some y then next else h.nextFree y := by
  cases prev with
  | none => exact ⟨rfl, rfl, rfl, rfl⟩
  | some p =>
    have hp := (hprev p rfl).1
    have hn := nextFree_setNextFree (h := h) hp hy fun n hn => (hnext n hn).2
    simp only [skipTo, Option.some.injEq]
    exact ⟨word_setNextFree hp hy, before_setNextFree hp hy, prevFree_setNextFree hp hy, hn⟩

theorem pointBack_words : (h.pointBack next prev).word y = h.word y ∧
    (h.pointBack next prev).before y = h.before y ∧
    (h.pointBack next prev).prevFree y = (if next = some y then prev else h.prevFree y) ∧
    (h.pointBack next prev).nextFree y = h.nextFree y := by
  cases next with
  | none => exact ⟨rfl, rfl, rfl, rfl⟩
  | some n =>
    have hn := (hnext n rfl).1
    have hp := prevFree_setPrevFree (h := h) hn hy fun p hp => (hprev p hp).2
    simp only [pointBack, Option.some.injEq]
    exact ⟨word_setPrevFree hn hy, before_setPrevFree hn hy, hp, nextFree_setPrevFree hn hy⟩

end Relinking

@[simp] theorem capacity_skipTo (h : Heap) (d : SizeClass) (prev next : Option Nat) :
    (h.skipTo d prev next).capacity = h.capacity := by
  cases prev <;> rfl

@[simp] theorem capacity_pointBack (h : Heap) (next prev : Option Nat) :
    (h.pointBack next prev).capacity = h.capacity := by
  cases next <;> rfl

@[simp] theorem index_pointBack (h : Heap) (next prev : Option Nat) :
    (h.pointBack next prev).index = h.index := by
  cases next <;> rfl

namespace HasLayout

theorem exists_links (H : h.HasLayout L) {d : SizeClass} (hx : x ∈ L.lists d) :
    ∃ l₁ l₂, L.lists d = l₁ ++ x :: l₂ ∧ (L.lists d).erase x = l₁ ++ l₂ ∧
      h.prevFree x = l₁.getLast? ∧ h.nextFree x = l₂.head? := by
  obtain ⟨l₁, l₂, he⟩ := List.append_of_mem hx
  have hnd := H.valid.nodup d
  have hc := H.chained d
  rw [he] at hnd hc
  have hx₁ : x ∉ l₁ := fun hx => (List.nodup_append.mp hnd).2.2 x hx x List.mem_cons_self rfl
  have herase : (L.lists d).erase x = l₁ ++ l₂ := by
    rw [he, List.erase_append_right _ hx₁, List.erase_cons_head]
  exact ⟨l₁, l₂, he, herase, hc.links⟩

theorem of_listed (H : h.HasLayout L) {d : SizeClass} (hx : x ∈ L.lists d) :
    granule ∣ x ∧ x < noLink :=
  ⟨H.granule_dvd_of_listed hx, H.lt_of_listed hx⟩

theorem of_lists (H : h.HasLayout L) (hv : Layout.IsValid ⟨L.blocks, lists⟩ h.capacity)
    (hcap : h'.capacity = h.capacity) (hidx : h'.index.Matches lists)
    (hheaders : ∀ x, granule ∣ x → h'.word x = h.word x ∧ h'.before x = h.before x)
    (hc : ∀ d, Chained h'.prevFree h'.nextFree none (lists d) none) :
    h'.HasLayout ⟨L.blocks, lists⟩ where
  valid := hcap ▸ hv
  capacity_lt := hcap ▸ H.capacity_lt
  follows := H.follows.congr fun _ hb => hheaders _ (H.granule_dvd hb)
  index := hidx
  chained := hc

theorem extractFree (H : h.HasLayout L) (hb : b ∈ L.blocks)
    (hl : b.offset ∈ L.lists (ofSize b.size)) :
    (h.extractFree b.offset).HasLayout ⟨L.blocks, unlist L.lists b⟩ := by
  obtain ⟨l₁, l₂, he, herase, hp, hn⟩ := H.exists_links hl
  have hmem : ∀ y ∈ l₁ ++ l₂, y ∈ L.lists (ofSize b.size) := by
    intro y hy
    rw [he]
    simp only [List.mem_append, List.mem_cons] at hy ⊢
    tauto
  have hprev : ∀ p ∈ l₁.getLast?, granule ∣ p ∧ p < noLink := fun p hp =>
    H.of_listed (hmem p (List.mem_append_left _ (List.mem_of_getLast? hp)))
  have hnext : ∀ n ∈ l₂.head?, granule ∣ n ∧ n < noLink := fun n hn =>
    H.of_listed (hmem n (List.mem_append_right _ (List.mem_of_head? hn)))
  have hskip : ∀ y, granule ∣ y → _ := fun y hy =>
    skipTo_words (h := h) (d := ofSize b.size) hprev hnext hy
  have hback : ∀ y, granule ∣ y → _ := fun y hy =>
    pointBack_words (h := h.skipTo (ofSize b.size) l₁.getLast? l₂.head?) hprev hnext hy
  rw [extractFree_eq, H.blockSize_eq hb, hp, hn]
  refine H.of_lists (H.valid.unlist b) (by simp) ?_ (fun y hy => ?_) (fun d => ?_)
  · rw [index_pointBack, unlist, herase]
    cases l₁ with
    | nil => exact H.index.dropHead he
    | cons first l₁ =>
      obtain ⟨p, hlast⟩ : ∃ p, (first :: l₁).getLast? = some p := by
        simp [List.getLast?_cons]
      rw [hlast]
      exact H.index.cut he
  · exact ⟨(hback y hy).1.trans (hskip y hy).1, (hback y hy).2.1.trans (hskip y hy).2.1⟩
  · by_cases hd : d = ofSize b.size
    · subst hd
      rw [unlist, Function.update_self, herase]
      refine Chained.unlink (he ▸ H.chained _) (he ▸ H.valid.nodup _) (fun y hy => ?_)
        (fun y hy => ?_)
      · have hy' := (H.of_listed (hmem y hy)).1
        rw [(hback y hy').2.2.1, (hskip y hy').2.2.1]
      · have hy' := (H.of_listed (hmem y hy)).1
        rw [(hback y hy').2.2.2, (hskip y hy').2.2.2]
    · rw [unlist, Function.update_of_ne hd]
      refine (H.chained d).congr fun y hy => ?_
      have hy' := (H.of_listed hy).1
      have hout : y ∉ l₁ ++ l₂ := by
        intro hy''
        obtain ⟨c, hc, rfl, -, rfl⟩ := H.valid.listed d y hy
        exact hd (H.valid.free_of_listed hc (hmem _ hy'')).2
      rw [(hback y hy').2.2.1, (hskip y hy').2.2.1, (hback y hy').2.2.2, (hskip y hy').2.2.2,
        if_neg, if_neg]
      · exact ⟨rfl, rfl⟩
      · exact fun hlast => hout (List.mem_append_left _ (List.mem_of_getLast? hlast))
      · exact fun hhead => hout (List.mem_append_right _ (List.mem_of_head? hhead))

theorem agreeOff_extractFree (H : h.HasLayout L) (hb : b ∈ L.blocks)
    (hl : b.offset ∈ L.lists (ofSize b.size)) :
    AgreeOff L.blocks h (h.extractFree b.offset) := by
  obtain ⟨l₁, l₂, he, -, hp, hn⟩ := H.exists_links hl
  rw [extractFree_eq, H.blockSize_eq hb, hp, hn]
  have hskip : AgreeOff L.blocks h (h.skipTo (ofSize b.size) l₁.getLast? l₂.head?) := by
    unfold skipTo
    split
    · next p hlast =>
      have hp' : p ∈ L.lists (ofSize b.size) :=
        he ▸ List.mem_append_left _ (List.mem_of_getLast? hlast)
      obtain ⟨c, hc, rfl, hfree, -⟩ := H.valid.listed _ p hp'
      exact .setNextFree hc (H.granule_dvd hc) hfree ((H.isUsed_eq hc).trans hfree)
    · exact ⟨rfl, fun _ _ => rfl, .refl h⟩
  refine hskip.trans ?_
  unfold pointBack
  split
  · next n hhead =>
    have hn' : n ∈ L.lists (ofSize b.size) :=
      he ▸ List.mem_append_right _ (List.mem_cons_of_mem _ (List.mem_of_head? hhead))
    obtain ⟨c, hc, rfl, hfree, -⟩ := H.valid.listed _ n hn'
    exact .setPrevFree hc (H.granule_dvd hc) hfree
  · exact .refl _ _

end HasLayout

def linkFirst (h : Heap) (x : Nat) (head : Option Nat) : Heap :=
  (((h.mark x false).setPrevFree x none).setNextFree x head).pointBack head (some x)

theorem insertFree_eq {head : Option Nat} {c : SizeClass} (hc : ofSize (h.blockSize x) = c)
    (hhead : h.index.head c = head) : h.insertFree x =
      { h.linkFirst x head with index := h.index.pushHead c x head } := by
  subst hc
  unfold insertFree linkFirst
  dsimp only
  rw [hhead]
  cases head <;>
    simp only [pointBack, FreeIndex.pushHead, setNextFree, setPrevFree, mark, setSize,
      index_setWord]

@[simp] theorem capacity_insertFree (h : Heap) (x : Nat) :
    (h.insertFree x).capacity = h.capacity := by
  rw [insertFree_eq rfl rfl]
  simp [linkFirst, mark]

theorem word_mark_false (hx : granule ∣ x) (hy : granule ∣ y) (hw : h.word x = h.blockSize x) :
    (h.mark x false).word y = h.word y := by
  have hlt := Nat.mod_eq_of_lt (word_lt h x)
  rw [mark, word_setSize hx hy, Bool.toNat_false, Nat.add_zero, ← hw, hlt]
  split
  · next he => rw [he]
  · rfl

theorem linkFirst_words (hx : granule ∣ x) (hx' : x < noLink)
    (hhead : ∀ n ∈ next, granule ∣ n ∧ n < noLink) (hw : h.word x = h.blockSize x)
    (hy : granule ∣ y) : (h.linkFirst x next).word y = h.word y ∧
    (h.linkFirst x next).before y = h.before y ∧
    (h.linkFirst x next).prevFree y =
      (if next = some y then some x else if x = y then none else h.prevFree y) ∧
    (h.linkFirst x next).nextFree y = if x = y then next else h.nextFree y := by
  have hprev : ∀ p ∈ some x, granule ∣ p ∧ p < noLink := by simpa using ⟨hx, hx'⟩
  obtain ⟨hpw, hpb, hpp, hpn⟩ := pointBack_words
    (h := ((h.mark x false).setPrevFree x none).setNextFree x next) hprev hhead hy
  refine ⟨?_, ?_, ?_, ?_⟩
  · rw [linkFirst, hpw, word_setNextFree hx hy, word_setPrevFree hx hy, word_mark_false hx hy hw]
  · rw [linkFirst, hpb, before_setNextFree hx hy, before_setPrevFree hx hy, mark,
      before_setSize hx hy]
  · rw [linkFirst, hpp, prevFree_setNextFree hx hy, prevFree_setPrevFree hx hy (by simp), mark,
      prevFree_setSize hx hy]
  · rw [linkFirst, hpn, nextFree_setNextFree hx hy fun n hn => (hhead n hn).2,
      nextFree_setPrevFree hx hy, mark, nextFree_setSize hx hy]

namespace HasLayout

theorem insertFree_eq (H : h.HasLayout L) (hb : b ∈ L.blocks) :
    h.insertFree b.offset =
      { h.linkFirst b.offset (L.lists (ofSize b.size)).head? with
        index := h.index.pushHead (ofSize b.size) b.offset (L.lists (ofSize b.size)).head? } :=
  Heap.insertFree_eq (congrArg ofSize (H.blockSize_eq hb))
    (H.index.head _ (isValid_ofSize (H.size_lt hb)))

theorem insertFree (H : h.HasLayout L) (hb : b ∈ L.blocks) (hfree : b.used = false)
    (hout : ∀ d, b.offset ∉ L.lists d) :
    (h.insertFree b.offset).HasLayout ⟨L.blocks, enlist L.lists b⟩ := by
  have hfirst : ∀ n ∈ (L.lists (ofSize b.size)).head?, granule ∣ n ∧ n < noLink := fun n hn =>
    H.of_listed (List.mem_of_head? hn)
  have hw : h.word b.offset = h.blockSize b.offset := by
    rw [H.word_eq hb, H.blockSize_eq hb, hfree]
    rfl
  have hwords : ∀ y, granule ∣ y → _ := fun y hy =>
    linkFirst_words (H.granule_dvd hb) (H.offset_lt hb) hfirst hw hy
  rw [H.insertFree_eq hb]
  have hindex := H.index.pushHead (isValid_ofSize (H.size_lt hb)) b.offset
  refine H.of_lists (H.valid.enlist hb hfree hout) ?_ hindex
    (fun y hy => ⟨(hwords y hy).1, (hwords y hy).2.1⟩) (fun d => ?_)
  · simp [linkFirst, Heap.mark]
  · change Chained (h.linkFirst _ _).prevFree (h.linkFirst _ _).nextFree none _ none
    by_cases hd : d = ofSize b.size
    · subst hd
      rw [enlist, Function.update_self]
      have hne : ∀ y ∈ L.lists (ofSize b.size), b.offset ≠ y := fun y hy he => hout _ (he ▸ hy)
      refine (H.chained _).push (H.valid.nodup _) (fun y hy => ?_) (fun y hy => ?_) ?_ ?_
      · simp only [(hwords y (H.of_listed hy).1).2.2.1, if_neg (hne y hy)]
      · simp only [(hwords y (H.of_listed hy).1).2.2.2, if_neg (hne y hy)]
      · simp only [(hwords _ (H.granule_dvd hb)).2.2.1, if_true]
        rw [if_neg]
        exact fun hh => hout _ (List.mem_of_head? hh)
      · simp only [(hwords _ (H.granule_dvd hb)).2.2.2, if_true]
    · rw [enlist, Function.update_of_ne hd]
      refine (H.chained d).congr fun y hy => ?_
      have hy' := (H.of_listed hy).1
      have hne : b.offset ≠ y := fun he => hout d (he ▸ hy)
      simp only [(hwords y hy').2.2.1, (hwords y hy').2.2.2, if_neg hne]
      rw [if_neg]
      · exact ⟨rfl, trivial⟩
      · intro hh
        obtain ⟨c, hc, rfl, -, rfl⟩ := H.valid.listed d y hy
        exact hd (H.valid.free_of_listed hc (List.mem_of_head? hh)).2

theorem agreeOff_insertFree (H : h.HasLayout L) (hb : b ∈ L.blocks) (hfree : b.used = false) :
    AgreeOff L.blocks h (h.insertFree b.offset) := by
  have hx := H.granule_dvd hb
  have hmark : ((h.mark b.offset false).setPrevFree b.offset none).isUsed b.offset = false := by
    rw [Heap.setPrevFree, isUsed_setWord hx isField_prev (by decide) hx, Heap.mark,
      isUsed_setSize hx (h.granule_dvd_blockSize _) false hx, if_pos rfl]
  have hown : AgreeOff L.blocks h (((h.mark b.offset false).setPrevFree b.offset none).setNextFree
      b.offset (L.lists (ofSize b.size)).head?) :=
    ((AgreeOff.mark hb hx).trans (.setPrevFree hb hx hfree)).trans
      (.setNextFree hb hx hfree hmark)
  have hlink : AgreeOff L.blocks h (h.linkFirst b.offset (L.lists (ofSize b.size)).head?) := by
    unfold linkFirst pointBack
    split
    · next n hhead =>
      obtain ⟨c, hc, rfl, hcfree, -⟩ := H.valid.listed _ n (List.mem_of_head? hhead)
      exact hown.trans (.setPrevFree hc (H.granule_dvd hc) hcfree)
    · exact hown
  rw [H.insertFree_eq hb]
  exact ⟨hlink.capacity, hlink.byte, hlink.marks⟩

end HasLayout

end MemoryKit.Heap
