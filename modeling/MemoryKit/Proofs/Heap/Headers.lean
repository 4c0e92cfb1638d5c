import MemoryKit.Heap.Blocks
import MemoryKit.Proofs.Heap.Chain
import MemoryKit.Proofs.Heap.Focus

/-! # Layouts in memory

A heap has a layout if its headers describe the blocks, the links of its free blocks run along the
lists, and its index matches them. Blocks begin at granules, so that a header word that is written
is no word of another header. Everything outside of headers may change without changing the layout.
-/

namespace MemoryKit

theorem linkOfWord_wordOfLink {l : Option Nat} (h : ∀ x ∈ l, x < noLink) :
    linkOfWord (wordOfLink l % wordLimit) = l := by
  cases l with
  | none => rfl
  | some x =>
    have hx := h x rfl
    have hm : x % wordLimit = x := Nat.mod_eq_of_lt (by simp only [noLink, wordLimit] at *; omega)
    rw [wordOfLink, Option.getD_some, hm, linkOfWord, if_neg (Nat.ne_of_lt hx)]

theorem sizeOfWord_header {size : Nat} (h : granule ∣ size) (used : Bool) :
    sizeOfWord (size + used.toNat) = size := by
  obtain ⟨k, rfl⟩ := h
  cases used <;> simp only [sizeOfWord, granule, Bool.toNat_false, Bool.toNat_true] <;> omega

theorem isUsedWord_header {size : Nat} (h : granule ∣ size) (used : Bool) :
    isUsedWord (size + used.toNat) = used := by
  obtain ⟨k, rfl⟩ := h
  have hm : (granule * k + used.toNat) % 2 = used.toNat := by
    have := used.toNat_lt
    simp only [granule]
    omega
  rw [isUsedWord, hm]
  cases used <;> rfl

namespace Heap

open SizeClass

variable {h : Heap} {L : Layout} {b c : Block} {bs pre post : List Block}
  {lists : SizeClass → List Nat} {x y f g value : Nat} {link prev : Option Nat}

@[simp] theorem capacity_setWord (h : Heap) (x value : Nat) :
    (h.setWord x value).capacity = h.capacity := rfl

@[simp] theorem index_setWord (h : Heap) (x value : Nat) :
    (h.setWord x value).index = h.index := rfl

@[simp] theorem capacity_setSize (h : Heap) (x size : Nat) (used : Bool) :
    (h.setSize x size used).capacity = h.capacity := capacity_setWord h _ _

@[simp] theorem index_setSize (h : Heap) (x size : Nat) (used : Bool) :
    (h.setSize x size used).index = h.index := index_setWord h _ _

@[simp] theorem capacity_setBefore (h : Heap) (x : Nat) (link : Option Nat) :
    (h.setBefore x link).capacity = h.capacity := capacity_setWord h _ _

@[simp] theorem index_setBefore (h : Heap) (x : Nat) (link : Option Nat) :
    (h.setBefore x link).index = h.index := index_setWord h _ _

@[simp] theorem capacity_setPrevFree (h : Heap) (x : Nat) (link : Option Nat) :
    (h.setPrevFree x link).capacity = h.capacity := capacity_setWord h _ _

@[simp] theorem index_setPrevFree (h : Heap) (x : Nat) (link : Option Nat) :
    (h.setPrevFree x link).index = h.index := index_setWord h _ _

@[simp] theorem capacity_setNextFree (h : Heap) (x : Nat) (link : Option Nat) :
    (h.setNextFree x link).capacity = h.capacity := capacity_setWord h _ _

@[simp] theorem index_setNextFree (h : Heap) (x : Nat) (link : Option Nat) :
    (h.setNextFree x link).index = h.index := index_setWord h _ _

theorem word_lt (h : Heap) (x : Nat) : h.word x < wordLimit := Memory.word_lt h.memory x

def IsField (f : Nat) : Prop := f % 4 = 0 ∧ f < 16

theorem isField_size : IsField 0 := ⟨rfl, by decide⟩

theorem isField_back : IsField backField := ⟨rfl, by decide⟩

theorem isField_prev : IsField prevField := ⟨rfl, by decide⟩

theorem isField_next : IsField nextField := ⟨rfl, by decide⟩

theorem word_setWord_field (hf : IsField f) (hg : IsField g) (hx : granule ∣ x)
    (hy : granule ∣ y) :
    (h.setWord (x + f) value).word (y + g) =
      if x = y ∧ f = g then value % wordLimit else h.word (y + g) := by
  obtain ⟨hf₁, hf₂⟩ := hf
  obtain ⟨hg₁, hg₂⟩ := hg
  by_cases he : x = y ∧ f = g
  · rw [if_pos he, he.1, he.2]
    exact Memory.word_setWord ..
  · obtain ⟨j, rfl⟩ := hx
    obtain ⟨k, rfl⟩ := hy
    rw [if_neg he]
    simp only [granule] at *
    exact Memory.word_setWord_of_disjoint (by omega)

theorem word_setWord_same (hf : IsField f) (hx : granule ∣ x) (hy : granule ∣ y) :
    (h.setWord (x + f) value).word (y + f) =
      if x = y then value % wordLimit else h.word (y + f) := by
  simp [word_setWord_field hf hf hx hy]

theorem word_setWord_other (hf : IsField f) (hg : IsField g) (hx : granule ∣ x)
    (hy : granule ∣ y) (hfg : f ≠ g) :
    (h.setWord (x + f) value).word (y + g) = h.word (y + g) := by
  rw [word_setWord_field hf hg hx hy, if_neg (fun he => hfg he.2)]

theorem link_setWord_same (hf : IsField f) (hx : granule ∣ x) (hy : granule ∣ y)
    (hl : ∀ z ∈ link, z < noLink) :
    linkOfWord ((h.setWord (x + f) (wordOfLink link)).word (y + f)) =
      if x = y then link else linkOfWord (h.word (y + f)) := by
  rw [word_setWord_same hf hx hy]
  by_cases he : x = y <;> simp [he, linkOfWord_wordOfLink hl]

section Setters

variable {size : Nat} {used : Bool} (hx : granule ∣ x) (hy : granule ∣ y)

include hx hy

theorem word_setSize : (h.setSize x size used).word y =
    if x = y then (size + used.toNat) % wordLimit else h.word y := by
  unfold setSize
  exact @word_setWord_same h x y 0 _ isField_size hx hy

theorem before_setSize : (h.setSize x size used).before y = h.before y := by
  unfold before setSize
  exact congrArg linkOfWord
    (@word_setWord_other h x y 0 backField _ isField_size isField_back hx hy (by decide))

theorem prevFree_setSize : (h.setSize x size used).prevFree y = h.prevFree y := by
  unfold prevFree setSize
  exact congrArg linkOfWord
    (@word_setWord_other h x y 0 prevField _ isField_size isField_prev hx hy (by decide))

theorem nextFree_setSize : (h.setSize x size used).nextFree y = h.nextFree y := by
  unfold nextFree setSize
  exact congrArg linkOfWord
    (@word_setWord_other h x y 0 nextField _ isField_size isField_next hx hy (by decide))

theorem word_setBefore : (h.setBefore x link).word y = h.word y := by
  unfold setBefore
  exact @word_setWord_other h x y backField 0 _ isField_back isField_size hx hy (by decide)

theorem before_setBefore (hl : ∀ z ∈ link, z < noLink) :
    (h.setBefore x link).before y = if x = y then link else h.before y := by
  unfold before setBefore
  exact link_setWord_same isField_back hx hy hl

theorem prevFree_setBefore : (h.setBefore x link).prevFree y = h.prevFree y := by
  unfold prevFree setBefore
  exact congrArg linkOfWord (word_setWord_other isField_back isField_prev hx hy (by decide))

theorem nextFree_setBefore : (h.setBefore x link).nextFree y = h.nextFree y := by
  unfold nextFree setBefore
  exact congrArg linkOfWord (word_setWord_other isField_back isField_next hx hy (by decide))

theorem word_setPrevFree : (h.setPrevFree x link).word y = h.word y := by
  unfold setPrevFree
  exact @word_setWord_other h x y prevField 0 _ isField_prev isField_size hx hy (by decide)

theorem before_setPrevFree : (h.setPrevFree x link).before y = h.before y := by
  unfold before setPrevFree
  exact congrArg linkOfWord (word_setWord_other isField_prev isField_back hx hy (by decide))

theorem prevFree_setPrevFree (hl : ∀ z ∈ link, z < noLink) :
    (h.setPrevFree x link).prevFree y = if x = y then link else h.prevFree y := by
  unfold prevFree setPrevFree
  exact link_setWord_same isField_prev hx hy hl

theorem nextFree_setPrevFree : (h.setPrevFree x link).nextFree y = h.nextFree y := by
  unfold nextFree setPrevFree
  exact congrArg linkOfWord (word_setWord_other isField_prev isField_next hx hy (by decide))

theorem word_setNextFree : (h.setNextFree x link).word y = h.word y := by
  unfold setNextFree
  exact @word_setWord_other h x y nextField 0 _ isField_next isField_size hx hy (by decide)

theorem before_setNextFree : (h.setNextFree x link).before y = h.before y := by
  unfold before setNextFree
  exact congrArg linkOfWord (word_setWord_other isField_next isField_back hx hy (by decide))

theorem prevFree_setNextFree : (h.setNextFree x link).prevFree y = h.prevFree y := by
  unfold prevFree setNextFree
  exact congrArg linkOfWord (word_setWord_other isField_next isField_prev hx hy (by decide))

theorem nextFree_setNextFree (hl : ∀ z ∈ link, z < noLink) :
    (h.setNextFree x link).nextFree y = if x = y then link else h.nextFree y := by
  unfold nextFree setNextFree
  exact link_setWord_same isField_next hx hy hl

end Setters

/-- The headers describe the blocks, the first of which follows `prev`. -/
def Follows (h : Heap) : Option Nat → List Block → Prop
  | _, [] => True
  | prev, b :: bs =>
    h.word b.offset = b.size + b.used.toNat ∧ h.before b.offset = prev ∧
      Follows h (some b.offset) bs

theorem follows_append {bs₁ bs₂ : List Block} : h.Follows prev (bs₁ ++ bs₂) ↔
    h.Follows prev bs₁ ∧ h.Follows ((bs₁.getLast?.map Block.offset).or prev) bs₂ := by
  induction bs₁ generalizing prev with
  | nil => simp [Follows]
  | cons b bs₁ ih =>
    have hlast : ((b :: bs₁).getLast?.map Block.offset).or prev =
        (bs₁.getLast?.map Block.offset).or (some b.offset) := by
      cases bs₁ with
      | nil => rfl
      | cons c bs₁ => simp [List.getLast?_cons]
    rw [List.cons_append, Follows, Follows, ih, hlast, and_assoc, and_assoc]

theorem Follows.congr {h' : Heap} (hf : h.Follows prev bs)
    (hbs : ∀ b ∈ bs, h'.word b.offset = h.word b.offset ∧
      h'.before b.offset = h.before b.offset) : h'.Follows prev bs := by
  induction bs generalizing prev with
  | nil => trivial
  | cons b bs ih =>
    obtain ⟨hw, hb, hrest⟩ := hf
    obtain ⟨hw', hb'⟩ := hbs b List.mem_cons_self
    exact ⟨hw'.trans hw, hb'.trans hb, ih hrest fun c hc => hbs c (List.mem_cons_of_mem b hc)⟩

theorem behind_of_tiles {size : Nat} (hsize : h.blockSize x = size)
    (ht : Tiles (x + size) post h.capacity) : h.behind x = post.head?.map Block.offset := by
  rw [behind, hsize]
  cases post with
  | nil =>
    have he : x + size = h.capacity := ht
    rw [if_neg (by omega)]
    rfl
  | cons n post =>
    obtain ⟨he, hpos, -, hrest⟩ := ht
    have := hrest.le
    rw [if_pos (by omega), List.head?_cons, Option.map_some, he]

theorem Follows.rebase {h' : Heap} {start stop : Nat} (hf : h.Follows prev bs)
    (ht : Tiles start bs stop) (hw : ∀ b ∈ bs, h'.word b.offset = h.word b.offset)
    (hb : ∀ b ∈ bs, h'.before b.offset =
      if bs.head?.map Block.offset = some b.offset then link else h.before b.offset) :
    h'.Follows link bs := by
  cases bs with
  | nil => trivial
  | cons c bs =>
    obtain ⟨hc, -, hrest⟩ := hf
    refine ⟨(hw c List.mem_cons_self).trans hc, by simpa using hb c List.mem_cons_self,
      hrest.congr fun b hb' => ⟨hw b (List.mem_cons_of_mem c hb'), ?_⟩⟩
    have hne : c.offset ≠ b.offset := by
      obtain ⟨rfl, hpos, -, hbs⟩ := ht
      have := (hbs.bounds hb').1
      omega
    rw [hb b (List.mem_cons_of_mem c hb')]
    simp [hne]

theorem Tiles.header_lt {start stop : Nat} (ht : Tiles start bs stop) (hstop : stop < wordLimit)
    (hb : b ∈ bs) (used : Bool) :
    (b.size + used.toNat) % wordLimit = b.size + used.toNat := by
  obtain ⟨-, hle, -, hdvd⟩ := ht.bounds hb
  have := used.toNat_lt
  obtain ⟨k, hk⟩ := hdvd
  apply Nat.mod_eq_of_lt
  simp only [granule, wordLimit] at *
  omega

/-- The headers, the links of free blocks and the index agree with the layout. -/
structure HasLayout (h : Heap) (L : Layout) : Prop where
  valid : L.IsValid h.capacity
  capacity_lt : h.capacity < wordLimit
  follows : h.Follows none L.blocks
  index : h.index.Matches L.lists
  chained : ∀ c, Chained h.prevFree h.nextFree none (L.lists c) none

namespace HasLayout

theorem granule_dvd (H : h.HasLayout L) (hb : b ∈ L.blocks) : granule ∣ b.offset :=
  H.valid.tiles.granule_dvd hb

theorem granule_dvd_size (H : h.HasLayout L) (hb : b ∈ L.blocks) : granule ∣ b.size :=
  (H.valid.tiles.bounds hb).2.2.2

theorem offset_lt (H : h.HasLayout L) (hb : b ∈ L.blocks) : b.offset < noLink := by
  have hbounds := H.valid.tiles.bounds hb
  have hcap := H.capacity_lt
  simp only [noLink, wordLimit] at *
  omega

theorem size_lt (H : h.HasLayout L) (hb : b ∈ L.blocks) : b.size < wordLimit := by
  have := H.valid.tiles.bounds hb
  have := H.capacity_lt
  omega

theorem headerSize_le (H : h.HasLayout L) (hb : b ∈ L.blocks) : headerSize ≤ b.size :=
  Nat.le_of_dvd (H.valid.tiles.bounds hb).2.2.1 (H.granule_dvd_size hb)

theorem granule_dvd_of_listed (H : h.HasLayout L) {d : SizeClass} (hx : x ∈ L.lists d) :
    granule ∣ x := by
  obtain ⟨b, hb, rfl, -⟩ := H.valid.listed d x hx
  exact H.granule_dvd hb

theorem lt_of_listed (H : h.HasLayout L) {d : SizeClass} (hx : x ∈ L.lists d) : x < noLink := by
  obtain ⟨b, hb, rfl, -⟩ := H.valid.listed d x hx
  exact H.offset_lt hb

theorem word_eq (H : h.HasLayout L) (hb : b ∈ L.blocks) :
    h.word b.offset = b.size + b.used.toNat := by
  obtain ⟨pre, post, he⟩ := List.append_of_mem hb
  have hf := H.follows
  rw [he, follows_append] at hf
  exact hf.2.1

theorem blockSize_eq (H : h.HasLayout L) (hb : b ∈ L.blocks) : h.blockSize b.offset = b.size := by
  rw [blockSize, H.word_eq hb, sizeOfWord_header (H.granule_dvd_size hb)]

theorem isUsed_eq (H : h.HasLayout L) (hb : b ∈ L.blocks) : h.isUsed b.offset = b.used := by
  rw [isUsed, H.word_eq hb, isUsedWord_header (H.granule_dvd_size hb)]

theorem before_eq (H : h.HasLayout ⟨pre ++ b :: post, lists⟩) :
    h.before b.offset = pre.getLast?.map Block.offset := by
  have hf := (follows_append.mp H.follows).2.2.1
  rwa [Option.or_none] at hf

theorem behind_eq (H : h.HasLayout ⟨pre ++ b :: post, lists⟩) :
    h.behind b.offset = post.head?.map Block.offset := by
  have hsize : h.blockSize b.offset = b.size := H.blockSize_eq (by simp)
  exact behind_of_tiles hsize (tiles_middle.mp H.valid.tiles).2.2.2

end HasLayout

/-- The layout does not depend on what lies outside of the links. -/
theorem HasLayout.of_memory (H : h.HasLayout L) {m : Memory}
    (hm : ∀ i, InLinks L.blocks i → m.byte i = h.memory.byte i) :
    ({ h with memory := m } : Heap).HasLayout L where
  valid := H.valid
  capacity_lt := H.capacity_lt
  follows := H.follows.congr fun b hb => by
    have hlink := b.eight_le_linkSize
    refine ⟨Memory.word_congr fun i hlo hhi => hm i ⟨b, hb, by omega, by omega⟩,
      congrArg linkOfWord (Memory.word_congr fun i hlo hhi => hm i ⟨b, hb, ?_, ?_⟩)⟩
    all_goals
      simp only [backField] at hlo hhi
      omega
  index := H.index
  chained c := (H.chained c).congr fun x hx => by
    obtain ⟨b, hb, rfl, hfree, -⟩ := H.valid.listed c x hx
    have hlink : b.linkSize = 16 := by simp [Block.linkSize, hfree]
    refine ⟨congrArg linkOfWord (Memory.word_congr fun i hlo hhi => hm i ⟨b, hb, ?_, ?_⟩),
      congrArg linkOfWord (Memory.word_congr fun i hlo hhi => hm i ⟨b, hb, ?_, ?_⟩)⟩
    all_goals
      simp only [prevField, nextField] at hlo hhi
      omega

theorem HasLayout.of_setWord (H : h.HasLayout L) (hb : b ∈ L.blocks) (hu : b.used = true)
    (hlo : b.offset + 8 ≤ x) (hhi : x + 4 ≤ b.offset + b.size) (value : Nat) :
    (h.setWord x value).HasLayout L := by
  refine H.of_memory fun i hi => Memory.byte_setWord_of_outside ?_
  by_contra hcon
  exact H.valid.tiles.not_inLinks ⟨b, hb, hu, by omega, by omega⟩ hi

theorem byte_setWord_of_not_inLinks (hb : b ∈ bs) (hf : f + 4 ≤ b.linkSize) {i : Nat}
    (hi : ¬ InLinks bs i) :
    (h.setWord (b.offset + f) value).memory.byte i = h.memory.byte i := by
  refine Memory.byte_setWord_of_outside ?_
  by_contra hcon
  exact hi ⟨b, hb, by omega, by omega⟩

theorem granule_dvd_blockSize (h : Heap) (x : Nat) : granule ∣ h.blockSize x :=
  Nat.dvd_mul_left granule _

theorem byte_setSize_of_not_inLinks (hb : b ∈ bs) {size i : Nat} {used : Bool}
    (hi : ¬ InLinks bs i) : (h.setSize b.offset size used).memory.byte i = h.memory.byte i :=
  @byte_setWord_of_not_inLinks h b bs 0 _ hb (Nat.le_trans (by decide) b.eight_le_linkSize) i hi

/-- What reads as the header of a used block did so before, and leads to the same data. -/
def AddsNoMarks (h h' : Heap) : Prop :=
  ∀ y, granule ∣ y → h'.isUsed y = true → h.isUsed y = true ∧ h'.user y = h.user y

theorem AddsNoMarks.refl (h : Heap) : AddsNoMarks h h := fun _ _ hu => ⟨hu, rfl⟩

theorem AddsNoMarks.trans {h' h'' : Heap} (h₁ : AddsNoMarks h h') (h₂ : AddsNoMarks h' h'') :
    AddsNoMarks h h'' := by
  intro y hy hu
  obtain ⟨hu', he'⟩ := h₂ y hy hu
  obtain ⟨hu'', he''⟩ := h₁ y hy hu'
  exact ⟨hu'', he'.trans he''⟩

theorem isUsed_setSize {size : Nat} (hx : granule ∣ x) (hsize : granule ∣ size) (used : Bool)
    (hy : granule ∣ y) :
    (h.setSize x size used).isUsed y = if x = y then used else h.isUsed y := by
  have hword := isUsedWord_header hsize used
  have hmod : isUsedWord ((size + used.toNat) % wordLimit) = isUsedWord (size + used.toNat) := by
    unfold isUsedWord
    rw [Nat.mod_mod_of_dvd _ (by decide)]
  rw [isUsed, word_setSize hx hy]
  split
  · exact hmod.trans hword
  · rfl

theorem user_setSize {size : Nat} {used : Bool} (hx : granule ∣ x) (hy : granule ∣ y) :
    (h.setSize x size used).user y = h.user y :=
  word_setWord_other (f := 0) isField_size isField_next hx hy (by decide)

theorem isUsed_setWord (hx : granule ∣ x) (hf : IsField f) (hne : f ≠ 0) (hy : granule ∣ y) :
    (h.setWord (x + f) value).isUsed y = h.isUsed y :=
  congrArg isUsedWord (word_setWord_other (g := 0) hf isField_size hx hy hne)

theorem addsNoMarks_setWord (hx : granule ∣ x) (hf : IsField f) (hne : f ≠ 0)
    (hfree : f = nextField → h.isUsed x = false) : AddsNoMarks h (h.setWord (x + f) value) := by
  intro y hy hu
  rw [isUsed_setWord hx hf hne hy] at hu
  refine ⟨hu, (word_setWord_field hf isField_next hx hy).trans (if_neg ?_)⟩
  rintro ⟨rfl, he⟩
  exact absurd hu (Bool.eq_false_iff.mp (hfree he))

/--
The heaps have the same capacity and the same bytes outside of the links of the blocks, and no
header of a used block has come or leads elsewhere.
-/
structure AgreeOff (bs : List Block) (h h' : Heap) : Prop where
  capacity : h'.capacity = h.capacity
  byte : ∀ i, ¬ InLinks bs i → h'.memory.byte i = h.memory.byte i
  marks : AddsNoMarks h h'

namespace AgreeOff

variable {h' h'' : Heap} {bs' : List Block} {size : Nat}

theorem refl (bs : List Block) (h : Heap) : AgreeOff bs h h :=
  ⟨rfl, fun _ _ => rfl, .refl h⟩

theorem trans (h₁ : AgreeOff bs h h') (h₂ : AgreeOff bs h' h'') : AgreeOff bs h h'' :=
  ⟨h₂.capacity.trans h₁.capacity, fun i hi => (h₂.byte i hi).trans (h₁.byte i hi),
    h₁.marks.trans h₂.marks⟩

theorem mono (ha : AgreeOff bs h h') (hl : ∀ i, InLinks bs i → InLinks bs' i) :
    AgreeOff bs' h h' := ⟨ha.capacity, fun i hi => ha.byte i (mt (hl i) hi), ha.marks⟩

section Setters

variable (hb : b ∈ bs) (hx : granule ∣ b.offset)

include hb hx

theorem setField (hf : IsField f) (hne : f ≠ 0) (hle : f + 4 ≤ b.linkSize)
    (hfree : f = nextField → h.isUsed b.offset = false) :
    AgreeOff bs h (h.setWord (b.offset + f) value) :=
  ⟨rfl, fun _ hi => byte_setWord_of_not_inLinks hb hle hi, addsNoMarks_setWord hx hf hne hfree⟩

theorem setSize (hsize : granule ∣ size) {used : Bool}
    (hused : used = true → h.isUsed b.offset = true) :
    AgreeOff bs h (h.setSize b.offset size used) := by
  refine ⟨rfl, fun i hi => byte_setSize_of_not_inLinks hb hi, fun y hy hu => ?_⟩
  rw [isUsed_setSize hx hsize used hy] at hu
  refine ⟨?_, user_setSize hx hy⟩
  split at hu
  · next he => exact he ▸ hused hu
  · exact hu

theorem mark : AgreeOff bs h (h.mark b.offset false) :=
  setSize hb hx (h.granule_dvd_blockSize _) (by simp)

theorem setBefore : AgreeOff bs h (h.setBefore b.offset link) :=
  setField hb hx isField_back (by decide) b.eight_le_linkSize (absurd · (by decide))

theorem setPrevFree (hfree : b.used = false) : AgreeOff bs h (h.setPrevFree b.offset link) :=
  setField hb hx isField_prev (by decide) (by simp [Block.linkSize, hfree, prevField])
    (absurd · (by decide))

theorem setNextFree (hfree : b.used = false) (hmark : h.isUsed b.offset = false) :
    AgreeOff bs h (h.setNextFree b.offset link) :=
  setField hb hx isField_next (by decide) (by simp [Block.linkSize, hfree, nextField])
    fun _ => hmark

end Setters

end AgreeOff

/--
The heaps have the same capacity and the same bytes where used blocks have their data, and no
header of a used block has come or leads elsewhere.
-/
structure AgreeOn (bs : List Block) (h h' : Heap) : Prop where
  capacity : h'.capacity = h.capacity
  byte : ∀ i, InData bs i → h'.memory.byte i = h.memory.byte i
  marks : AddsNoMarks h h'

theorem AgreeOn.refl (bs : List Block) (h : Heap) : AgreeOn bs h h :=
  ⟨rfl, fun _ _ => rfl, .refl h⟩

theorem AgreeOff.agreeOn {h' : Heap} {bs' : List Block} {start stop : Nat} (ha : AgreeOff bs h h')
    (ht : Tiles start bs stop) (hd : ∀ i, InData bs' i → InData bs i) : AgreeOn bs' h h' :=
  ⟨ha.capacity, fun i hi => ha.byte i (ht.not_inLinks (hd i hi)), ha.marks⟩

end Heap

end MemoryKit
