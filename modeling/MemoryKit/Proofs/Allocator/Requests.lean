import MemoryKit.Proofs.Allocator.Accounts
import MemoryKit.Proofs.Heap.Operations

/-! # Serving requests

A request for memory is served from a new block, in which the data is placed at the next aligned
address. What the block does not need behind the data goes back.
-/

namespace MemoryKit.Allocator

open Heap

variable {a : Allocator} {h h' : Heap} {L L' : Layout} {b : Block} {user data tag bytes : Nat}
  {pointer : Nat} {label : Label} {options : AllocationOptions}

/-- Writes the words that lead from the data of an allocation to its block. -/
def linked (h : Heap) (block user tag : Nat) : Heap :=
  if headerSize < user - block then (h.setAllocation block user tag).setWord (user - 4) block
  else h.setAllocation block user tag

theorem furnish_eq (h : Heap) (block user data tag : Nat) : furnish h block user data tag =
    if headerSize < user - block then
      (linked h block user tag).shrink block (user - block + data)
    else linked h block user tag := by
  unfold furnish linked
  split <;> rfl

section Linked

variable {x y : Nat} (hx : granule ∣ x) (hdvd : granule ∣ user) (hle : x + headerSize ≤ user)

include hle in
theorem byte_linked_of_outside {i : Nat} (hi : i < x + prevField ∨ user ≤ i) :
    (linked h x user tag).memory.byte i = h.memory.byte i := by
  simp only [prevField, headerSize] at hi hle
  have hown : (h.setAllocation x user tag).memory.byte i = h.memory.byte i :=
    (Memory.byte_setWord_of_outside (by simp only [nextField]; omega)).trans
      (Memory.byte_setWord_of_outside (by simp only [prevField]; omega))
  unfold linked
  split
  · exact (Memory.byte_setWord_of_outside (by omega)).trans hown
  · exact hown

include hdvd hle in
/-- The word in front of the data lies where a header in front of it would have its last word. -/
theorem linkField : granule ∣ user - granule ∧ user - 4 = user - granule + nextField := by
  simp only [headerSize] at hle
  exact ⟨Nat.dvd_sub hdvd (Nat.dvd_refl _), by simp only [granule, nextField]; omega⟩

include hx hdvd hle

theorem isUsed_linked (hy : granule ∣ y) : (linked h x user tag).isUsed y = h.isUsed y := by
  obtain ⟨hfront, hlink⟩ := linkField hdvd hle
  have hown : (h.setAllocation x user tag).isUsed y = h.isUsed y :=
    (isUsed_setWord hx isField_next (by decide) hy).trans
      (isUsed_setWord hx isField_prev (by decide) hy)
  unfold linked
  split
  · rw [hlink]
    exact (isUsed_setWord hfront isField_next (by decide) hy).trans hown
  · exact hown

theorem user_linked (hy : granule ∣ y) : (linked h x user tag).user y =
    if headerSize < user - x ∧ user - granule = y then x % wordLimit
    else if x = y then user % wordLimit else h.user y := by
  obtain ⟨hfront, hlink⟩ := linkField hdvd hle
  have hown : (h.setAllocation x user tag).user y = if x = y then user % wordLimit else h.user y :=
    (word_setWord_same isField_next hx hy).trans <| by
      rw [word_setWord_other isField_prev isField_next hx hy (by decide)]
      rfl
  unfold linked
  by_cases hpad : headerSize < user - x
  · rw [if_pos hpad, hlink]
    refine (word_setWord_same isField_next hfront hy).trans ?_
    simp only [hpad, true_and, ← hown]
    rfl
  · simpa only [hpad, if_false, false_and] using hown

theorem linked_words (hu : user < wordLimit) (ht : tag < wordLimit) :
    (linked h x user tag).tag x = tag ∧ (linked h x user tag).user x = user ∧
      (linked h x user tag).word (user - 4) = if headerSize < user - x then x else user := by
  obtain ⟨hfront, hlink⟩ := linkField hdvd hle
  have hlt : x < wordLimit := by omega
  refine ⟨?_, ?_, ?_⟩
  · have hown : (h.setAllocation x user tag).tag x = tag := by
      refine (word_setWord_other isField_next isField_prev hx hx (by decide)).trans ?_
      exact (Memory.word_setWord ..).trans (Nat.mod_eq_of_lt ht)
    unfold linked
    split
    · rw [hlink]
      exact (word_setWord_other isField_next isField_prev hfront hx (by decide)).trans hown
    · exact hown
  · rw [user_linked hx hdvd hle hx, if_neg, if_pos rfl, Nat.mod_eq_of_lt hu]
    simp only [headerSize, granule]
    omega
  · rw [hlink]
    refine (user_linked hx hdvd hle hfront).trans ?_
    by_cases hpad : headerSize < user - x
    · rw [if_pos ⟨hpad, rfl⟩, if_pos hpad, Nat.mod_eq_of_lt hlt]
    · rw [if_neg (fun h => hpad h.1), if_neg hpad, if_pos, Nat.mod_eq_of_lt hu]
      simp only [headerSize, granule] at *
      omega

end Linked

theorem trades_linked (tag : Nat) (T : Trades h L h' L' none (some b)) (hs : KeepsStale h L h' L')
    (hdvd : granule ∣ user) (hle : b.offset + headerSize ≤ user)
    (hlt : user < b.offset + b.size) :
    Trades h L (linked h' b.offset user tag) L' none (some b) := by
  have hb := T.layout.granule_dvd T.new_mem
  have hend := (T.layout.valid.tiles.bounds T.new_mem).2.1
  have hcap := T.layout.capacity_lt
  have heq : linked h' b.offset user tag =
      { h' with memory := (linked h' b.offset user tag).memory } := by
    unfold linked
    split <;> rfl
  have hstale : InheritsStale h L (linked h' b.offset user tag) L' (some b) := by
    intro y hy
    have hmark := hy.marked
    rw [isUsed_linked hb hdvd hle hy.granule_dvd] at hmark
    have hne := hy.ne b T.new_mem (T.fresh b rfl).1
    have hcapacity : y < h'.capacity := (congrArg Heap.capacity heq) ▸ hy.lt_capacity
    obtain ⟨hx, he⟩ := hs y ⟨hcapacity, hy.granule_dvd, hmark, hy.ne⟩
    refine ⟨y, hx, ?_⟩
    rw [user_linked hb hdvd hle hy.granule_dvd, if_neg hne]
    split
    · next hlink =>
      refine .inr ⟨b, rfl, ?_, Nat.mod_eq_of_lt (by omega)⟩
      rw [user_linked hb hdvd hle hb, if_neg, if_pos rfl, Nat.mod_eq_of_lt (by omega)]
      · simp only [headerSize, granule] at *
        omega
      · simp only [headerSize, granule] at *
        omega
    · exact .inl he
  rw [heq] at hstale ⊢
  refine T.write (fun i hi => byte_linked_of_outside hle ?_) hstale
  simp only [prevField]
  omega

section Tags

variable {position : Nat} (hp : position ≤ noLabel)

theorem exists_alignment_eq (options : AllocationOptions) :
    ∃ k ≤ 30, options.alignment = 1 <<< k := by
  obtain ⟨k, hk⟩ := isPowerOfTwo_iff.mp options.isPowerOfTwo_alignment
  refine ⟨k, ?_, hk⟩
  have hle := options.le_limit
  simp only [hk, Nat.one_shiftLeft] at hle
  exact (Nat.pow_le_pow_iff_right Nat.one_lt_two).mp hle

include hp

theorem tagOf_lt (options : AllocationOptions) :
    tagOf options.alignment position < wordLimit := by
  obtain ⟨k, hk, he⟩ := exists_alignment_eq options
  rw [tagOf, he, Nat.one_shiftLeft, Nat.log2_two_pow]
  simp only [noLabel, wordLimit] at *
  omega

theorem alignmentOfTag_tagOf (options : AllocationOptions) :
    alignmentOfTag (tagOf options.alignment position) = options.alignment := by
  obtain ⟨k, hk, he⟩ := exists_alignment_eq options
  have hdiv : ((k <<< 24) + position) >>> 24 % 64 = k := by
    simp only [noLabel] at hp
    omega
  have hlog : (1 <<< k).log2 = k := by rw [Nat.one_shiftLeft, Nat.log2_two_pow]
  rw [alignmentOfTag, tagOf, he, hlog, hdiv]

end Tags

theorem granule_dvd_alignment (options : AllocationOptions) : granule ∣ options.alignment := by
  obtain ⟨k, hk⟩ := isPowerOfTwo_iff.mp options.isPowerOfTwo_alignment
  have hle := options.granule_le
  rw [hk, Nat.one_shiftLeft] at hle ⊢
  exact Nat.pow_dvd_pow 2 ((Nat.pow_le_pow_iff_right (n := 4) Nat.one_lt_two).mp hle)

section Placing

variable {position : Nat} (T : Trades a.heap L h L' none (some b)) (hp : position ≤ noLabel)
  (hdvd : granule ∣ user) (hle : b.offset + headerSize ≤ user)
  (haligned : options.alignment ∣ a.region.address user)

include T hp hdvd hle haligned

theorem isPlaced_linked (hfits : user + max bytes 1 ≤ b.offset + b.size) (label : Label) :
    IsPlaced { a with heap := linked h b.offset user (tagOf options.alignment position) }
      ⟨a.region.address user, bytes, label, options⟩ b user := by
  have hbounds := T.layout.valid.tiles.bounds T.new_mem
  have hcap := T.layout.capacity_lt
  obtain ⟨htag, huser, hword⟩ := linked_words (h := h) (T.layout.granule_dvd T.new_mem) hdvd hle
    (by omega) (tagOf_lt hp options)
  refine ⟨(T.fresh b rfl).1, rfl, hdvd, hle, hfits, huser, ?_, ?_, haligned⟩
  · rw [blockAt]
    dsimp only
    rw [hword]
    by_cases hpad : headerSize < user - b.offset
    · rw [if_pos hpad, if_neg (by omega)]
    · rw [if_neg hpad, if_pos rfl]
      omega
  · dsimp only
    rw [htag, alignmentOfTag_tagOf hp]

theorem exists_isPlaced_furnish {a' : Allocator} (hs : KeepsStale a.heap L h L')
    (hregion : a'.region = a.region)
    (hheap : a'.heap = furnish h b.offset user data (tagOf options.alignment position))
    (hdata : granule ∣ data) (hbytes : max bytes 1 ≤ data)
    (hfits : user + data ≤ b.offset + b.size) :
    ∃ L'' b', Trades a.heap L a'.heap L'' none (some b') ∧ b'.offset = b.offset ∧
      a'.heap.tag b.offset = tagOf options.alignment position ∧
      ∀ label, a'.IsPlaced ⟨a.region.address user, bytes, label, options⟩ b' user := by
  have hb := T.layout.granule_dvd T.new_mem
  have hbounds := T.layout.valid.tiles.bounds T.new_mem
  have hcap := T.layout.capacity_lt
  have hlt : user < b.offset + b.size := by omega
  have T₁ := trades_linked (tagOf options.alignment position) T hs hdvd hle hlt
  have htag := (linked_words (h := h) hb hdvd hle (by omega) (tagOf_lt hp options)).1
  have P : ∀ label, IsPlaced _ ⟨a.region.address user, bytes, label, options⟩ b user :=
    isPlaced_linked T hp hdvd hle haligned (by omega)
  rw [furnish_eq] at hheap
  by_cases hpad : headerSize < user - b.offset
  · rw [if_pos hpad] at hheap
    have hneeded : granule ∣ user - b.offset + data := Nat.dvd_add (Nat.dvd_sub hdvd hb) hdata
    obtain ⟨L'', b', T₂, ho, hle', -, hs₂⟩ := T₁.layout.shrink T₁.settled T₁.new_mem
      (T₁.fresh b rfl).1
      (by omega) hneeded (by omega)
    rw [← hheap] at T₂ hs₂
    have hu' := (T₂.fresh b' rfl).1
    have hkept : ∀ i, b.offset + 8 ≤ i → i < user → a'.heap.memory.byte i = _ :=
      fun i hlo hhi => T₂.kept i ⟨b, T₁.new_mem, (T₁.fresh b rfl).1, hlo, by omega⟩
        ⟨b', T₂.new_mem, hu', by omega, by omega⟩
    refine ⟨L'', b', T₁.trans_cut T₂ hs₂ ho, ho, ?_, fun label =>
      (P label).congr hregion ho hu' rfl rfl (by dsimp only; omega) hkept⟩
    refine Eq.trans (Memory.word_congr fun i hlo hhi => hkept i hlo ?_) htag
    simp only [prevField, headerSize] at hhi hle
    omega
  · rw [if_neg hpad] at hheap
    rw [← hheap] at T₁ htag
    exact ⟨L', b, T₁, rfl, htag, fun label => (P label).congr hregion rfl (T₁.fresh b rfl).1 rfl rfl
      (by dsimp only; omega) fun i _ _ => by rw [hheap]⟩

end Placing

theorem requestSize?_eq_some_iff {total : Nat} :
    requestSize? bytes options.alignment = some (data, total) ↔
      ceilTo granule (max bytes 1) = data ∧ data + options.alignment = total ∧
        total < wordLimit := by
  have hge := options.granule_le
  have hle := options.le_limit
  have hsub : wrappingSub sizeLimit options.alignment granule = options.alignment - granule :=
    wrappingSub_eq hge (by simp only [sizeLimit]; omega)
  unfold requestSize?
  rw [hsub]
  constructor
  · intro hs
    cases hd : dataSize? bytes with
    | none => simp only [hd, reduceCtorEq] at hs
    | some d =>
    cases hb : checkedAdd d headerSize with
    | none => simp only [hd, hb, reduceCtorEq] at hs
    | some bare =>
    simp only [hd, hb, Option.map_eq_some_iff, Option.bind_eq_some_iff, Prod.mk.injEq] at hs
    obtain ⟨total, ⟨sum, hsum, htotal⟩, rfl, rfl⟩ := hs
    simp only [checkedAdd, Option.ite_none_right_eq_some, Option.some.injEq] at hb hsum
    simp only [asWord?, Option.ite_none_right_eq_some, Option.some.injEq] at htotal
    obtain ⟨-, rfl⟩ := hb
    obtain ⟨-, rfl⟩ := hsum
    obtain ⟨hword, rfl⟩ := htotal
    refine ⟨(ceilTo?_eq_some_iff.mp hd).2, ?_, hword⟩
    simp only [granule, headerSize] at *
    omega
  · rintro ⟨rfl, rfl, hword⟩
    have hround := le_ceilTo (max bytes 1) (show 0 < granule by decide)
    have hlimit : wordLimit + wordLimit ≤ sizeLimit := by decide
    have hsum : ceilTo granule (max bytes 1) + headerSize + (options.alignment - granule) =
        ceilTo granule (max bytes 1) + options.alignment := by
      simp only [granule, headerSize] at *
      omega
    have hd : dataSize? bytes = some (ceilTo granule (max bytes 1)) :=
      if_pos (by simp only [granule] at *; omega)
    have hb : checkedAdd (ceilTo granule (max bytes 1)) headerSize =
        some (ceilTo granule (max bytes 1) + headerSize) :=
      if_pos (by simp only [granule, headerSize] at *; omega)
    rw [hd]
    dsimp only
    rw [hb]
    dsimp only
    rw [checkedAdd, hsum, if_pos (by omega), Option.bind_some, asWord?, if_pos hword,
      Option.map_some]

theorem requestSize?_eq_some {total : Nat}
    (hs : requestSize? bytes options.alignment = some (data, total)) :
    max bytes 1 ≤ data ∧ granule ∣ data ∧ total = data + options.alignment := by
  obtain ⟨rfl, rfl, -⟩ := requestSize?_eq_some_iff.mp hs
  exact ⟨le_ceilTo _ (by decide), dvd_ceilTo _ _, rfl⟩

/-- What may come of a request: nothing, a block that nobody gets, or an allocation. -/
inductive Allocates (a : Allocator) (L : Layout) (bytes : Nat) (label : Label)
    (options : AllocationOptions) : Outcome Allocator (Option Nat) → Prop where
  | refused {log : List Record} : Allocates a L bytes label options ⟨none, a, log⟩
  /-- The aligned address left the range of addresses. -/
  | lost {heap : Heap} {L' : Layout} {b : Block} {log : List Record} :
      ¬ a.region.InRange → Trades a.heap L heap L' none (some b) →
        Allocates a L bytes label options ⟨none, { a with heap }, log⟩
  | placed {a' : Allocator} {pointer : Nat} {L' : Layout} {b : Block} {user : Nat}
      {log : List Record} : a'.HasLayout L' → a'.region = a.region → a'.poisoned = false →
        Trades a.heap L a'.heap L' none (some b) →
          (∀ label, a'.IsPlaced ⟨pointer, bytes, label, options⟩ b user) → KeepsBooks a L a' L' →
            a'.peak = max a.peak a'.allocatedBytes →
              a'.labels = (a.recordLabel label).state.labels →
                a'.label? (a'.heap.tag b.offset) = a'.labels[(a.recordLabel label).answer]? →
                  Allocates a L bytes label options ⟨some pointer, a', log⟩

/-- Recording a label changes nothing but the labels, and answers a position for its tag. -/
structure Records (a recorded : Allocator) (position : Nat) : Prop where
  heap_eq : recorded.heap = a.heap
  region_eq : recorded.region = a.region
  poisoned_eq : recorded.poisoned = a.poisoned
  allocations_eq : recorded.allocations = a.allocations
  bytes_eq : recorded.allocatedBytes = a.allocatedBytes
  peak_eq : recorded.peak = a.peak
  labels : a.labels.toList <+: recorded.labels.toList
  labels_le : recorded.labels.size ≤ noLabel
  position_eq : position = noLabel ∨ position < recorded.labels.size

theorem Records.position_le {recorded : Allocator} {position : Nat}
    (R : Records a recorded position) : position ≤ noLabel := by
  have hle := R.labels_le
  rcases R.position_eq with he | hlt <;> omega

theorem records_recordLabel (hl : a.labels.size ≤ noLabel) (label : Label) :
    Records a (a.recordLabel label).state (a.recordLabel label).answer := by
  unfold recordLabel
  split
  · next i hi =>
    obtain ⟨hlt, -⟩ := Array.findIdx?_eq_some_iff_getElem.mp hi
    exact ⟨rfl, rfl, rfl, rfl, rfl, rfl, List.prefix_rfl, hl, Or.inr hlt⟩
  · split
    · exact ⟨rfl, rfl, rfl, rfl, rfl, rfl, List.prefix_rfl, hl, Or.inl rfl⟩
    · next hlt =>
      refine ⟨rfl, rfl, rfl, rfl, rfl, rfl, ?_, ?_, Or.inr ?_⟩
      · simp
      · simp
        omega
      · simp

@[simp] theorem heap_recordLabel (a : Allocator) (label : Label) :
    (a.recordLabel label).state.heap = a.heap := by
  unfold recordLabel
  split
  · rfl
  · split <;> rfl

def LabelsApart (a : Allocator) : Prop := (a.labels.toList.map Label.key).Nodup

theorem LabelsApart.recordLabel_eq (h : a.LabelsApart) {position : Nat}
    (hl : a.labels[position]? = some label) : a.recordLabel label = .quiet position a := by
  obtain ⟨hlt, rfl⟩ := Array.getElem?_eq_some_iff.mp hl
  unfold recordLabel
  cases hi : a.labels.findIdx? (·.key == a.labels[position].key) with
  | none =>
    have hnone := Array.findIdx?_eq_none_iff.mp hi _ (Array.getElem_mem hlt)
    simp at hnone
  | some i =>
    obtain ⟨hlt', hkey, -⟩ := Array.findIdx?_eq_some_iff_getElem.mp hi
    have hi' : i < (a.labels.toList.map Label.key).length := by simpa using hlt'
    have hp : position < (a.labels.toList.map Label.key).length := by simpa using hlt
    have hsame : (a.labels.toList.map Label.key)[i] =
        (a.labels.toList.map Label.key)[position] := by
      simpa using hkey
    rw [(List.Nodup.getElem_inj_iff h).mp hsame]

theorem recordLabel_congr {a' : Allocator} (hl : a'.labels = a.labels) (label : Label) :
    (a'.recordLabel label).state.labels = (a.recordLabel label).state.labels ∧
      (a'.recordLabel label).answer = (a.recordLabel label).answer := by
  unfold recordLabel
  rw [hl]
  split
  · exact ⟨hl, rfl⟩
  · split
    · exact ⟨hl, rfl⟩
    · exact ⟨rfl, rfl⟩

theorem labelOfTag_tagOf {position : Nat} (alignment : Nat) (hp : position ≤ noLabel) :
    labelOfTag (tagOf alignment position) = position := by
  simp only [labelOfTag, tagOf, noLabel, Nat.shiftLeft_eq] at *
  omega

theorem address_le {start alignment : Nat} (hs : granule ∣ start) (ha : granule ∣ alignment)
    (hpos : 0 < alignment) : start ≤ ceilTo alignment start ∧
      ceilTo alignment start + granule ≤ start + alignment ∧ granule ∣ ceilTo alignment start := by
  have hlt := ceilTo_lt start hpos
  have hdvd : granule ∣ ceilTo alignment start := Nat.dvd_trans ha (dvd_ceilTo alignment start)
  refine ⟨le_ceilTo start hpos, ?_, hdvd⟩
  obtain ⟨i, hi⟩ := hs
  obtain ⟨j, hj⟩ := ha
  obtain ⟨k, hk⟩ := hdvd
  rw [hk] at hlt ⊢
  simp only [granule] at *
  omega

theorem exists_user (hregion : granule ∣ a.region.start) (hb : granule ∣ b.offset)
    (hsize : data + options.alignment ≤ b.size) :
    ∃ user, ceilTo options.alignment (a.region.address (b.offset + headerSize)) =
      a.region.address user ∧ granule ∣ user ∧ b.offset + headerSize ≤ user ∧
        user + data ≤ b.offset + b.size := by
  have hstart : granule ∣ a.region.address (b.offset + headerSize) :=
    Nat.dvd_add hregion (Nat.dvd_add hb (Nat.dvd_refl granule))
  obtain ⟨hlo, hhi, hdvd⟩ := address_le hstart (granule_dvd_alignment options)
    (pos_of_isPowerOfTwo options.isPowerOfTwo_alignment)
  obtain ⟨user, huser⟩ := Nat.exists_eq_add_of_le (Nat.le_trans (Nat.le_add_right _ _) hlo)
  rw [huser] at hlo hhi hdvd
  simp only [Region.address] at hlo hhi
  refine ⟨user, huser, (Nat.dvd_add_right hregion).mp hdvd, by omega, ?_⟩
  simp only [headerSize, granule] at *
  omega

theorem HasLayout.place {recorded : Allocator} {position : Nat} {log : List Record}
    (H : a.HasLayout L) (T : Trades a.heap L h L' none (some b)) (hs : KeepsStale a.heap L h L')
    (R : Records { a with heap := h } recorded position)
    (hlabels : recorded.labels = (a.recordLabel label).state.labels)
    (hanswer : position = (a.recordLabel label).answer) (hpoisoned : a.poisoned = false)
    (hdvd : granule ∣ user) (hle : b.offset + headerSize ≤ user) (hdata : granule ∣ data)
    (hbytes : max bytes 1 ≤ data) (hfits : user + data ≤ b.offset + b.size)
    (haligned : options.alignment ∣ a.region.address user) :
    Allocates a L bytes label options ⟨some (a.region.address user),
      Allocator.countAllocation { recorded with
        heap := furnish recorded.heap b.offset user data (tagOf options.alignment position) }
        b.offset, log⟩ := by
  have hposition := R.position_le
  have hheap : recorded.heap = h := R.heap_eq
  rw [hheap]
  let placed : Allocator := Allocator.countAllocation { recorded with
    heap := furnish h b.offset user data (tagOf options.alignment position) } b.offset
  have hregion : placed.region = a.region := R.region_eq
  obtain ⟨L'', b', T', ho, htag, P⟩ :=
    exists_isPlaced_furnish T hposition hdvd hle haligned hs hregion rfl hdata hbytes hfits
  have hsize : placed.heap.blockSize b.offset = b'.size := ho ▸ T'.layout.blockSize_eq T'.new_mem
  have htag' : labelOfTag (placed.heap.tag b'.offset) = position := by
    rw [ho, htag, labelOfTag_tagOf _ hposition]
  have hknown : placed.KnowsTag (placed.heap.tag b'.offset) := by
    rw [KnowsTag, htag']
    exact R.position_eq
  have hlabel : placed.label? (placed.heap.tag b'.offset) =
      placed.labels[(a.recordLabel label).answer]? := by
    rw [label?, htag', hanswer]
  have hcount : placed.allocations = a.allocations + 1 := congrArg (· + 1) R.allocations_eq
  have hsum : placed.allocatedBytes = a.allocatedBytes + b'.size := by
    rw [← hsize]
    exact congrArg (· + placed.heap.blockSize b.offset) R.bytes_eq
  have hpeak : placed.peak = max a.peak placed.allocatedBytes :=
    congrArg (max · placed.allocatedBytes) R.peak_eq
  exact .placed (H.of_trades T' hregion R.labels_le) hregion (R.poisoned_eq.trans hpoisoned) T' P
    (.enter H T' hcount hsum R.labels hknown R.poisoned_eq) hpeak hlabels hlabel

theorem HasLayout.allocates (H : a.HasLayout L) (bytes : Nat) (label : Label)
    (options : AllocationOptions) :
    Allocates a L bytes label options (a.allocateAligned bytes label options.alignment) := by
  unfold allocateAligned
  split
  · exact .refused
  next hpoisoned =>
  cases hs : requestSize? bytes options.alignment with
  | none => exact .refused
  | some size =>
  obtain ⟨data, total⟩ := size
  obtain ⟨hbytes, hdata, rfl⟩ := requestSize?_eq_some hs
  dsimp only
  cases ha : a.heap.allocate (data + options.alignment) with
  | none => exact .refused
  | some taken =>
  obtain ⟨block, heap⟩ := taken
  dsimp only
  obtain ⟨L', b, T, rfl, hsize, hkeeps⟩ := H.heap.allocate H.settled
    (Nat.dvd_add hdata (granule_dvd_alignment options)) (by omega) ha
  have hend := (T.layout.valid.tiles.bounds T.new_mem).2.1
  have hcap := H.capacity_le
  have hlimit := H.heap.capacity_lt
  rw [T.capacity] at hend
  obtain ⟨user, huser, hdvd, hle, hfits⟩ :=
    exists_user H.granule_dvd (T.layout.granule_dvd T.new_mem) hsize
  cases hc : ceilTo? sizeLimit options.alignment (a.region.address (b.offset + headerSize)) with
  | none =>
    refine .lost (fun hr => ?_) T
    have hout := ceilTo?_eq_none_iff.mp hc
    have hge : granule ≤ data := Nat.le_of_dvd (by omega) hdata
    simp only [Region.address, Region.InRange, headerSize, granule] at *
    omega
  | some pointer =>
    obtain ⟨-, rfl⟩ := ceilTo?_eq_some_iff.mp hc
    have haligned := dvd_ceilTo options.alignment (a.region.address (b.offset + headerSize))
    have hback : (a.region.address user - a.region.start) % wordLimit = user := by
      rw [Region.address, Nat.add_sub_cancel_left, Nat.mod_eq_of_lt (by omega)]
    rw [huser] at haligned ⊢
    dsimp only
    rw [hback]
    obtain ⟨hlabels, hanswer⟩ :=
      @recordLabel_congr a { a with heap } rfl label
    exact H.place T hkeeps (records_recordLabel (a := { a with heap }) H.labels_le label) hlabels
      hanswer (Bool.eq_false_iff.mpr hpoisoned) hdvd hle hdata hbytes hfits haligned

end MemoryKit.Allocator
