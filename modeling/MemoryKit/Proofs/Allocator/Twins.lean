import MemoryKit.Proofs.Allocator.Auditing
import MemoryKit.Proofs.Heap.Twins

/-! # Allocators with one layout

Two allocators of one region whose heaps have one layout serve the same requests. They answer the
same pointers, and their heaps have one layout again. What else lies in their memories and which
labels they know has no part in that.
-/

namespace MemoryKit.Allocator

open Heap

variable {a a' : Allocator} {g g' h h' : Heap} {L L₁ : Layout} {b c : Block}
  {user user' data tag tag' bytes : Nat} {x : Holding} {label label' : Label}
  {options : AllocationOptions}

def Agree (r r' : Outcome Allocator (Option Nat)) : Prop :=
  r.answer = r'.answer ∧ ∃ L, Heap.Twins r.state.heap r'.state.heap L

theorem twins_furnish (T : Trades g L h L₁ none (some b)) (T' : Trades g' L h' L₁ none (some b))
    (hs : KeepsStale g L h L₁) (hs' : KeepsStale g' L h' L₁) (hdvd : granule ∣ user)
    (hle : b.offset + headerSize ≤ user) (hdata : granule ∣ data) (hpos : 0 < data)
    (hfits : user + data ≤ b.offset + b.size) :
    ∃ L₂, Heap.Twins (furnish h b.offset user data tag)
      (furnish h' b.offset user data tag') L₂ := by
  have T₁ := trades_linked tag T hs hdvd hle (by omega)
  have T₁' := trades_linked tag' T' hs' hdvd hle (by omega)
  have W : Heap.Twins _ _ L₁ := ⟨T₁.settled, T₁.layout, T₁'.layout⟩
  rw [furnish_eq, furnish_eq]
  split
  · exact W.shrink T.new_mem (T.fresh b rfl).1 (by omega)
      (Nat.dvd_add (Nat.dvd_sub hdvd (T.layout.granule_dvd T.new_mem)) hdata)
  · exact ⟨L₁, W⟩

section Requests

variable (H : a.HasLayout L) (H' : a'.HasLayout L) (hregion : a'.region = a.region)
  (hp : a.poisoned = false) (hp' : a'.poisoned = false)

include H H' hregion hp hp'

theorem agree_allocateAligned (bytes : Nat) (label label' : Label) (options : AllocationOptions) :
    Agree (a.allocateAligned bytes label options.alignment)
      (a'.allocateAligned bytes label' options.alignment) := by
  have W : Heap.Twins a.heap a'.heap L := ⟨H.settled, H.heap, H'.heap⟩
  unfold allocateAligned
  rw [if_neg (Bool.eq_false_iff.mp hp), if_neg (Bool.eq_false_iff.mp hp')]
  cases hs : requestSize? bytes options.alignment with
  | none => exact ⟨rfl, L, W⟩
  | some size =>
  obtain ⟨data, total⟩ := size
  obtain ⟨hbytes, hdata, rfl⟩ := requestSize?_eq_some hs
  have hdvd : granule ∣ data + options.alignment :=
    Nat.dvd_add hdata (granule_dvd_alignment options)
  dsimp only
  cases ha : a.heap.allocate (data + options.alignment) with
  | none =>
    rw [W.allocate_eq_none hdvd (by omega) ha]
    exact ⟨rfl, L, W⟩
  | some taken =>
  obtain ⟨block, heap⟩ := taken
  obtain ⟨heap', L₁, ha', W₁⟩ := W.allocate_of_eq_some hdvd (by omega) ha
  obtain ⟨L₂, b, T, rfl, hsize, hkeeps⟩ := H.heap.allocate H.settled hdvd (by omega) ha
  obtain ⟨L₃, c, T', hc, -, hkeeps'⟩ := H'.heap.allocate H.settled hdvd (by omega) ha'
  obtain rfl := W₁.eq_of_trades T T'
  obtain rfl := T.layout.valid.tiles.eq_of_offset_eq T.new_mem T'.new_mem hc.symm
  rw [ha', hregion]
  dsimp only
  cases hceil : ceilTo? sizeLimit options.alignment (a.region.address (b.offset + headerSize)) with
  | none => exact ⟨rfl, L₁, W₁⟩
  | some pointer =>
    obtain ⟨-, rfl⟩ := ceilTo?_eq_some_iff.mp hceil
    obtain ⟨user, huser, hdvd, hle, hfits⟩ :=
      exists_user H.granule_dvd (T.layout.granule_dvd T.new_mem) hsize
    have hend := (T.layout.valid.tiles.bounds T.new_mem).2.1
    have hlimit := T.layout.capacity_lt
    have hback : (a.region.address user - a.region.start) % wordLimit = user := by
      rw [Region.address, Nat.add_sub_cancel_left, Nat.mod_eq_of_lt (by omega)]
    rw [huser]
    dsimp only
    rw [hback, heap_recordLabel, heap_recordLabel]
    exact ⟨rfl, twins_furnish T T' hkeeps hkeeps' hdvd hle hdata (by omega) hfits⟩

end Requests

section Resizing

variable (P : a.IsPlaced x b user) (P' : a'.IsPlaced x b user) (H : a.HasLayout L)
  (H' : a'.HasLayout L) (hb : b ∈ L.blocks) (hregion : a'.region = a.region)
  (hp : a.poisoned = false) (hp' : a'.poisoned = false)

include P P' H H' hb hregion hp hp'

theorem agree_move {bytes : Nat} (hmore : b.size - (user - b.offset) ≤ bytes) :
    Agree (a.move x.pointer b.offset user bytes) (a'.move x.pointer b.offset user bytes) := by
  have A := agree_allocateAligned H H' hregion hp hp' bytes
    ((a.label? (a.heap.tag b.offset)).getD .resized)
    ((a'.label? (a'.heap.tag b.offset)).getD .resized) x.options
  have halloc := H.allocates bytes ((a.label? (a.heap.tag b.offset)).getD .resized) x.options
  have halloc' := H'.allocates bytes ((a'.label? (a'.heap.tag b.offset)).getD .resized) x.options
  cases hr : a.allocateAligned bytes ((a.label? (a.heap.tag b.offset)).getD .resized)
    x.options.alignment with
  | mk answer a₁ log =>
  cases hr' : a'.allocateAligned bytes ((a'.label? (a'.heap.tag b.offset)).getD .resized)
    x.options.alignment with
  | mk answer' a₁' log' =>
  rw [hr, hr'] at A
  rw [hr] at halloc
  rw [hr'] at halloc'
  obtain ⟨hanswer, L₁, W⟩ := A
  obtain rfl : answer = answer' := hanswer
  cases answer with
  | none =>
    rw [P.move_eq_of_refused hr, P'.move_eq_of_refused hr']
    exact ⟨rfl, L₁, W⟩
  | some moved =>
  cases halloc with
  | @placed _ _ L₂ c user₁ _ H₁ hregion₁ hpoisoned T P₁ =>
  cases halloc' with
  | @placed _ _ L₃ c' user₁' _ H₁' hregion₁' hpoisoned' T' P₁' =>
  obtain rfl := W.eq_of_trades T T'
  have hsame : a₁'.region = a₁.region := hregion₁'.trans (hregion.trans hregion₁.symm)
  obtain ⟨rfl, rfl⟩ := (P₁ x.label).eq_of_region (P₁' x.label) H₁ T.new_mem T'.new_mem hsame rfl
  have hfits := (P₁ x.label).fits
  have hlt := P.user_lt
  have hfront := P.header_le
  dsimp only at hfits
  have hdvd := P.granule_dvd_moved H hb hmore
  rw [P.move_eq hb T (P₁ x.label) H H₁ hr hregion₁ hpoisoned rfl rfl hdvd,
    P'.move_eq hb T' (P₁' x.label) H' H₁' hr' hregion₁' hpoisoned' rfl rfl hdvd]
  have T₂ := P.trades_copied hb T (P₁ x.label) H hdvd (by omega) (by omega)
  have T₂' := P'.trades_copied hb T' (P₁' x.label) H' hdvd (by omega) (by omega)
  have W₂ : Heap.Twins _ _ L₂ := ⟨T₂.settled, T₂.layout, T₂'.layout⟩
  exact ⟨rfl, W₂.free (T.mem_of_mem P.used hb (by simp)) P.used⟩

theorem agree_resize (bytes : Nat) :
    Agree (a.resize x.pointer b.offset user bytes) (a'.resize x.pointer b.offset user bytes) := by
  have W : Heap.Twins a.heap a'.heap L := ⟨H.settled, H.heap, H'.heap⟩
  have hdvd : granule ∣ user - b.offset := Nat.dvd_sub P.granule_dvd (H.heap.granule_dvd hb)
  have hfront := P.header_le
  unfold Allocator.resize
  cases hn : neededSize? bytes (user - b.offset) with
  | none => exact ⟨rfl, L, W⟩
  | some needed =>
  obtain ⟨data, rfl, hbytes, hdata, hround⟩ := neededSize?_eq_some hn
  have hneeded : granule ∣ data + (user - b.offset) := Nat.dvd_add hdata hdvd
  dsimp only
  rw [H.heap.blockSize_eq hb, H'.heap.blockSize_eq hb]
  split
  · exact ⟨rfl, W.shrink hb P.used (by omega) hneeded⟩
  next hlt =>
  have hgrow := W.isSome_grow hb (data + (user - b.offset))
  cases hg : a.heap.grow b.offset (data + (user - b.offset)) with
  | none =>
    rw [hg] at hgrow
    rw [Option.not_isSome_iff_eq_none.mp (Bool.eq_false_iff.mp hgrow.symm)]
    exact agree_move P P' H H' hb hregion hp hp' (P.usable_le H hb hdata hround hlt)
  | some h =>
    rw [hg] at hgrow
    obtain ⟨h', hg'⟩ := Option.isSome_iff_exists.mp hgrow.symm
    rw [hg']
    exact ⟨rfl, W.grow hb P.used (by omega) hneeded (by omega) hg hg'⟩

theorem agree_reallocate (bytes : Nat) :
    Agree (a.reallocate x.pointer bytes) (a'.reallocate x.pointer bytes) := by
  unfold Allocator.reallocate
  rw [if_neg P.pointer_ne_zero, if_neg P.pointer_ne_zero, if_neg (Bool.eq_false_iff.mp hp),
    if_neg (Bool.eq_false_iff.mp hp'), P.locate_eq H hb, P'.locate_eq H' hb]
  exact agree_resize P P' H H' hb hregion hp hp' bytes

end Resizing

end MemoryKit.Allocator
