import Mathlib.Algebra.Group.Nat.Defs
import MemoryKit.Proofs.BlockPool.Lifo

/-! # Where the blocks of a pool lie

The blocks of a pool start at the multiples of its stride, and converting between indices and
addresses is exact. A block reaches no further than to the start of the next one, so the bytes
written through one block are found there again, whatever happens to the others.
-/

namespace MemoryKit

def overlay (bytes old : List UInt8) : List UInt8 :=
  bytes.take old.length ++ old.drop bytes.length

theorem Memory.read_write_take (m : Memory) (offset count : Nat) (bytes : List UInt8) :
    (m.write offset (bytes.take count)).read offset count =
      overlay bytes (m.read offset count) := by
  apply List.ext_getElem
  · simp only [overlay, length_read, List.length_append, List.length_take, List.length_drop]
    omega
  intro i hi _
  rw [length_read] at hi
  simp only [overlay, read, byte_write, List.getElem_map, List.getElem_range, List.length_map,
    List.length_range, List.getElem_append, List.length_take, Nat.add_sub_cancel_left]
  by_cases hlt : i < bytes.length
  · rw [if_pos (by omega), dif_pos (by omega), List.getElem_take, List.getElem_eq_getD 0]
    simp [hi]
  · rw [if_neg (by omega), dif_neg (by omega)]
    simp only [List.getElem_drop, List.getElem_map, List.getElem_range]
    congr 2
    omega

namespace BlockPool

variable {p : BlockPool} {arena : Arena} {blockSize capacity alignment stride i j : Nat}
  {free held : List Nat}

/-- What it takes to cut a region into blocks of a size, all of them aligned. -/
structure Admits (r : Region) (blockSize capacity alignment : Nat) : Prop where
  capacity_le : capacity ≤ maxPoolCapacity
  minBlockSize_le : minBlockSize ≤ blockSize
  alignment_eq : ∃ k, alignment = 2 ^ k
  rounding_lt : blockSize + (alignment - 1) < sizeLimit
  bytes_lt : ceilTo alignment blockSize * capacity < sizeLimit
  dvd_start : alignment ∣ r.start
  bytes_le : ceilTo alignment blockSize * capacity ≤ r.size

theorem isPowerOfTwo_iff_two_pow {n : Nat} : isPowerOfTwo n = true ↔ ∃ k, n = 2 ^ k := by
  simp only [isPowerOfTwo_iff, Nat.one_shiftLeft]

theorem strideFor_eq_ok_iff :
    strideFor blockSize alignment = .ok stride ↔
      minBlockSize ≤ blockSize ∧ isPowerOfTwo alignment = true ∧
        blockSize + (alignment - 1) < sizeLimit ∧ ceilTo alignment blockSize = stride := by
  unfold strideFor
  split
  · next hsize => exact iff_of_false nofun fun h => absurd h.1 (Nat.not_le.mpr hsize)
  next hsize =>
  split
  · next halign => exact iff_of_false nofun fun h => absurd h.2.1 (halign ▸ nofun)
  next halign =>
  rw [Bool.not_eq_false] at halign
  rw [← ceilTo?_eq_some_iff]
  cases ceilTo? sizeLimit alignment blockSize <;> simp [halign, Nat.not_lt.mp hsize]

theorem bytesFor_eq_ok_iff {bytes : Nat} :
    bytesFor stride capacity = .ok bytes ↔
      stride * capacity < sizeLimit ∧ stride * capacity = bytes := by
  unfold bytesFor checkedMul
  by_cases hlt : stride * capacity < sizeLimit <;> simp [hlt]

theorem isAligned_iff {r : Region} (h : isPowerOfTwo alignment = true) :
    r.isAligned alignment = true ↔ alignment ∣ r.start := by
  rw [Region.isAligned, h, Bool.true_and, beq_iff_eq, Nat.dvd_iff_mod_eq_zero]

theorem ofArena_eq_ok_iff {made : BlockPool × List Record} :
    ofArena arena blockSize capacity alignment = .ok made ↔
      Admits arena.toRegion blockSize capacity alignment ∧
        made = (untouched arena blockSize (ceilTo alignment blockSize) capacity, [.debug
          s!"Created pool of {capacity} blocks with a stride of {ceilTo alignment blockSize} bytes"
          ]) := by
  constructor
  · intro h
    unfold ofArena at h
    split at h
    · cases h
    next hcapacity =>
    split at h
    · cases h
    next stride hstride =>
    obtain ⟨hblock, hpower, hrounding, rfl⟩ := strideFor_eq_ok_iff.mp hstride
    split at h
    · cases h
    next haligned =>
    rw [Bool.not_eq_false, isAligned_iff hpower] at haligned
    split at h
    · cases h
    next bytes hbytes =>
    obtain ⟨hlt, rfl⟩ := bytesFor_eq_ok_iff.mp hbytes
    split at h
    · cases h
    next hsize =>
    cases h
    exact ⟨⟨Nat.not_lt.mp hcapacity, hblock, isPowerOfTwo_iff_two_pow.mp hpower, hrounding, hlt,
      haligned, Nat.not_lt.mp hsize⟩, rfl⟩
  · rintro ⟨h, rfl⟩
    have hpower := isPowerOfTwo_iff_two_pow.mpr h.alignment_eq
    have hstride := strideFor_eq_ok_iff.mpr ⟨h.minBlockSize_le, hpower, h.rounding_lt, rfl⟩
    have haligned : arena.isAligned alignment = true := (isAligned_iff hpower).mpr h.dvd_start
    have hbytes := bytesFor_eq_ok_iff.mpr ⟨h.bytes_lt, rfl⟩
    unfold ofArena
    rw [if_neg (Nat.not_lt.mpr h.capacity_le), hstride]
    simp only [haligned, Bool.true_eq_false, if_false, hbytes]
    rw [if_neg (Nat.not_lt.mpr h.bytes_le)]

namespace Admits

variable {r : Region}

theorem alignment_pos (h : Admits r blockSize capacity alignment) : 0 < alignment :=
  pos_of_isPowerOfTwo (isPowerOfTwo_iff_two_pow.mpr h.alignment_eq)

theorem blockSize_le (h : Admits r blockSize capacity alignment) :
    blockSize ≤ ceilTo alignment blockSize :=
  le_ceilTo blockSize h.alignment_pos

theorem fits (h : Admits r blockSize capacity alignment) :
    (Grid.mk r (ceilTo alignment blockSize) capacity).Fits where
  stride_pos := by
    have hle := h.blockSize_le
    have hmin := h.minBlockSize_le
    unfold minBlockSize at hmin
    show 0 < ceilTo alignment blockSize
    omega
  size_le := Nat.mul_comm _ _ ▸ h.bytes_le

end Admits

namespace Grid

variable {g : Grid}

theorem dvd_place (hstart : alignment ∣ g.region.start) (hstride : alignment ∣ g.stride) (i : Nat) :
    alignment ∣ g.place i :=
  Nat.dvd_add hstart (Nat.dvd_mul_left_of_dvd hstride i)

theorem mul_stride_add_le (hblock : blockSize ≤ g.stride) (hij : i < j) :
    i * g.stride + blockSize ≤ j * g.stride :=
  calc i * g.stride + blockSize ≤ i * g.stride + g.stride := Nat.add_le_add_left hblock _
    _ = (i + 1) * g.stride := (Nat.succ_mul i g.stride).symm
    _ ≤ j * g.stride := Nat.mul_le_mul_right _ hij

theorem place_add_le (hblock : blockSize ≤ g.stride) (hij : i < j) :
    g.place i + blockSize ≤ g.place j := by
  have hle := mul_stride_add_le hblock hij
  simp only [place, Region.address]
  omega

theorem place_add_le_end (h : g.Fits) (hblock : blockSize ≤ g.stride) (hi : i < g.capacity) :
    g.place i + blockSize ≤ g.region.start + g.region.size :=
  Nat.le_trans (place_add_le hblock hi) (Nat.add_le_add_left h.size_le _)

end Grid

theorem address?_eq (p : BlockPool) (i : Nat) :
    p.address? i = if i < p.grid.capacity then some (p.grid.place i) else none :=
  rfl

theorem owns_iff (h : p.grid.Fits) {address : Nat} :
    p.owns address = true ↔ ∃ i < p.capacity, address = p.grid.place i := by
  simp only [owns, Option.isSome_iff_exists, indexOf?_eq_some_iff h, eq_comm (a := address)]

def bytesOf (p : BlockPool) (i : Nat) : List UInt8 := p.arena.memory.read (p.offset i) p.blockSize

/-- What a block that held bytes holds after a call, going by what callers hold. -/
def Call.written (held : List Nat) (i : Nat) (old : List UInt8) : Call → List UInt8
  | .overwrite j bytes => if j = i ∧ j ∈ held then overlay bytes old else old
  | .allocate | .deallocate _ | .deallocateAt _ | .reset => old

def writtenAfter (p : BlockPool) (held : List Nat) (i : Nat) (old : List UInt8) :
    List Call → List UInt8
  | [] => old
  | c :: calls =>
    (p.serve c).state.writtenAfter (c.holding p.grid held (p.serve c).answer) i
      (c.written held i old) calls

theorem bytesOf_deallocate (p : BlockPool) (i j : Nat) :
    (p.deallocate j).2.bytesOf i = p.bytesOf i := by
  unfold deallocate
  split <;> rfl

theorem bytesOf_allocate (p : BlockPool) (i : Nat) : p.allocate.state.bytesOf i = p.bytesOf i := by
  unfold allocate
  split
  · rfl
  · split <;> rfl

theorem bytesOf_overwrite (hblock : p.blockSize ≤ p.stride) (i j : Nat) (bytes : List UInt8) :
    (p.overwrite j bytes).bytesOf i =
      if j = i ∧ p.isTaken j = true then overlay bytes (p.bytesOf i) else p.bytesOf i := by
  unfold overwrite
  split
  next htaken =>
    by_cases hij : j = i
    · subst hij
      rw [if_pos ⟨rfl, htaken⟩]
      exact Memory.read_write_take _ _ _ _
    · rw [if_neg fun h => hij h.1]
      refine Memory.read_write_of_disjoint ?_
      have hlen : (bytes.take p.blockSize).length ≤ p.blockSize := List.length_take_le _ _
      rcases Nat.lt_or_gt_of_ne hij with hlt | hlt
      · have hle := Grid.mul_stride_add_le (g := p.grid) hblock hlt
        exact .inr (Nat.le_trans (Nat.add_le_add_left hlen _) hle)
      · exact .inl (Grid.mul_stride_add_le (g := p.grid) hblock hlt)
  next htaken => rw [if_neg fun h => htaken h.2]

theorem blockSize_serve (p : BlockPool) (c : Call) : (p.serve c).state.blockSize = p.blockSize := by
  have hdeallocate (i : Nat) : (p.deallocate i).2.blockSize = p.blockSize := by
    unfold deallocate
    split <;> rfl
  cases c with
  | allocate =>
    simp only [serve, allocate]
    split
    · rfl
    · split <;> rfl
  | deallocate i => exact hdeallocate i
  | deallocateAt address =>
    simp only [serve, deallocateAt]
    split
    · rfl
    · exact hdeallocate _
  | reset => rfl
  | overwrite i bytes =>
    simp only [serve, overwrite]
    split <;> rfl

theorem bytesOf_serve (hblock : p.blockSize ≤ p.stride)
    (hheld : ∀ j, j ∈ held ↔ p.isTaken j = true) (c : Call) (i : Nat) :
    (p.serve c).state.bytesOf i = c.written held i (p.bytesOf i) := by
  cases c with
  | allocate => exact bytesOf_allocate p i
  | deallocate j => exact bytesOf_deallocate p i j
  | deallocateAt address =>
    simp only [serve, deallocateAt, Call.written]
    split
    · rfl
    · exact bytesOf_deallocate p i _
  | reset => rfl
  | overwrite j bytes =>
    simp only [serve, Call.written, hheld]
    exact bytesOf_overwrite hblock i j bytes

theorem HasStack.mem_held_iff (hs : p.HasStack free)
    (h : (held ++ free).Perm (List.range p.capacity)) (j : Nat) :
    j ∈ held ↔ p.isTaken j = true := by
  rw [hs.isTaken_iff, ← List.mem_range, ← h.mem_iff, List.mem_append]
  have hdisjoint := (List.nodup_append.mp (h.nodup_iff.mpr List.nodup_range)).2.2
  constructor
  · intro hj
    exact ⟨.inl hj, fun hfree => hdisjoint j hj j hfree rfl⟩
  · rintro ⟨hj | hj, hnot⟩
    · exact hj
    · exact absurd hj hnot

theorem HasStack.bytesOf_after (hs : p.HasStack free) (hfits : p.grid.Fits)
    (hblock : p.blockSize ≤ p.stride) (h : (held ++ free).Perm (List.range p.capacity))
    (calls : List Call) (i : Nat) :
    (p.after calls).bytesOf i = p.writtenAfter held i (p.bytesOf i) calls := by
  induction calls generalizing p held free with
  | nil => rfl
  | cons c calls ih =>
    obtain ⟨hs', hgrid, hanswer, -⟩ := hs.serve hfits c
    have hcapacity : (p.serve c).state.capacity = p.capacity := congrArg Grid.capacity hgrid
    have hstride : (p.serve c).state.stride = p.stride := congrArg Grid.stride hgrid
    have hstep := perm_holding hfits h c
    rw [← hanswer] at hstep
    have hrest := ih hs' (hgrid ▸ hfits) (by rw [blockSize_serve, hstride]; exact hblock)
      (by rw [hcapacity]; exact hstep)
    rw [bytesOf_serve hblock (hs.mem_held_iff h)] at hrest
    exact hrest

theorem HasStack.block?_eq (hs : p.HasStack free)
    (h : (held ++ free).Perm (List.range p.capacity)) (i : Nat) :
    p.block? i = if i ∈ held then some (p.bytesOf i) else none := by
  simp only [hs.mem_held_iff h]
  rfl

/--
Which regions a pool can be made of, where its blocks lie, and what they hold. A pool is made
exactly if the region admits the blocks. After any calls, converting between the indices and the
starts of the blocks is exact, and every other address is foreign. The blocks start aligned and lie
in the region, apart from one another. A block can be read while it is handed out, going by the
answers, and holds what was written through it: the calls that touch other blocks, return it, hand
it out again or reset the pool leave its bytes as they are.
-/
theorem exact_geometry (arena : Arena) (blockSize capacity alignment : Nat) :
    let stride := ceilTo alignment blockSize
    let place (i : Nat) := arena.start + i * stride
    ((∃ made, ofArena arena blockSize capacity alignment = .ok made) ↔
      Admits arena.toRegion blockSize capacity alignment) ∧
    ∀ fresh log, ofArena arena blockSize capacity alignment = .ok (fresh, log) → ∀ calls,
      let p := fresh.after calls
      (∀ i, p.address? i = if i < capacity then some (place i) else none) ∧
      (∀ a i, p.indexOf? a = some i ↔ i < capacity ∧ a = place i) ∧
      (∀ a, p.owns a = true ↔ ∃ i < capacity, a = place i) ∧
      (∀ i < capacity, i < nullIndex.toNat ∧ alignment ∣ place i ∧
        place i + blockSize ≤ arena.start + arena.size ∧ ∀ j < i, place j + blockSize ≤ place i) ∧
      ∀ i, p.block? i =
        if i ∈ fresh.heldAfter [] calls then
          some (fresh.writtenAfter [] i (arena.memory.read (i * stride) blockSize) calls)
        else none := by
  intro stride place
  refine ⟨?_, fun fresh log hmade calls => ?_⟩
  · constructor
    · rintro ⟨made, hmade⟩
      exact (ofArena_eq_ok_iff.mp hmade).1
    · intro hadmits
      exact ⟨_, ofArena_eq_ok_iff.mpr ⟨hadmits, rfl⟩⟩
  obtain ⟨hadmits, he⟩ := ofArena_eq_ok_iff.mp hmade
  cases he
  have hs := hasStack_untouched arena blockSize stride capacity
  have hcapacity := capacity_untouched arena blockSize stride capacity
  set fresh := untouched arena blockSize stride capacity
  have hgrid : fresh.grid = ⟨arena.toRegion, stride, capacity⟩ := congrArg (Grid.mk _ _) hcapacity
  have hfits : fresh.grid.Fits := hgrid ▸ hadmits.fits
  have hstart : ([] ++ List.range capacity).Perm (List.range fresh.capacity) :=
    .of_eq (congrArg List.range hcapacity.symm)
  obtain ⟨hs', hafter⟩ := hs.after hfits calls
  rw [hgrid] at hafter
  have hfits' : (fresh.after calls).grid.Fits := hafter ▸ hadmits.fits
  intro p
  have hcapacity' : p.capacity = capacity := congrArg Grid.capacity hafter
  have hperm := (hs.perm_heldAfter hfits hstart calls).trans
    (.of_eq (congrArg List.range (hcapacity.trans hcapacity'.symm)))
  have hplace : p.grid.place = place := congrArg Grid.place hafter
  refine ⟨fun i => ?_, fun a i => ?_, fun a => ?_, fun i hi => ⟨?_, ?_, ?_, fun j hj => ?_⟩,
    fun i => ?_⟩
  · rw [address?_eq, hplace, show p.grid.capacity = capacity from hcapacity']
  · rw [indexOf?_eq_some_iff hfits', hplace, hcapacity', eq_comm (a := a)]
  · rw [owns_iff hfits', hplace, hcapacity']
  · exact Nat.lt_of_lt_of_le hi (Nat.le_trans hadmits.capacity_le (by decide))
  · exact Grid.dvd_place (g := fresh.grid) hadmits.dvd_start (dvd_ceilTo alignment blockSize) i
  · exact Grid.place_add_le_end hfits hadmits.blockSize_le (Nat.lt_of_lt_of_eq hi hcapacity.symm)
  · exact Grid.place_add_le (g := fresh.grid) hadmits.blockSize_le hj
  · rw [hs'.block?_eq hperm, hs.bytesOf_after hfits hadmits.blockSize_le hstart calls i]
    rfl

def slackArena : Arena := .borrow 4096 70 .zeroed

def slackCalls : List Call :=
  [.allocate, .allocate, .overwrite 1 [1, 2, 3], .overwrite 0 (List.replicate 40 9), .deallocate 1,
    .overwrite 1 [7], .allocate, .overwrite 1 [4], .reset, .allocate, .allocate]

theorem exact_geometry_slack :
    ∃ fresh log, ofArena slackArena 20 2 16 = .ok (fresh, log) ∧
      (fresh.after slackCalls).address? 1 = some 4128 ∧
      (fresh.after slackCalls).indexOf? 4128 = some 1 ∧
      ¬ (fresh.after slackCalls).owns 4160 ∧
      (fresh.after slackCalls).block? 1 = some ([4, 2, 3] ++ List.replicate 17 0) := by
  have hadmits : Admits slackArena.toRegion 20 2 16 :=
    ⟨by decide, by decide, ⟨4, rfl⟩, by decide, by decide, by decide, by decide⟩
  obtain ⟨hmakes, hall⟩ := exact_geometry slackArena 20 2 16
  obtain ⟨⟨fresh, log⟩, hmade⟩ := hmakes.mpr hadmits
  obtain ⟨haddress, hindex, howns, -, hblock⟩ := hall fresh log hmade slackCalls
  refine ⟨fresh, log, hmade, haddress 1, (hindex 4128 1).mpr ⟨by decide, rfl⟩, ?_, ?_⟩
  · rw [howns]
    decide
  · obtain ⟨-, he⟩ := ofArena_eq_ok_iff.mp hmade
    cases he
    rw [hblock]
    decide +kernel

end BlockPool
end MemoryKit
