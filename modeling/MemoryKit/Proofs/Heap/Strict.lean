import MemoryKit.Heap.Check
import MemoryKit.Proofs.Heap.SizeClass

/-! # Reading a heap strictly

Here the walk over the blocks and the check are performed the way a machine performs them: sums and
differences have no result outside of their range, a word can be read only at an aligned offset
inside of the heap, and a loop goes on until it ends by itself or uses up all the steps that it is
given. Whatever the memory and the index hold, there is a result, and the inspections give the same.
-/

namespace MemoryKit.Heap

structure IsCapacity (capacity : Nat) : Prop where
  dvd : granule ∣ capacity
  lt : capacity < wordLimit

namespace Strict

def sum32? (a b : Nat) : Option Nat := if a + b < wordLimit then some (a + b) else none

def diff? (a b : Nat) : Option Nat := if b ≤ a then some (a - b) else none

theorem sum32?_eq {a b : Nat} (h : a + b < wordLimit) : sum32? a b = some (a + b) := if_pos h

theorem diff?_eq {a b : Nat} (h : b ≤ a) : diff? a b = some (a - b) := if_pos h

/-- Sums of words and sizes stay far below the limit of sizes. -/
theorem checkedAdd_eq {a b : Nat} (h : a + b < 4 * wordLimit) : checkedAdd a b = some (a + b) :=
  if_pos (Nat.lt_of_lt_of_le h (by decide))

def word? (capacity : Nat) (m : Memory) (offset : Nat) : Option Nat :=
  if offset % 4 = 0 ∧ offset + 4 ≤ capacity then some (m.word offset) else none

def field? (capacity : Nat) (m : Memory) (b field : Nat) : Option Nat :=
  (sum32? b field).bind (word? capacity m)

def blockSize? (capacity : Nat) (m : Memory) (b : Nat) : Option Nat :=
  (word? capacity m b).map sizeOfWord

def isUsed? (capacity : Nat) (m : Memory) (b : Nat) : Option Bool :=
  (word? capacity m b).map isUsedWord

def link? (capacity : Nat) (m : Memory) (b field : Nat) : Option (Option Nat) :=
  (field? capacity m b field).map linkOfWord

/-- The class of a size, by scans and shifts of words. -/
def classOf? (size : Nat) : Option SizeClass :=
  if size < SizeClass.linearLimit then some ⟨0, size / granule⟩
  else
    (diff? size.log2 8).bind fun bin =>
      (diff? size.log2 4).bind fun shift =>
        (diff? (size / (1 <<< shift)) SizeClass.subCount).map fun sub => ⟨bin + 1, sub⟩

section

variable {capacity : Nat} {m : Memory} {b size : Nat}

theorem sizeOfWord_le (w : Nat) : sizeOfWord w ≤ w := Nat.div_mul_le_self w granule

theorem sizeOfWord_lt (m : Memory) (offset : Nat) : sizeOfWord (m.word offset) < wordLimit :=
  Nat.lt_of_le_of_lt (sizeOfWord_le _) (m.word_lt offset)

theorem granule_dvd_sizeOfWord (w : Nat) : granule ∣ sizeOfWord w := Nat.dvd_mul_left ..

theorem granule_le_sizeOfWord {w : Nat} (h : sizeOfWord w ≠ 0) : granule ≤ sizeOfWord w :=
  Nat.le_of_dvd (Nat.pos_of_ne_zero h) (granule_dvd_sizeOfWord w)

variable (hc : IsCapacity capacity) (hb : granule ∣ b) (hlt : b < capacity)

include hc hb hlt

theorem field_bounds (field : Nat) (hf : field % 4 = 0) (hfield : field + 4 ≤ granule) :
    (b + field) % 4 = 0 ∧ b + field + 4 ≤ capacity := by
  have hdvd := hc.dvd
  unfold granule at hb hdvd hfield
  omega

theorem word?_eq : word? capacity m b = some (m.word b) :=
  if_pos (field_bounds hc hb hlt 0 rfl (by decide))

theorem field?_eq {field : Nat} (hf : field % 4 = 0) (hfield : field + 4 ≤ granule) :
    field? capacity m b field = some (m.word (b + field)) := by
  have hbounds := field_bounds hc hb hlt field hf hfield
  have hlimit := hc.lt
  rw [field?, sum32?_eq (by omega), Option.bind_some]
  exact if_pos hbounds

theorem blockSize?_eq : blockSize? capacity m b = some (sizeOfWord (m.word b)) := by
  rw [blockSize?, word?_eq hc hb hlt, Option.map_some]

theorem isUsed?_eq : isUsed? capacity m b = some (isUsedWord (m.word b)) := by
  rw [isUsed?, word?_eq hc hb hlt, Option.map_some]

theorem link?_eq {field : Nat} (hf : field % 4 = 0) (hfield : field + 4 ≤ granule) :
    link? capacity m b field = some (linkOfWord (m.word (b + field))) := by
  rw [link?, field?_eq hc hb hlt hf hfield, Option.map_some]

end

theorem classOf?_eq (size : Nat) : classOf? size = some (SizeClass.ofSize size) := by
  unfold classOf? SizeClass.ofSize
  split
  · rfl
  next hsize =>
  unfold SizeClass.linearLimit at hsize
  have hpos : size ≠ 0 := by omega
  have hlog : 8 ≤ size.log2 := (Nat.le_log2 hpos).mpr (Nat.not_lt.mp hsize)
  have hsub : SizeClass.subCount ≤ size / (1 <<< (size.log2 - 4)) := by
    rw [Nat.one_shiftLeft, Nat.le_div_iff_mul_le (Nat.two_pow_pos _)]
    calc SizeClass.subCount * 2 ^ (size.log2 - 4) = 2 ^ (4 + (size.log2 - 4)) := by
          rw [Nat.pow_add]
          rfl
      _ = 2 ^ size.log2 := by rw [Nat.add_sub_cancel' (by omega)]
      _ ≤ size := Nat.log2_self_le hpos
  rw [diff?_eq hlog, Option.bind_some, diff?_eq (by omega), Option.bind_some, diff?_eq hsub,
    Option.map_some]
  congr 2
  omega

/-- Combines the blocks from an offset on. The walk has to end before the steps are used up. -/
def walk {β : Type} (capacity : Nat) (m : Memory) (f : β → Block → Option β) (acc : β)
    (offset : Nat) : Nat → Option β
  | 0 => none
  | steps + 1 =>
    if offset < capacity then
      (blockSize? capacity m offset).bind fun size =>
        if size = 0 then some acc
        else
          (isUsed? capacity m offset).bind fun used =>
            (f acc ⟨offset, size, used⟩).bind fun acc =>
              (checkedAdd offset size).bind fun offset => walk capacity m f acc offset steps
    else some acc

end Strict

def blocksFrom (capacity : Nat) (m : Memory) (offset : Nat) : Nat → List Block
  | 0 => []
  | steps + 1 =>
    let size := sizeOfWord (m.word offset)
    if capacity ≤ offset ∨ size = 0 then []
    else ⟨offset, size, isUsedWord (m.word offset)⟩ :: blocksFrom capacity m (offset + size) steps

section Walk

variable {β : Type} {capacity offset steps : Nat} {m : Memory}

theorem run_foldBlocks_eq_foldl (f : β → Block → β) (acc : β) :
    (foldBlocks capacity f acc offset steps).run m =
      (blocksFrom capacity m offset steps).foldl f acc := by
  induction steps generalizing acc offset with
  | zero => rfl
  | succ steps ih =>
    rw [foldBlocks, blocksFrom]
    by_cases hend : capacity ≤ offset
    · rw [if_pos hend, if_pos (.inl hend)]
      rfl
    · rw [if_neg hend, Inspect.run_read]
      by_cases hsize : sizeOfWord (m.word offset) = 0
      · simp only [hsize, if_true, or_true]
        rfl
      · simp only [hsize, hend, or_self, if_false]
        exact ih _

theorem run_inspectBlocks (capacity : Nat) (m : Memory) :
    (inspectBlocks capacity).run m = blocksFrom capacity m 0 (maxBlocks capacity) := by
  rw [inspectBlocks, Inspect.run_bind, run_foldBlocks_eq_foldl, Inspect.run_done]
  simp

structure Block.BeginsIn (capacity : Nat) (b : Block) : Prop where
  dvd : granule ∣ b.offset
  lt : b.offset < capacity
  granule_le : granule ≤ b.size
  size_lt : b.size < wordLimit

theorem beginsIn_of_mem (hoffset : granule ∣ offset) {b : Block}
    (hb : b ∈ blocksFrom capacity m offset steps) : b.BeginsIn capacity := by
  induction steps generalizing offset with
  | zero => cases hb
  | succ steps ih =>
    rw [blocksFrom] at hb
    split at hb
    · cases hb
    next hgo =>
    obtain ⟨hlt, hsize⟩ := not_or.mp hgo
    rcases List.mem_cons.mp hb with rfl | hb
    · exact ⟨hoffset, Nat.not_le.mp hlt, Strict.granule_le_sizeOfWord hsize,
        Strict.sizeOfWord_lt m offset⟩
    · exact ih (Nat.dvd_add hoffset (Strict.granule_dvd_sizeOfWord _)) hb

/-- The blocks are no more than the granules of the heap, and only the last one may exceed it. -/
theorem sum_size_blocksFrom_le (hoffset : offset < capacity + wordLimit) :
    offset + ((blocksFrom capacity m offset steps).map Block.size).sum < capacity + wordLimit := by
  induction steps generalizing offset with
  | zero => exact hoffset
  | succ steps ih =>
    rw [blocksFrom]
    split
    · exact hoffset
    next hgo =>
    obtain ⟨hlt, -⟩ := not_or.mp hgo
    have hsize := Strict.sizeOfWord_lt m offset
    have hrest := ih (show offset + sizeOfWord (m.word offset) < capacity + wordLimit by omega)
    rw [List.map_cons, List.sum_cons, ← Nat.add_assoc]
    exact hrest

theorem length_blocksFrom_le : (blocksFrom capacity m offset steps).length ≤ steps := by
  induction steps generalizing offset with
  | zero => exact Nat.le_refl 0
  | succ steps ih =>
    rw [blocksFrom]
    split
    · exact Nat.zero_le _
    · exact Nat.succ_le_succ ih

/-- The walk ends in any memory, because every step goes on by at least a granule. -/
theorem Strict.walk_eq_foldlM (hc : IsCapacity capacity) (hoffset : granule ∣ offset)
    (hsteps : capacity ≤ offset + steps * granule) {given : Nat} (hgiven : steps < given)
    (f : β → Block → Option β) (acc : β) :
    walk capacity m f acc offset given = (blocksFrom capacity m offset steps).foldlM f acc := by
  induction steps generalizing acc offset given with
  | zero =>
    obtain ⟨given, rfl⟩ := Nat.exists_eq_add_of_lt hgiven
    rw [walk, if_neg (by omega)]
    rfl
  | succ steps ih =>
    obtain ⟨given, rfl⟩ : ∃ rest, given = rest + 1 := ⟨given - 1, by omega⟩
    rw [walk, blocksFrom]
    by_cases hend : capacity ≤ offset
    · rw [if_neg (Nat.not_lt.mpr hend), if_pos (.inl hend)]
      rfl
    have hlt := Nat.not_le.mp hend
    rw [if_pos hlt, blockSize?_eq hc hoffset hlt, Option.bind_some, isUsed?_eq hc hoffset hlt]
    by_cases hsize : sizeOfWord (m.word offset) = 0
    · rw [if_pos hsize, if_pos (.inr hsize)]
      rfl
    rw [if_neg hsize, if_neg (not_or.mpr ⟨hend, hsize⟩), Option.bind_some, List.foldlM_cons]
    have hbound : offset + sizeOfWord (m.word offset) < 4 * wordLimit := by
      have hlimit := hc.lt
      have hword := sizeOfWord_lt m offset
      omega
    have hnext : capacity ≤ offset + sizeOfWord (m.word offset) + steps * granule := by
      have hstep := granule_le_sizeOfWord hsize
      rw [Nat.succ_mul] at hsteps
      omega
    rw [checkedAdd_eq hbound]
    refine congrArg _ (funext fun acc => ?_)
    exact ih (Nat.dvd_add hoffset (granule_dvd_sizeOfWord _)) hnext (by omega) acc

end Walk

namespace Strict

def tally (seen : Nat × Nat) (b : Block) : Option (Nat × Nat) :=
  if b.used then some seen
  else (checkedAdd seen.1 1).map fun count => (count, max seen.2 b.size)

def free (capacity : Nat) (m : Memory) (steps : Nat) : Option (Nat × Nat) :=
  walk capacity m tally (0, 0) 0 steps

theorem foldlM_tally {bs : List Block} {count largest : Nat}
    (h : count + bs.length < 4 * wordLimit) :
    bs.foldlM tally (count, largest) = some (bs.foldl
      (fun (count, largest) b =>
        if b.used then (count, largest) else (count + 1, max largest b.size))
      (count, largest)) := by
  induction bs generalizing count largest with
  | nil => rfl
  | cons b bs ih =>
    rw [List.length_cons] at h
    rw [List.foldlM_cons, List.foldl_cons, tally]
    cases b.used with
    | true => exact ih (by omega)
    | false =>
      rw [if_neg nofun, checkedAdd_eq (by omega)]
      exact ih (by omega)

theorem capacity_le_maxBlocks {capacity : Nat} (hc : IsCapacity capacity) :
    capacity ≤ 0 + maxBlocks capacity * granule := by
  rw [Nat.zero_add, maxBlocks, Nat.div_mul_cancel hc.dvd]

theorem maxBlocks_lt {capacity : Nat} (hc : IsCapacity capacity) :
    maxBlocks capacity < wordLimit :=
  Nat.lt_of_le_of_lt (Nat.div_le_self ..) hc.lt

theorem free_eq {capacity steps : Nat} (hc : IsCapacity capacity) (m : Memory)
    (hsteps : maxBlocks capacity < steps) :
    free capacity m steps = some ((inspectFree capacity).run m) := by
  rw [free, walk_eq_foldlM hc (Nat.dvd_zero _) (capacity_le_maxBlocks hc) hsteps, inspectFree,
    run_foldBlocks_eq_foldl]
  refine foldlM_tally ?_
  have hlength : (blocksFrom capacity m 0 (maxBlocks capacity)).length ≤ maxBlocks capacity :=
    length_blocksFrom_le
  have hlimit := maxBlocks_lt hc
  omega

def survey (capacity : Nat) (m : Memory) (s : Survey) : Nat → Option (Except Fault Survey)
  | 0 => none
  | steps + 1 =>
    if s.offset < capacity then
      (link? capacity m s.offset backField).bind fun back =>
        if back ≠ s.before then some (.error (.brokenBackLink s.offset))
        else
          (blockSize? capacity m s.offset).bind fun size =>
            (checkedAdd s.offset size).bind fun stop =>
              if size = 0 ∨ capacity < stop then some (.error (.invalidSize s.offset size))
              else
                (isUsed? capacity m s.offset).bind fun used =>
                  if used = false ∧ s.afterFree then some (.error (.adjacentFree s.offset))
                  else
                    (checkedAdd s.freeBlocks (if used then 0 else 1)).bind fun freeBlocks =>
                      survey capacity m ⟨stop, some s.offset, !used, freeBlocks⟩ steps
    else some (.ok s)

theorem survey_eq {capacity steps given : Nat} (hc : IsCapacity capacity) (m : Memory) {s : Survey}
    (hoffset : granule ∣ s.offset) (hsteps : capacity ≤ s.offset + steps * granule)
    (hgiven : steps < given) (hfree : s.freeBlocks ≤ s.offset) :
    survey capacity m s given = some ((Heap.survey capacity s steps).run m) := by
  induction steps generalizing s given with
  | zero =>
    obtain ⟨given, rfl⟩ : ∃ rest, given = rest + 1 := ⟨given - 1, by omega⟩
    rw [survey, if_neg (by omega)]
    rfl
  | succ steps ih =>
    obtain ⟨given, rfl⟩ : ∃ rest, given = rest + 1 := ⟨given - 1, by omega⟩
    rw [survey, Heap.survey]
    by_cases hend : capacity ≤ s.offset
    · rw [if_neg (Nat.not_lt.mpr hend), if_pos hend]
      rfl
    have hlt := Nat.not_le.mp hend
    have hlimit := hc.lt
    have hword := sizeOfWord_lt m s.offset
    rw [if_pos hlt, if_neg hend, link?_eq hc hoffset hlt (by decide) (by decide), Option.bind_some,
      Inspect.run_read]
    split
    · rfl
    rw [blockSize?_eq hc hoffset hlt, Option.bind_some, checkedAdd_eq (by omega), Option.bind_some,
      Inspect.run_read]
    dsimp only
    split
    · rfl
    next hsize =>
    obtain ⟨hsize, -⟩ := not_or.mp hsize
    have hstep := granule_le_sizeOfWord hsize
    rw [isUsed?_eq hc hoffset hlt, Option.bind_some]
    split
    · rfl
    have hnext : capacity ≤ s.offset + sizeOfWord (m.word s.offset) + steps * granule := by
      rw [Nat.succ_mul] at hsteps
      omega
    have hdvd := Nat.dvd_add hoffset (granule_dvd_sizeOfWord (m.word s.offset))
    have hgranule : 1 ≤ granule := by decide
    cases isUsedWord (m.word s.offset) with
    | true =>
      rw [if_pos rfl, checkedAdd_eq (by omega)]
      exact ih hdvd hnext (by omega) (Nat.le_trans hfree (Nat.le_add_right ..))
    | false =>
      rw [if_neg nofun, checkedAdd_eq (by omega)]
      exact ih hdvd hnext (by omega) (show s.freeBlocks + 1 ≤ s.offset + _ by omega)

def list (capacity : Nat) (m : Memory) (index : Nat) (previous : Option Nat) (listed : Nat) :
    (link : Option Nat) → (steps : Nat) → Option (Except Fault Nat)
  | _, 0 => none
  | none, _ + 1 => some (.ok listed)
  | some b, steps + 1 =>
    (checkedAdd listed 1).bind fun listed =>
      if maxBlocks capacity < listed then some (.error .listCycle)
      else if ¬ (b % granule = 0 ∧ b < capacity) then
        some (.error (.strayLink (.ofIndex index) b))
      else
        (isUsed? capacity m b).bind fun used =>
          if used then some (.error (.usedInList b))
          else
            ((blockSize? capacity m b).bind classOf?).bind fun c =>
              if c.index ≠ index then some (.error (.wrongList b))
              else
                (link? capacity m b prevField).bind fun back =>
                  if back ≠ previous then some (.error (.brokenFreeLink b))
                  else
                    (link? capacity m b nextField).bind fun next =>
                      list capacity m index (some b) listed next steps

/-- What is left of the room for blocks goes with the number of blocks that were listed. -/
def Counts (limit : Nat) : Except Fault Nat → Except Fault Nat → Prop
  | .error fault, .error fault' => fault = fault'
  | .ok listed, .ok room => listed + room = limit
  | _, _ => False

theorem index_ofIndex (i : Nat) : (SizeClass.ofIndex i).index = i :=
  Nat.div_add_mod' i SizeClass.subCount

theorem ofSize_ne_iff {index size : Nat} (hindex : index < SizeClass.count)
    (hsize : size < wordLimit) :
    SizeClass.ofSize size ≠ SizeClass.ofIndex index ↔ (SizeClass.ofSize size).index ≠ index := by
  have hvalid : (SizeClass.ofIndex index).IsValid :=
    ⟨Nat.div_lt_of_lt_mul (Nat.mul_comm .. ▸ hindex), Nat.mod_lt _ (by decide)⟩
  have hinj := SizeClass.index_inj (SizeClass.isValid_ofSize hsize) hvalid
  rw [index_ofIndex] at hinj
  exact not_congr hinj.symm

theorem list_counts {capacity index given : Nat} (hc : IsCapacity capacity) (m : Memory)
    (hindex : index < SizeClass.count) {room listed : Nat} (previous link : Option Nat)
    (hroom : listed + room = maxBlocks capacity) (hgiven : room < given) :
    ∃ r, list capacity m index previous listed link given = some r ∧
      Counts (maxBlocks capacity) r
        ((checkList capacity (.ofIndex index) previous room link).run m) := by
  have hlimit := maxBlocks_lt hc
  induction room generalizing given listed previous link with
  | zero =>
    obtain ⟨given, rfl⟩ : ∃ rest, given = rest + 1 := ⟨given - 1, by omega⟩
    cases link with
    | none =>
      rw [list, checkList]
      exact ⟨_, rfl, hroom⟩
    | some b =>
      rw [list, checkList, checkedAdd_eq (by omega), Option.bind_some, if_pos (by omega)]
      exact ⟨_, rfl, rfl⟩
  | succ room ih =>
    obtain ⟨given, rfl⟩ : ∃ rest, given = rest + 1 := ⟨given - 1, by omega⟩
    cases link with
    | none =>
      rw [list, checkList]
      exact ⟨_, rfl, hroom⟩
    | some b =>
      rw [list, checkList, checkedAdd_eq (by omega), Option.bind_some, if_neg (by omega)]
      by_cases hstray : b % granule ≠ 0 ∨ capacity ≤ b
      · rw [if_pos hstray, if_pos (by omega)]
        exact ⟨_, rfl, rfl⟩
      obtain ⟨hmod, hlt⟩ := not_or.mp hstray
      have hb : granule ∣ b := Nat.dvd_of_mod_eq_zero (not_not.mp hmod)
      have hlt := Nat.not_le.mp hlt
      rw [if_neg hstray, if_neg (by omega), isUsed?_eq hc hb hlt, Option.bind_some,
        Inspect.run_read]
      split
      · exact ⟨_, rfl, rfl⟩
      rw [blockSize?_eq hc hb hlt, Option.bind_some, classOf?_eq, Option.bind_some]
      simp only [ofSize_ne_iff hindex (sizeOfWord_lt m b)]
      split
      · exact ⟨_, rfl, rfl⟩
      rw [link?_eq hc hb hlt (by decide) (by decide), Option.bind_some, Inspect.run_read]
      split
      · exact ⟨_, rfl, rfl⟩
      rw [link?_eq hc hb hlt (by decide) (by decide), Option.bind_some, Inspect.run_read]
      exact ih _ _ (by omega) (by omega)

def lists (capacity : Nat) (m : Memory) (x : FreeIndex) (steps : Nat) (listed : Nat) :
    List Nat → Option (Except Fault Nat)
  | [] => some (.ok listed)
  | index :: rest =>
    x.heads[index]?.bind fun head =>
      x.subs[index / SizeClass.subCount]?.bind fun subs =>
        if subs.contains (index % SizeClass.subCount) ≠ head.isSome then
          some (.error (.wrongMark (.ofIndex index)))
        else
          (list capacity m index none listed head steps).bind fun
            | .error fault => some (.error fault)
            | .ok listed => lists capacity m x steps listed rest

theorem lists_counts {capacity steps : Nat} (hc : IsCapacity capacity) (m : Memory)
    (x : FreeIndex) (hsteps : maxBlocks capacity < steps) {room listed : Nat} {indices : List Nat}
    (hindices : ∀ index ∈ indices, index < SizeClass.count)
    (hroom : listed + room = maxBlocks capacity) :
    ∃ r, lists capacity m x steps listed indices = some r ∧
      Counts (maxBlocks capacity) r
        ((checkLists capacity x room (indices.map SizeClass.ofIndex)).run m) := by
  induction indices generalizing room listed with
  | nil => exact ⟨_, rfl, hroom⟩
  | cons index rest ih =>
    obtain ⟨hindex, hrest⟩ := List.forall_mem_cons.mp hindices
    have hbin : index / SizeClass.subCount < SizeClass.binCount :=
      Nat.div_lt_of_lt_mul (Nat.mul_comm .. ▸ hindex)
    have hhead : x.head (.ofIndex index) = x.heads[index] := by
      rw [FreeIndex.head, index_ofIndex, Vector.getElem?_eq_getElem hindex]
      rfl
    have hsubs : x.subsOf (SizeClass.ofIndex index).bin = x.subs[index / SizeClass.subCount] := by
      have hbins : (SizeClass.ofIndex index).bin = index / SizeClass.subCount := rfl
      rw [FreeIndex.subsOf, hbins, Vector.getElem?_eq_getElem hbin]
      rfl
    have hsub : (SizeClass.ofIndex index).sub = index % SizeClass.subCount := rfl
    rw [lists, List.map_cons, checkLists, Vector.getElem?_eq_getElem hindex,
      Vector.getElem?_eq_getElem hbin, Option.bind_some, Option.bind_some, hhead, hsubs, hsub]
    split
    · exact ⟨_, rfl, rfl⟩
    rw [Inspect.run_bind]
    obtain ⟨r, hr, hcounts⟩ := list_counts hc m hindex none x.heads[index] hroom
      (Nat.lt_of_le_of_lt (by omega) hsteps)
    rw [hr, Option.bind_some]
    cases hrun : (checkList capacity (.ofIndex index) none room x.heads[index]).run m with
    | error fault =>
      rw [hrun] at hcounts
      cases r with
      | error fault' => exact ⟨_, rfl, hcounts⟩
      | ok listed => exact hcounts.elim
    | ok room =>
      rw [hrun] at hcounts
      cases r with
      | error fault => exact hcounts.elim
      | ok listed => exact ih hrest hcounts

def bins (x : FreeIndex) : List Nat → Option (Option Nat)
  | [] => some none
  | bin :: rest =>
    x.subs[bin]?.bind fun subs =>
      if x.bins.contains bin ≠ !subs.isEmpty then some (some bin) else bins x rest

theorem bins_eq (x : FreeIndex) {l : List Nat} (hl : ∀ bin ∈ l, bin < SizeClass.binCount) :
    bins x l = some (l.find? fun bin => x.bins.contains bin == (x.subsOf bin).isEmpty) := by
  induction l with
  | nil => rfl
  | cons bin rest ih =>
    obtain ⟨hbin, hrest⟩ := List.forall_mem_cons.mp hl
    have hsubs : x.subsOf bin = x.subs[bin] := by
      rw [FreeIndex.subsOf, Vector.getElem?_eq_getElem hbin]
      rfl
    rw [bins, List.find?_cons, Vector.getElem?_eq_getElem hbin, Option.bind_some, ih hrest, hsubs]
    cases x.bins.contains bin <;> cases x.subs[bin].isEmpty <;> rfl

theorem bins_range (x : FreeIndex) :
    bins x (List.range SizeClass.binCount) = some (wrongBin? x) :=
  bins_eq x fun _ => List.mem_range.mp

/-- Looks for the first fault of a heap, in loops that take at most the given number of steps. -/
def check (capacity : Nat) (m : Memory) (x : FreeIndex) (steps : Nat) :
    Option (Except Fault Unit) :=
  (survey capacity m {} steps).bind fun
    | .error fault => some (.error fault)
    | .ok s =>
      if s.offset ≠ capacity then some (.error (.wrongCover s.offset capacity))
      else
        (lists capacity m x steps 0 (List.range SizeClass.count)).bind fun
          | .error fault => some (.error fault)
          | .ok listed =>
            (bins x (List.range SizeClass.binCount)).bind fun
              | some bin => some (.error (.wrongBinMark bin))
              | none =>
                if listed ≠ s.freeBlocks then some (.error (.unlistedFree s.freeBlocks listed))
                else some (.ok ())

theorem check_eq {capacity steps : Nat} (hc : IsCapacity capacity) (m : Memory) (x : FreeIndex)
    (hsteps : maxBlocks capacity < steps) :
    check capacity m x steps = some ((inspectCheck capacity x).run m) := by
  have hsurvey := survey_eq hc m (s := {}) (Nat.dvd_zero _) (capacity_le_maxBlocks hc) hsteps
    (Nat.le_refl 0)
  rw [check, inspectCheck, Inspect.run_bind, hsurvey, Option.bind_some]
  cases (Heap.survey capacity {} (maxBlocks capacity)).run m with
  | error fault => rfl
  | ok s =>
    dsimp only
    split
    · rfl
    have hindices : ∀ index ∈ List.range SizeClass.count, index < SizeClass.count :=
      fun _ => List.mem_range.mp
    obtain ⟨r, hr, hcounts⟩ := lists_counts hc m x hsteps hindices (Nat.zero_add _)
    rw [hr, Option.bind_some, Inspect.run_bind]
    change Counts _ r ((checkLists capacity x (maxBlocks capacity) allClasses).run m) at hcounts
    cases hrun : (checkLists capacity x (maxBlocks capacity) allClasses).run m with
    | error fault =>
      rw [hrun] at hcounts
      cases r with
      | error fault' =>
        cases (show fault' = fault from hcounts)
        rfl
      | ok listed => exact hcounts.elim
    | ok room =>
      rw [hrun] at hcounts
      cases r with
      | error fault => exact hcounts.elim
      | ok listed =>
        have hlisted : maxBlocks capacity - room = listed := Nat.sub_eq_of_eq_add hcounts.symm
        dsimp only
        rw [hlisted, bins_range, Option.bind_some]
        cases wrongBin? x with
        | some bin => rfl
        | none =>
          dsimp only
          split <;> rfl

end Strict

end MemoryKit.Heap
