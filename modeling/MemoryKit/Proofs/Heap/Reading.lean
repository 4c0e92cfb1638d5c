import MemoryKit.Proofs.Heap.Strict

/-! # What inspections read

An inspection of a heap reads aligned words inside of the heap, whatever the memory and the index
hold. What it has read decides where it reads next, but only after it was compared with the bounds.
-/

namespace MemoryKit

namespace Inspect

variable {α β : Type} {capacity : Nat} {m : Memory}

/-- The words that an inspection reads are aligned and lie in the heap. -/
def StaysIn (capacity : Nat) (m : Memory) (x : Inspect α) : Prop :=
  ∀ offset ∈ x.reads m, offset % 4 = 0 ∧ offset + 4 ≤ capacity

theorem staysIn_done (a : α) : (done a).StaysIn capacity m := nofun

theorem staysIn_read {offset : Nat} {next : Nat → Inspect α}
    (h : offset % 4 = 0 ∧ offset + 4 ≤ capacity)
    (hnext : (next (m.word offset)).StaysIn capacity m) :
    (read offset next).StaysIn capacity m :=
  List.forall_mem_cons.mpr ⟨h, hnext⟩

theorem staysIn_bind {x : Inspect α} {f : α → Inspect β} (hx : x.StaysIn capacity m)
    (hf : (f (x.run m)).StaysIn capacity m) : (x.bind f).StaysIn capacity m := by
  rw [StaysIn, reads_bind]
  exact List.forall_mem_append.mpr ⟨hx, hf⟩

end Inspect

namespace Heap

open Inspect Strict

variable {capacity steps : Nat} {m : Memory} (hc : IsCapacity capacity)

include hc

theorem staysIn_foldBlocks {β : Type} {offset : Nat} (hoffset : granule ∣ offset)
    (f : β → Block → β) (acc : β) :
    (foldBlocks capacity f acc offset steps).StaysIn capacity m := by
  induction steps generalizing acc offset with
  | zero => exact staysIn_done acc
  | succ steps ih =>
    rw [foldBlocks]
    split
    · exact staysIn_done acc
    next hlt =>
    refine staysIn_read (field_bounds hc hoffset (Nat.not_le.mp hlt) 0 rfl (by decide)) ?_
    dsimp only
    split
    · exact staysIn_done acc
    · exact ih (Nat.dvd_add hoffset (granule_dvd_sizeOfWord _)) _

theorem staysIn_inspectBlocks : (inspectBlocks capacity).StaysIn capacity m :=
  staysIn_bind (staysIn_foldBlocks hc (Nat.dvd_zero _) _ _) (staysIn_done _)

theorem staysIn_survey {s : Survey} (hoffset : granule ∣ s.offset) :
    (Heap.survey capacity s steps).StaysIn capacity m := by
  induction steps generalizing s with
  | zero => exact staysIn_done _
  | succ steps ih =>
    rw [Heap.survey]
    split
    · exact staysIn_done _
    next hlt =>
    have hbounds := field_bounds hc hoffset (Nat.not_le.mp hlt)
    refine staysIn_read (hbounds _ (by decide) (by decide)) ?_
    split
    · exact staysIn_done _
    refine staysIn_read (hbounds 0 rfl (by decide)) ?_
    dsimp only
    split
    · exact staysIn_done _
    split
    · exact staysIn_done _
    · exact ih (Nat.dvd_add hoffset (granule_dvd_sizeOfWord _))

theorem staysIn_checkList (c : SizeClass) (previous : Option Nat) (room : Nat)
    (link : Option Nat) : (checkList capacity c previous room link).StaysIn capacity m := by
  induction room generalizing previous link with
  | zero => cases link <;> exact staysIn_done _
  | succ room ih =>
    cases link with
    | none => exact staysIn_done _
    | some b =>
      rw [checkList]
      split
      · exact staysIn_done _
      next hin =>
      obtain ⟨hmod, hlt⟩ := not_or.mp hin
      have hbounds := field_bounds hc (Nat.dvd_of_mod_eq_zero (not_not.mp hmod))
        (Nat.not_le.mp hlt)
      refine staysIn_read (hbounds 0 rfl (by decide)) ?_
      split
      · exact staysIn_done _
      split
      · exact staysIn_done _
      refine staysIn_read (hbounds _ (by decide) (by decide)) ?_
      split
      · exact staysIn_done _
      · exact staysIn_read (hbounds _ (by decide) (by decide)) (ih _ _)

theorem staysIn_checkLists (x : FreeIndex) (room : Nat) (cs : List SizeClass) :
    (checkLists capacity x room cs).StaysIn capacity m := by
  induction cs generalizing room with
  | nil => exact staysIn_done _
  | cons c cs ih =>
    rw [checkLists]
    split
    · exact staysIn_done _
    refine staysIn_bind (staysIn_checkList hc _ _ _ _) ?_
    split
    · exact staysIn_done _
    · exact ih _

theorem staysIn_inspectCheck (x : FreeIndex) : (inspectCheck capacity x).StaysIn capacity m := by
  refine staysIn_bind (staysIn_survey hc (Nat.dvd_zero _)) ?_
  split
  · exact staysIn_done _
  split
  · exact staysIn_done _
  refine staysIn_bind (staysIn_checkLists hc _ _ _) ?_
  split
  · exact staysIn_done _
  split
  · exact staysIn_done _
  · split <;> exact staysIn_done _

end Heap

end MemoryKit
