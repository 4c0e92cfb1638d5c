import MemoryKit.Proofs.Allocator.GoodFit
import MemoryKit.Proofs.Allocator.StartingOver

/-! # Calls that fail

A call that fails leaves everything as it is: the bytes of the arena, the free lists, labels, the
accounts and what is held. Resizing tries to cut the block, to grow it and to move the data in turn,
but nothing is done before it is sure to succeed. An allocation that has room for what is asked
already stays where it is.
-/

namespace MemoryKit

namespace Allocator

open Heap

variable {a : Allocator} {L : Layout} {b : Block} {user bytes pointer lead : Nat} {x : Holding}
  {label : Label} {options : AllocationOptions} {u : Usage}
  {r : Outcome Allocator (Option Nat)}

def Answer.IsFailure : Answer → Prop
  | .pointer none => True
  | .freed (some _) => True
  | _ => False

theorem Answer.eq_none_of_isFailure {answer : Option Nat}
    (h : (Answer.pointer answer).IsFailure) : answer = none := by
  cases answer with
  | none => rfl
  | some => exact h.elim

/-- The pointer is that of an allocation, which lies in a used block of the heap. -/
def IsLive (a : Allocator) (pointer : Nat) : Prop :=
  ∃ x : Holding, x.pointer = pointer ∧ ∃ b ∈ a.heap.blocks, ∃ user, a.IsPlaced x b user

def IsLost (a : Allocator) (pointer : Nat) : Prop := ∃ e, a.locate pointer = .error e

theorem isLive_of_reachable {arena : Arena} {u : Usage} (h : Usage.Reachable arena u)
    (hx : x ∈ u.held) : u.allocator.IsLive x.pointer := by
  obtain ⟨⟨L, S⟩, -⟩ := h.serves
  obtain ⟨b, hb, user, P⟩ := S.placed x hx
  exact ⟨x, rfl, b, S.layout.heap.blocks_eq ▸ hb, user, P⟩

theorem Allocates.state_eq (h : Allocates a L bytes label options r) (hr : a.region.InRange)
    (hfail : r.answer = none) : r.state = a := by
  cases h with
  | refused => rfl
  | lost hrange => exact absurd hr hrange
  | placed => cases hfail

theorem Resizes.state_eq (h : Resizes a L x b user bytes r) (hr : a.region.InRange)
    (hfail : r.answer = none) : r.state = a := by
  cases h with
  | refused => rfl
  | lost hrange => exact absurd hr hrange
  | placed => cases hfail

theorem reallocate_zero (a : Allocator) (bytes : Nat) :
    a.reallocate 0 bytes = a.allocate bytes .resized .standard := if_pos rfl

theorem IsLost.reallocate (h : a.IsLost pointer) (h0 : pointer ≠ 0) (bytes : Nat) :
    (a.reallocate pointer bytes).state = a := by
  obtain ⟨e, he⟩ := h
  unfold Allocator.reallocate
  rw [if_neg h0, he]
  split <;> rfl

theorem deallocate_failed {e : AllocatorError} (hfail : (a.deallocate pointer).1 = .error e) :
    (a.deallocate pointer).2 = a := by
  unfold deallocate at hfail ⊢
  split at hfail
  · cases hfail
  next h0 =>
  rw [if_neg h0]
  split at hfail
  · next hp => rw [if_pos hp]
  next hp =>
  rw [if_neg hp]
  cases hl : a.locate pointer with
  | error => rfl
  | ok => simp [hl] at hfail

section

variable (ho : a.IsInOrder)

include ho

theorem IsInOrder.allocate_failed
    (hfail : (a.allocate bytes label options).answer = none) :
    (a.allocate bytes label options).state = a := by
  obtain ⟨L, H⟩ := ho.exists_layout
  exact (H.allocates bytes label options).state_eq ho.inRange hfail

theorem IsInOrder.reallocate_failed
    (hp : pointer = 0 ∨ a.IsLive pointer ∨ a.IsLost pointer)
    (hfail : (a.reallocate pointer bytes).answer = none) :
    (a.reallocate pointer bytes).state = a := by
  obtain ⟨L, H⟩ := ho.exists_layout
  by_cases h0 : pointer = 0
  · rw [h0, reallocate_zero] at hfail ⊢
    exact ho.allocate_failed hfail
  rcases hp.resolve_left h0 with ⟨x, rfl, b, hb, user, P⟩ | hlost
  · exact (P.resizes H (H.heap.blocks_eq ▸ hb) bytes).state_eq ho.inRange hfail
  · exact hlost.reallocate h0 bytes

end

theorem neededSize?_eq (h : ceilTo granule (max bytes 1) + lead < wordLimit) :
    neededSize? bytes lead = some (ceilTo granule (max bytes 1) + lead) := by
  have hround := le_ceilTo (max bytes 1) (show 0 < granule by decide)
  have hlimit : wordLimit + wordLimit ≤ sizeLimit := by decide
  have hdata : dataSize? bytes = some (ceilTo granule (max bytes 1)) :=
    ceilTo?_eq_some_iff.mpr ⟨by simp only [granule, wordLimit] at *; omega, rfl⟩
  unfold neededSize?
  rw [hdata]
  dsimp only
  rw [checkedAdd, if_pos (by omega), Option.bind_some, asWord?, if_pos h]

theorem IsPlaced.reallocate_of_le (P : a.IsPlaced x b user) (H : a.HasLayout L)
    (hb : b ∈ L.blocks) (hp : a.poisoned = false) (hle : user + bytes ≤ b.offset + b.size) :
    (a.reallocate x.pointer bytes).answer = some x.pointer := by
  have hlt := P.user_lt
  have hfront := P.header_le
  have hend := (H.heap.valid.tiles.bounds hb).2.1
  have hcap := H.heap.capacity_lt
  -- The space behind the pointer is a multiple of the granule, and rounding up stays within it.
  have hfits : ceilTo granule (max bytes 1) + (user - b.offset) ≤ b.size := by
    obtain ⟨i, hi⟩ := H.heap.granule_dvd hb
    obtain ⟨j, hj⟩ := H.heap.granule_dvd_size hb
    obtain ⟨k, hk⟩ := P.granule_dvd
    simp only [ceilTo, granule] at *
    omega
  unfold Allocator.reallocate
  rw [if_neg P.pointer_ne_zero, hp, P.locate_eq H hb]
  simp only [Bool.false_eq_true, if_false]
  unfold Allocator.resize
  rw [neededSize?_eq (by omega)]
  dsimp only
  rw [H.heap.blockSize_eq hb, if_pos hfits]
  rfl

/--
A call that fails leaves everything as it is, whether a check has found an error before or not, for
any pointer that is null, live or leads to no block. Unless one has, an allocation stays where it is
when it is resized to no more than its size.
-/
theorem IsInOrder.failing_calls_change_nothing (ho : u.allocator.IsInOrder) :
    (∀ call : Call,
      (∀ p ∈ call.pointer?, p = 0 ∨ u.allocator.IsLive p ∨ u.allocator.IsLost p) →
        (u.answer (.call call)).IsFailure → u.after call = u) ∧
    ∀ pointer bytes size, u.allocator.poisoned = false → u.allocator.IsLive pointer →
      u.allocator.size? pointer = some size → bytes ≤ size →
        (u.allocator.reallocate pointer bytes).answer = some pointer := by
  constructor
  · intro call hp hfail
    cases call with
    | allocate bytes label options =>
      have hnone := Answer.eq_none_of_isFailure hfail
      simp only [Usage.after, hnone, ho.allocate_failed hnone]
    | reallocate pointer bytes =>
      have hnone := Answer.eq_none_of_isFailure hfail
      simp only [Usage.after, hnone, ho.reallocate_failed (hp pointer rfl) hnone]
    | deallocate pointer =>
      simp only [Usage.answer] at hfail
      simp only [Usage.after]
      split
      · next hfree =>
        rw [hfree] at hfail
        exact hfail.elim
      · next e kept hfree =>
        have hkept := deallocate_failed (congrArg Prod.fst hfree)
        rw [hfree] at hkept
        obtain rfl : kept = u.allocator := hkept
        rfl
    | reset => exact hfail.elim
    | valid => exact hfail.elim
    | write => exact hfail.elim
  · rintro pointer bytes size hp ⟨x, rfl, b, hb, user, P⟩ hsize hle
    obtain ⟨L, H⟩ := ho.exists_layout
    rw [H.heap.blocks_eq] at hb
    rw [P.size?_eq H hb, Option.some.injEq] at hsize
    have hlt := P.user_lt
    exact P.reallocate_of_le H hb hp (by omega)

open Usage.Reachable in
theorem IsInOrder.failing_calls_change_nothing_smallUsage :
    smallUsage.allocator.IsInOrder ∧ smallUsage.allocator.poisoned = false ∧
      smallUsage.after (.allocate 300 ⟨24, "third"⟩ .standard) = smallUsage ∧
      smallUsage.after (.reallocate 4160 300) = smallUsage ∧
      smallUsage.after (.deallocate 4176) = smallUsage ∧
      (smallUsage.allocator.reallocate 4160 112).answer = some 4160 := by
  have hrange : smallArena.toRegion.InRange := by
    unfold Region.InRange
    decide
  have ho := isInOrder_of_reachable reachable_smallUsage hrange
  obtain ⟨x, hx, hp⟩ : ∃ x ∈ smallUsage.held, x.pointer = 4160 := by decide +kernel
  have hlive : smallUsage.allocator.IsLive 4160 := hp ▸ isLive_of_reachable reachable_smallUsage hx
  have hlost : smallUsage.allocator.IsLost 4176 := ⟨.notAllocated 80, by decide +kernel⟩
  have hfull : smallUsage.answer (.call (.allocate 300 ⟨24, "third"⟩ .standard)) =
      .pointer none := by decide +kernel
  have hnone : smallUsage.answer (.call (.reallocate 4160 300)) = .pointer none := by
    decide +kernel
  have hfree : smallUsage.answer (.call (.deallocate 4176)) =
      .freed (some (.notAllocated 80)) := by decide +kernel
  obtain ⟨hunchanged, hstays⟩ := ho.failing_calls_change_nothing
  refine ⟨ho, by decide +kernel, ?_, ?_, ?_, ?_⟩
  · apply hunchanged
    · rintro p ⟨⟩
    · rw [hfull]
      exact trivial
  · apply hunchanged
    · rintro p ⟨⟩
      exact .inr (.inl hlive)
    · rw [hnone]
      exact trivial
  · apply hunchanged
    · rintro p ⟨⟩
      exact .inr (.inr hlost)
    · rw [hfree]
      exact trivial
  · exact hstays 4160 112 112 (by decide +kernel) hlive (by decide +kernel) (by decide)

end Allocator

end MemoryKit
