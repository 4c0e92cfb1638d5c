import Mathlib.Data.List.GetD
import Mathlib.Data.Set.Basic
import MemoryKit.Proofs.Allocator.Auditing

/-! # Telling pointers apart

Callers may hand in any pointer: one that was freed, one into the middle of an allocation, or one
from elsewhere. Over an arena of zeros, and if owners write nothing that looks like the header of a
used block, nothing does but those headers, however blocks were cut and merged since and whatever
they left behind. Then the pointers that are held are the ones that are found. Where headers of
used blocks do lie about, only the pointers that they lead to are found besides.
-/

namespace MemoryKit

namespace Usage

open Allocator

/--
Pointers may be any, but nobody starts over, and owners write even bytes where a header could begin.
-/
def Tolerates (u : Usage) : Call → Prop
  | .reset => False
  | .write offset bytes =>
    u.Permits (.write offset bytes) ∧
      ∀ i, ∀ hi : i < bytes.length, granule ∣ offset + i → bytes[i].toNat % 2 = 0
  | _ => True

/-- The states that an allocator over an arena of zeros can come to. -/
inductive Probed (arena : Arena) : Usage → Prop where
  | start {a : Allocator} {log : List Record} :
      (∀ i < arena.size, arena.memory.byte i = 0) → ofArena arena = .ok (a, log) →
        Probed arena ⟨a, []⟩
  | step {u : Usage} {call : Call} :
      Probed arena u → u.Tolerates call → Probed arena (u.after call)

/--
Where blocks begin whose allocations lie behind what reads as the header of a used block. It takes
in the link to the block as the offset of its data.
-/
def misled (u : Usage) : List Nat :=
  u.held.filterMap fun x =>
    let user := x.pointer - u.allocator.region.start
    let block := u.allocator.blockAt user
    if block + headerSize < user ∧ u.allocator.heap.isUsed (user - headerSize) = true then
      some (u.allocator.region.address block)
    else none

/-- A pointer that was lost is not handed in unless it is held again or is not found. -/
def Avoids (u : Usage) (lost : Set Nat) (call : Call) : Prop :=
  ∀ pointer ∈ call.pointer?, pointer ∈ lost →
    (∃ x ∈ u.held, x.pointer = pointer) ∨ u.allocator.size? pointer = none

end Usage

namespace Allocator

open Heap

variable {a : Allocator} {held : List Holding} {L : Layout} {b : Block} {x : Holding}
  {pointer user : Nat} {u : Usage} {call : Call} {lost lost' : Set Nat}

/--
An allocator whose accounts are right. What looks like the header of a used block and is none leads
to a pointer that was lost.
-/
structure Recognizes (a : Allocator) (held : List Holding) (L : Layout) (lost : Set Nat) :
    Prop where
  serves : Serves a held L
  balanced : a.Balanced L
  stale : ∀ y, a.heap.IsStale L y → a.region.address (a.heap.user y) ∈ lost

theorem HasLayout.offsetOf?_eq (H : a.HasLayout L) (pointer : Nat) : a.offsetOf? pointer =
    if a.region.start ≤ pointer ∧ pointer < a.region.start + a.heap.capacity then
      some (pointer - a.region.start)
    else none := by
  have hcap := H.capacity_le
  ext offset
  simp only [offsetOf?, Region.offsetOf?, Option.filter_eq_some_iff, Option.ite_none_right_eq_some,
    Option.some.injEq, decide_eq_true_eq]
  omega

def refusal (a : Allocator) (pointer : Nat) : AllocatorError :=
  if a.region.start ≤ pointer ∧ pointer < a.region.start + a.heap.capacity then
    .notAllocated (pointer - a.region.start)
  else .foreignPointer pointer

theorem exists_error_of_size?_eq_none (h : a.size? pointer = none) :
    ∃ e, a.locate pointer = .error e := by
  unfold size? at h
  cases hl : a.locate pointer with
  | error e => exact ⟨e, rfl⟩
  | ok found =>
    rw [hl] at h
    cases h

/-- The header of a block that is used, or looks like one, leads to some data of the heap. -/
structure LeadsTo (a : Allocator) (block user : Nat) : Prop where
  lt_capacity : block < a.heap.capacity
  granule_dvd : granule ∣ block
  used : a.heap.isUsed block = true
  user_eq : a.heap.user block = user

/-- A pointer is refused, or found as the one that some header leads to. -/
theorem HasLayout.locate_cases (H : a.HasLayout L) (pointer : Nat) :
    a.locate pointer = .error (a.refusal pointer) ∨
      ∃ block user, a.locate pointer = .ok (block, user) ∧ pointer = a.region.address user ∧
        a.LeadsTo block user := by
  unfold locate refusal
  rw [H.offsetOf?_eq]
  by_cases hin : a.region.start ≤ pointer ∧ pointer < a.region.start + a.heap.capacity
  · rw [if_pos hin, if_pos hin]
    dsimp only
    split
    · exact Or.inl rfl
    split
    · next hfound =>
      simp only [isAllocation, Bool.and_eq_true, beq_iff_eq, decide_eq_true_eq] at hfound
      obtain ⟨⟨⟨⟨⟨hdvd, hle⟩, hlt⟩, hused⟩, huser⟩, -⟩ := hfound
      exact Or.inr ⟨_, _, rfl, (Nat.add_sub_cancel' hin.1).symm, by omega,
        Nat.dvd_of_mod_eq_zero hdvd, hused, huser⟩
    · exact Or.inl rfl
  · rw [if_neg hin, if_neg hin]
    exact Or.inl rfl

theorem mem_misled (hx : x ∈ u.held) (P : u.allocator.IsPlaced x b user)
    (hlt : b.offset + headerSize < user)
    (hu : u.allocator.heap.isUsed (user - headerSize) = true) :
    u.allocator.region.address b.offset ∈ u.misled := by
  refine List.mem_filterMap.mpr ⟨x, hx, ?_⟩
  have hback : x.pointer - u.allocator.region.start = user := by
    rw [P.pointer_eq, Region.address, Nat.add_sub_cancel_left]
  dsimp only
  rw [hback, P.blockAt_eq, if_pos ⟨hlt, hu⟩]

namespace Recognizes

theorem mono (R : Recognizes a held L lost) (h : lost ⊆ lost') : Recognizes a held L lost' :=
  ⟨R.serves, R.balanced, fun y hy => h (R.stale y hy)⟩

theorem exists_of_leadsTo (R : Recognizes a held L lost) {block : Nat} (h : a.LeadsTo block user)
    (hlost : a.region.address user ∉ lost) : ∃ b ∈ L.used, b.offset = block := by
  by_contra hnone
  push Not at hnone
  refine hlost (h.user_eq ▸ R.stale block ⟨h.lt_capacity, h.granule_dvd, h.used, ?_⟩)
  exact fun b hb hu => hnone b (Layout.mem_used.mpr ⟨hb, hu⟩)

theorem locate_eq_error (R : Recognizes a held L lost) (hr : a.region.InRange)
    (hlost : pointer ∉ lost) (hnot : ∀ x ∈ held, x.pointer ≠ pointer) :
    a.locate pointer = .error (a.refusal pointer) := by
  rcases R.serves.layout.locate_cases pointer with herror | ⟨block, user, -, rfl, h⟩
  · exact herror
  · obtain ⟨b, hb, rfl⟩ := R.exists_of_leadsTo h hlost
    obtain ⟨hb, hu⟩ := Layout.mem_used.mp hb
    obtain ⟨x, hx, user', P⟩ := R.serves.covered hr b hb hu
    obtain rfl : user = user' := h.user_eq.symm.trans P.user_eq
    exact absurd P.pointer_eq (hnot x hx)

theorem exists_error_of_avoids (R : Recognizes u.allocator u.held L lost)
    (hr : u.allocator.region.InRange) (hp : u.Avoids lost call)
    (hcall : call.pointer? = some pointer)
    (hnot : ¬ ∃ x ∈ u.held, x.pointer = pointer) : ∃ e, u.allocator.locate pointer = .error e := by
  by_cases hin : pointer ∈ lost
  · exact exists_error_of_size?_eq_none ((hp pointer hcall hin).resolve_left hnot)
  · exact ⟨_, R.locate_eq_error hr hin fun x hx he => hnot ⟨x, hx, he⟩⟩

theorem after_refused (R : Recognizes u.allocator u.held L lost) (h0 : pointer ≠ 0)
    {e : AllocatorError} (herror : u.allocator.locate pointer = .error e) :
    (∀ bytes, u.after (.reallocate pointer bytes) = u) ∧ u.after (.deallocate pointer) = u := by
  constructor
  · intro bytes
    simp only [Usage.after, reallocate, h0, R.balanced.unpoisoned, herror, Bool.false_eq_true,
      if_false]
  · simp only [Usage.after, deallocate, h0, R.balanced.unpoisoned, herror, Bool.false_eq_true,
      if_false]

section Requests

variable (R : Recognizes u.allocator u.held L lost) (hr : u.allocator.region.InRange)
  (hc : call.IsRequest) (hlost : lost ⊆ lost')
  (hmisled : lost.Nonempty → ∀ p ∈ (u.after call).misled, p ∈ lost')

include R hr hc hlost hmisled

/-- Where headers lie about, a request with a pointer that is null or held may mislead some. -/
theorem after_permitted (hp : u.Permits call) :
    ∃ L', Recognizes (u.after call).allocator (u.after call).held L' lost' := by
  obtain ⟨L', gone, new, dropped, added, M, -⟩ := R.serves.moves hc hp
  refine ⟨L', M.serves R.serves, (M.books hr).balanced R.balanced, fun y hy => ?_⟩
  obtain ⟨x, hx, hsame | ⟨c, hnew, hfront, hlink⟩⟩ := M.trades.stale y hy
  · rw [M.region_eq, hsame]
    exact hlost (R.stale x hx)
  · obtain ⟨z, hz, user, P⟩ := M.new_covered hr c hnew
    obtain rfl : new = some c := hnew
    have hne : c.offset ≠ y := hy.ne c M.trades.new_mem (M.trades.fresh c rfl).1
    have huser : user = y + headerSize := P.user_eq.symm.trans hfront.symm
    have hle := P.header_le
    rw [hlink]
    refine hmisled ⟨_, R.stale x hx⟩ _
      (mem_misled ((M.mem_iff R.serves).mpr (.inr hz)) P (by omega) ?_)
    rw [huser, Nat.add_sub_cancel]
    exact hy.marked

theorem after_request (hp : u.Avoids lost call) :
    (∃ L', Recognizes (u.after call).allocator (u.after call).held L' lost') ∧
      (u.after call).allocator.region = u.allocator.region := by
  by_cases hperm : u.Permits call
  · exact ⟨R.after_permitted hr hc hlost hmisled hperm, (R.serves.after hperm).2⟩
  cases call with
  | allocate => exact absurd trivial hperm
  | reallocate pointer bytes =>
    obtain ⟨h0, hnot⟩ := not_or.mp hperm
    obtain ⟨e, he⟩ := R.exists_error_of_avoids hr hp rfl hnot
    rw [(R.after_refused h0 he).1 bytes]
    exact ⟨⟨L, R.mono hlost⟩, rfl⟩
  | deallocate pointer =>
    obtain ⟨h0, hnot⟩ := not_or.mp hperm
    obtain ⟨e, he⟩ := R.exists_error_of_avoids hr hp rfl hnot
    rw [(R.after_refused h0 he).2]
    exact ⟨⟨L, R.mono hlost⟩, rfl⟩
  | reset | valid | write => exact hc.elim

end Requests

theorem valid_eq (R : Recognizes u.allocator u.held L lost) (hr : u.allocator.region.InRange) :
    u.after .valid = u := by
  have hsame : u.allocator.valid.state = u.allocator :=
    congrArg Outcome.state (R.serves.valid_eq R.balanced hr)
  simp only [Usage.after, hsame]

theorem after (R : Recognizes u.allocator u.held L ∅) (hr : u.allocator.region.InRange)
    (ht : u.Tolerates call) :
    (∃ L', Recognizes (u.after call).allocator (u.after call).held L' ∅) ∧
      (u.after call).allocator.region = u.allocator.region := by
  by_cases hc : call.IsRequest
  · exact R.after_request hr hc subset_rfl (absurd · Set.not_nonempty_empty)
      fun _ _ hin => absurd hin (Set.notMem_empty _)
  cases call with
  | allocate | reallocate | deallocate => exact absurd trivial hc
  | reset => exact ht.elim
  | valid =>
    rw [R.valid_eq hr]
    exact ⟨⟨L, R⟩, rfl⟩
  | write offset bytes =>
    obtain ⟨S', K⟩ := R.serves.write_permitted ht.1
    refine ⟨⟨L, S', K.balanced R.balanced, fun y hy => ?_⟩, rfl⟩
    refine absurd (R.stale y (hy.of_memory ?_)) (Set.notMem_empty _)
    by_cases hin : offset ≤ y ∧ y < offset + bytes.length
    · obtain ⟨i, rfl⟩ := Nat.exists_eq_add_of_le hin.1
      have hi : i < bytes.length := by omega
      rw [Memory.byte_write, if_pos hin, Nat.add_sub_cancel_left, List.getD_eq_getElem _ _ hi]
      exact .inr (ht.2 i hi hy.granule_dvd)
    · exact .inl (Memory.byte_write_of_outside (by omega))

end Recognizes

/-- Nothing in an arena of zeros looks like the header of a used block. -/
theorem recognizes_ofArena {arena : Arena} {log : List Record}
    (hzero : ∀ i < arena.size, arena.memory.byte i = 0) (h : ofArena arena = .ok (a, log))
    (hr : arena.toRegion.InRange) : ∃ L, Recognizes a [] L ∅ := by
  obtain ⟨L, S, B⟩ := balanced_ofArena h hr
  refine ⟨L, S, B, fun y ⟨hin, hy, hu, _⟩ => ?_⟩
  obtain ⟨capacity, hdvd, hpos, hlt, hle, -, rfl⟩ := exists_of_ofArena h
  have hcap : (Heap.create arena.memory capacity).capacity = capacity := capacity_reset _
  obtain ⟨hmark, -⟩ := addsNoMarks_reset ⟨arena.memory, capacity, .empty⟩ hdvd hpos hlt y hy hu
  rw [isUsed_iff, hzero y (Nat.lt_of_lt_of_le (hcap ▸ hin) hle)] at hmark
  cases hmark

end Allocator

namespace Usage.Probed

open Allocator

variable {arena : Arena} {u : Usage} {pointer : Nat}

theorem recognizes (h : Probed arena u) (hr : arena.toRegion.InRange) :
    (∃ L, Recognizes u.allocator u.held L ∅) ∧ u.allocator.region = arena.toRegion := by
  induction h with
  | start hzero h => exact ⟨recognizes_ofArena hzero h hr, (serves_ofArena h).2⟩
  | step _ ht ih =>
    obtain ⟨⟨L, R⟩, hregion⟩ := ih
    have hafter := R.after (hregion ▸ hr) ht
    exact ⟨hafter.1, hafter.2.trans hregion⟩

/--
The pointers that are held are the ones that have a size and can be freed. Any other one is refused,
as foreign if it lies outside of the heap and as not allocated, with its offset, if it lies inside.
-/
theorem finds_held_only (h : Probed arena u) (hr : arena.toRegion.InRange) (h0 : pointer ≠ 0) :
    ((u.allocator.size? pointer).isSome ↔ ∃ x ∈ u.held, x.pointer = pointer) ∧
    ((u.allocator.deallocate pointer).1 = .ok () ↔ ∃ x ∈ u.held, x.pointer = pointer) ∧
    ((∀ x ∈ u.held, x.pointer ≠ pointer) → u.allocator.deallocate pointer =
      (.error (if arena.start ≤ pointer ∧ pointer < arena.start + u.allocator.heap.capacity then
        .notAllocated (pointer - arena.start)
      else .foreignPointer pointer), u.allocator)) := by
  obtain ⟨⟨L, R⟩, hregion⟩ := h.recognizes hr
  have hstart : u.allocator.region.start = arena.start := congrArg Region.start hregion
  by_cases hheld : ∃ x ∈ u.held, x.pointer = pointer
  · obtain ⟨x, hx, rfl⟩ := hheld
    obtain ⟨b, hb, user, P⟩ := R.serves.placed x hx
    have hself : ∃ y ∈ u.held, y.pointer = x.pointer := ⟨x, hx, rfl⟩
    refine ⟨iff_of_true ?_ hself, iff_of_true ?_ hself, fun hnot => absurd rfl (hnot x hx)⟩
    · rw [P.size?_eq R.serves.layout hb]
      rfl
    · rw [P.deallocate_eq R.serves.layout hb R.balanced.unpoisoned]
  · have hnot : ∀ x ∈ u.held, x.pointer ≠ pointer := fun x hx he => hheld ⟨x, hx, he⟩
    have hlocate := R.locate_eq_error (hregion ▸ hr) (Set.notMem_empty _) hnot
    have hsize : u.allocator.size? pointer = none := by
      unfold size?
      rw [hlocate]
    have hfree : u.allocator.deallocate pointer =
        (.error (u.allocator.refusal pointer), u.allocator) := by
      unfold deallocate
      rw [if_neg h0, if_neg (Bool.eq_false_iff.mp R.balanced.unpoisoned), hlocate]
    refine ⟨iff_of_false (by simp [hsize]) hheld, iff_of_false (by simp [hfree]) hheld, fun _ => ?_⟩
    rw [hfree, refusal, hstart]

theorem finds_held_only_smallUsage :
    ((Reachable.smallUsage.after (.deallocate 4160)).allocator.size? 4288).isSome ∧
      ((Reachable.smallUsage.after (.deallocate 4160)).allocator.deallocate 4160).1 =
        .error (.notAllocated 64) := by
  have h : Probed Reachable.smallArena (Reachable.smallUsage.after (.deallocate 4160)) :=
    .step (.step (.step (.start (fun i _ => Memory.byte_zeroed i) rfl) trivial) trivial) trivial
  have hr : Reachable.smallArena.toRegion.InRange := by
    unfold Region.InRange
    decide
  have hheld : ∃ x ∈ (Reachable.smallUsage.after (.deallocate 4160)).held, x.pointer = 4288 := by
    decide +kernel
  have hnot : ∀ x ∈ (Reachable.smallUsage.after (.deallocate 4160)).held, x.pointer ≠ 4160 := by
    decide +kernel
  refine ⟨(finds_held_only h hr (by decide)).1.mpr hheld, ?_⟩
  rw [(finds_held_only h hr (by decide)).2.2 hnot, if_pos (by decide +kernel)]
  rfl

end Usage.Probed

end MemoryKit
