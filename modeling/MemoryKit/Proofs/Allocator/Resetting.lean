import MemoryKit.Proofs.Allocator.History
import MemoryKit.Proofs.Allocator.Pointers

/-! # Pointers from before a reset

A reset writes one header, at the start of the heap, and leaves all others as they are. So each
allocation that is discarded leaves a header behind, which still leads to its data. Later on such a
header may be covered by data, be moved along with it and take in the link of another allocation to
its block. It then leads to the start of that block, which is a pointer that may have been freed
long before. All other pointers from before a reset are refused like ones that were freed.
-/

namespace MemoryKit

namespace Heap

open SizeClass

section

variable (h : Heap) (hdvd : granule ∣ h.capacity) (hpos : 0 < h.capacity)
  (hlt : h.capacity < wordLimit)

include hdvd hpos hlt

end

end Heap

namespace Allocator

open Heap

variable {a : Allocator} {held : List Holding} {L : Layout} {pointer : Nat} {u : Usage}
  {call : Call} {lost : Set Nat}

/-- The headers of what is discarded lie about from then on. -/
theorem Recognizes.reset (R : Recognizes a held L lost) (hr : a.region.InRange) :
    ∃ L', Recognizes a.reset.state [] L' ({p | ∃ x ∈ held, x.pointer = p} ∪ lost) := by
  have hsized := R.serves.layout.sized
  have S : Serves a.reset.state [] (emptyLayout a.heap.capacity) := .of_emptyLayout hsized.reset
  refine ⟨_, S, balanced_of_unused (S.used_eq_nil hr) rfl rfl rfl, fun y hy => ?_⟩
  obtain ⟨hmark, huser⟩ := addsNoMarks_reset a.heap hsized.granule_dvd_capacity
    hsized.capacity_pos hsized.capacity_lt y hy.granule_dvd hy.marked
  have haddress : a.reset.state.region.address (a.reset.state.heap.user y) =
      a.region.address (a.heap.user y) := congrArg a.region.address huser
  rw [haddress]
  by_cases hblock : ∃ b ∈ L.blocks, b.used = true ∧ b.offset = y
  · obtain ⟨b, hb, hu, rfl⟩ := hblock
    obtain ⟨x, hx, user, P⟩ := R.serves.covered hr b hb hu
    exact .inl ⟨x, hx, by rw [P.pointer_eq, P.user_eq]⟩
  · refine .inr (R.stale y ⟨(capacity_reset a.heap) ▸ hy.lt_capacity, hy.granule_dvd, hmark, ?_⟩)
    exact fun b hb hu he => hblock ⟨b, hb, hu, he⟩

end Allocator

open Allocator

namespace Usage

def issued (u : Usage) : Call → Option Nat
  | .allocate bytes label options => (u.allocator.allocate bytes label options).answer
  | .reallocate pointer bytes => (u.allocator.reallocate pointer bytes).answer
  | _ => none

theorem pointer_of_mem_after {u : Usage} {call : Call} {x : Holding}
    (hx : x ∈ (u.after call).held) :
    u.issued call = some x.pointer ∨ ∃ y ∈ u.held, y.pointer = x.pointer := by
  cases call with
  | allocate bytes label options =>
    simp only [after] at hx
    split at hx
    · next pointer hanswer =>
      rcases List.mem_cons.mp hx with rfl | hx
      · exact .inl hanswer
      · exact .inr ⟨x, hx, rfl⟩
    · exact .inr ⟨x, hx, rfl⟩
  | reallocate pointer bytes =>
    simp only [after] at hx
    split at hx
    · next moved hanswer =>
      split at hx
      · rcases List.mem_cons.mp hx with rfl | hx
        · exact .inl hanswer
        · exact .inr ⟨x, hx, rfl⟩
      · obtain ⟨y, hy, rfl⟩ := List.mem_map.mp hx
        unfold Holding.resized
        split
        · exact .inl hanswer
        · exact .inr ⟨y, hy, rfl⟩
    · exact .inr ⟨x, hx, rfl⟩
  | deallocate pointer =>
    simp only [after] at hx
    split at hx
    · exact .inr ⟨x, (List.mem_filter.mp hx).1, rfl⟩
    · exact .inr ⟨x, hx, rfl⟩
  | reset => cases hx
  | valid | write => exact .inr ⟨x, hx, rfl⟩

end Usage

/--
An allocator in use, with the pointers that were handed out before the last reset and since. Those
that a header may lead to which was left behind are lost.
-/
structure Tenure where
  usage : Usage
  before : List Nat
  since : List Nat
  lost : List Nat

namespace Tenure

/-- A reset loses the pointers that are held, and any call those that it misleads a header to. -/
def after (t : Tenure) : Call → Tenure
  | .reset =>
    ⟨t.usage.after .reset, t.since ++ t.before, [], t.usage.held.map (·.pointer) ++ t.lost⟩
  | call =>
    ⟨t.usage.after call, t.before, (t.usage.issued call).toList ++ t.since,
      (t.usage.after call).misled ++ t.lost⟩

theorem after_of_ne_reset (t : Tenure) {call : Call} (hne : call ≠ .reset) : t.after call =
    ⟨t.usage.after call, t.before, (t.usage.issued call).toList ++ t.since,
      (t.usage.after call).misled ++ t.lost⟩ := by
  cases call with
  | reset => exact absurd rfl hne
  | allocate | reallocate | deallocate | valid | write => rfl

/-- The runs over an arena of zeros in which every call keeps to a rule. -/
inductive Keeps (rule : Tenure → Call → Prop) (arena : Arena) : Tenure → Prop where
  | start {a : Allocator} {log : List Record} :
      (∀ i < arena.size, arena.memory.byte i = 0) → ofArena arena = .ok (a, log) →
        Keeps rule arena ⟨⟨a, []⟩, [], [], []⟩
  | step {t : Tenure} (call : Call) :
      Keeps rule arena t → rule t call → Keeps rule arena (t.after call)

/-- Pointers may be any and anybody may start over, but nobody writes. -/
def WritesNothing (_ : Tenure) : Call → Prop
  | .write _ _ => False
  | _ => True

/-- Besides, pointers that were lost are avoided. -/
def AvoidsLost (t : Tenure) (call : Call) : Prop :=
  t.WritesNothing call ∧ t.usage.Avoids {p | p ∈ t.lost} call

end Tenure

namespace Allocator

open Heap

variable {a : Allocator} {held : List Holding} {L : Layout} {pointer : Nat} {u : Usage}
  {call : Call} {x : Holding} {lost : Set Nat}

theorem Recognizes.mem_heap (R : Recognizes a held L lost) (hx : x ∈ held) :
    x.pointer ≠ 0 ∧ a.region.start ≤ x.pointer ∧ x.pointer < a.region.start + a.heap.capacity := by
  obtain ⟨b, hb, user, P⟩ := R.serves.placed x hx
  have hend := (R.serves.layout.heap.valid.tiles.bounds hb).2.1
  have hlt := P.user_lt
  refine ⟨P.pointer_ne_zero, ?_⟩
  rw [P.pointer_eq, Region.address]
  omega

theorem Recognizes.exists_of_issued (R : Recognizes u.allocator u.held L lost)
    (hr : u.allocator.region.InRange) (hp : u.Avoids lost call)
    (h : u.issued call = some pointer) : ∃ x ∈ (u.after call).held, x.pointer = pointer := by
  cases call with
  | allocate bytes label options =>
    have hanswer : (u.allocator.allocate bytes label options).answer = some pointer := h
    simp only [Usage.after, hanswer]
    exact ⟨_, List.mem_cons_self, rfl⟩
  | reallocate old bytes =>
    have hanswer : (u.allocator.reallocate old bytes).answer = some pointer := h
    simp only [Usage.after, hanswer]
    split
    · exact ⟨_, List.mem_cons_self, rfl⟩
    next h0 =>
    by_cases hold : ∃ y ∈ u.held, y.pointer = old
    · obtain ⟨y, hy, rfl⟩ := hold
      refine ⟨_, List.mem_map_of_mem hy, ?_⟩
      rw [Holding.resized, if_pos rfl]
    · obtain ⟨e, herror⟩ := R.exists_error_of_avoids hr hp rfl hold
      unfold Allocator.reallocate at hanswer
      rw [if_neg h0, R.balanced.unpoisoned, herror] at hanswer
      cases hanswer
  | deallocate | reset | valid | write => cases h

end Allocator

namespace Tenure

variable {arena : Arena} {t : Tenure} {call : Call}

structure Sound (arena : Arena) (t : Tenure) : Prop where
  recognizes : ∃ L, Recognizes t.usage.allocator t.usage.held L {p | p ∈ t.lost}
  region_eq : t.usage.allocator.region = arena.toRegion
  held_since : ∀ x ∈ t.usage.held, x.pointer ∈ t.since
  mem_heap : ∀ pointer, pointer ∈ t.before ∨ pointer ∈ t.since → pointer ≠ 0 ∧
    arena.start ≤ pointer ∧ pointer < arena.start + t.usage.allocator.heap.capacity

namespace Sound

variable (S : Sound arena t) (hr : arena.toRegion.InRange)

include S hr

theorem reset : Sound arena (t.after .reset) := by
  obtain ⟨L, R⟩ := S.recognizes
  obtain ⟨L', R'⟩ := R.reset (S.region_eq ▸ hr)
  refine ⟨⟨L', R'.mono ?_⟩, S.region_eq, fun x hx => absurd hx List.not_mem_nil,
    fun pointer hp => ?_⟩
  · rintro p (⟨x, hx, rfl⟩ | hp)
    · exact List.mem_append_left _ (List.mem_map_of_mem hx)
    · exact List.mem_append_right _ hp
  · have hcap : (t.after .reset).usage.allocator.heap.capacity =
        t.usage.allocator.heap.capacity := Heap.capacity_reset _
    rw [hcap]
    refine S.mem_heap pointer ?_
    rcases hp with hp | hp
    · exact (List.mem_append.mp hp).symm
    · exact absurd hp List.not_mem_nil

theorem serve (ha : t.AvoidsLost call) (hne : call ≠ .reset) : Sound arena (t.after call) := by
  obtain ⟨L, R⟩ := S.recognizes
  have hr' := S.region_eq ▸ hr
  have hlost : {p | p ∈ t.lost} ⊆ {p | p ∈ (t.usage.after call).misled ++ t.lost} :=
    fun p hp => List.mem_append_right _ hp
  obtain ⟨⟨L', R'⟩, hregion⟩ : (∃ L', Recognizes (t.usage.after call).allocator
      (t.usage.after call).held L' {p | p ∈ (t.usage.after call).misled ++ t.lost}) ∧
        (t.usage.after call).allocator.region = t.usage.allocator.region := by
    by_cases hc : call.IsRequest
    · exact R.after_request hr' hc hlost (fun _ p hp => List.mem_append_left _ hp) ha.2
    cases call with
    | allocate | reallocate | deallocate => exact absurd trivial hc
    | valid =>
      rw [R.valid_eq hr'] at hlost ⊢
      exact ⟨⟨L, R.mono hlost⟩, rfl⟩
    | reset => exact absurd rfl hne
    | write => exact ha.1.elim
  have hcap := (Persists.after t.usage call).capacity_eq
  have hstart : (t.usage.after call).allocator.region.start = arena.start :=
    congrArg Region.start (hregion.trans S.region_eq)
  rw [t.after_of_ne_reset hne]
  refine ⟨⟨L', R'⟩, hregion.trans S.region_eq, fun x hx => ?_, fun pointer hp => ?_⟩
  · rcases Usage.pointer_of_mem_after hx with hnew | ⟨y, hy, he⟩
    · exact List.mem_append_left _ (Option.mem_toList.mpr hnew)
    · exact List.mem_append_right _ (he ▸ S.held_since y hy)
  · dsimp only at hp ⊢
    rw [List.mem_append, Option.mem_toList] at hp
    rcases hp with hp | hp | hp
    · exact hcap ▸ S.mem_heap pointer (.inl hp)
    · obtain ⟨x, hx, rfl⟩ := R.exists_of_issued hr' ha.2 hp
      exact hstart ▸ R'.mem_heap hx
    · exact hcap ▸ S.mem_heap pointer (.inr hp)

theorem after (ha : t.AvoidsLost call) : Sound arena (t.after call) := by
  by_cases hc : call = .reset
  · rw [hc]
    exact S.reset hr
  · exact S.serve hr ha hc

end Sound

theorem Keeps.sound (h : Keeps AvoidsLost arena t) (hr : arena.toRegion.InRange) :
    Sound arena t := by
  induction h with
  | start hzero hnew =>
    obtain ⟨L, R⟩ := recognizes_ofArena hzero hnew hr
    refine ⟨⟨L, R.mono (Set.empty_subset _)⟩, (serves_ofArena hnew).2, ?_, ?_⟩
    · exact fun x hx => absurd hx List.not_mem_nil
    · exact fun pointer hp => absurd (or_self_iff.mp hp) List.not_mem_nil
  | step call _ ha ih => exact ih.after hr ha

section Runs

open Usage.Reachable (smallArena cacheLine)

theorem Keeps.foldl {rule : Tenure → Call → Prop} {calls : List Call} (h : t.Keeps rule arena)
    (hrule : ∀ t, ∀ call ∈ calls, rule t call) : (calls.foldl after t).Keeps rule arena := by
  induction calls generalizing t with
  | nil => exact h
  | cons call calls ih =>
    exact ih (.step call h (hrule t call List.mem_cons_self)) fun t' call' hcall =>
      hrule t' call' (List.mem_cons_of_mem call hcall)

def unserved : Tenure :=
  ⟨⟨⟨smallArena.toRegion, .create .zeroed 512, #[], 0, 0, 0, false⟩, []⟩, [], [], []⟩

end Runs

end Tenure

end MemoryKit
