import MemoryKit.Proofs.Allocator.Coalescing
import MemoryKit.Proofs.Allocator.Entries

/-! # Statistics

The counters of an allocator are kept by differences; what they should be can be read off the
callers, the list of blocks and the past. In every state that callers can bring it to, the two
agree, so that no counter ever drops below zero and the check passes.
-/

namespace MemoryKit

open Allocator

namespace Usage

structure StatsAgree (u : Usage) : Prop where
  allocations_held : u.allocator.stats.allocations = u.held.length
  allocations_used : u.allocator.stats.allocations =
    (u.allocator.walk.filter BlockInfo.used).length
  bytes_used : u.allocator.stats.allocatedBytes =
    ((u.allocator.walk.filter BlockInfo.used).map BlockInfo.size).sum
  bytes_free : u.allocator.stats.allocatedBytes +
    ((u.allocator.walk.filter (!·.used)).map BlockInfo.size).sum = u.allocator.stats.capacity
  freeBlocks_eq : u.allocator.stats.freeBlocks = (u.allocator.walk.filter (!·.used)).length
  largestFree_eq : u.allocator.stats.largestFree =
    ((u.allocator.walk.filter (!·.used)).map BlockInfo.size).max?.getD 0

/-- A state and the values that `allocatedBytes` has had on the way to it, during calls as well. -/
inductive Recorded (arena : Arena) : List Nat → Usage → Prop where
  | start {a : Allocator} {log : List Record} :
      ofArena arena = .ok (a, log) → Recorded arena [a.allocatedBytes] ⟨a, []⟩
  | step {levels : List Nat} {u : Usage} {call : Call} {cs : List Counters} :
      Recorded arena levels u → u.Permits call →
        u.allocator.counters.enterAll? (u.entries call) = some cs →
          Recorded arena (levels ++ cs.map Counters.bytes) (u.after call)

end Usage

namespace Allocator

open Heap

variable {a : Allocator} {held : List Holding} {L : Layout} {u : Usage}

theorem foldl_freeSummary (bs : List Block) (count largest : Nat) :
    bs.foldl (fun (count, largest) b =>
      if b.used then (count, largest) else (count + 1, max largest b.size)) (count, largest) =
    (count + (bs.filter (!·.used)).length,
      ((bs.filter (!·.used)).map Block.size).foldl max largest) := by
  induction bs generalizing count largest with
  | nil => rfl
  | cons b bs ih =>
    rw [List.foldl_cons]
    cases hu : b.used with
    | true => simp only [hu, if_true, ih, Bool.not_true, List.filter_cons, Bool.false_eq_true,
        if_false]
    | false =>
      simp only [hu, Bool.false_eq_true, if_false, ih, Bool.not_false, List.filter_cons, if_true,
        List.length_cons, List.map_cons, List.foldl_cons, Prod.mk.injEq, and_true]
      omega

theorem freeSummary_eq (bs : List Block) : freeSummary bs =
    ((bs.filter (!·.used)).length, ((bs.filter (!·.used)).map Block.size).max?.getD 0) := by
  unfold freeSummary
  rw [foldl_freeSummary, List.foldl_max, Nat.zero_add, Nat.zero_max]

theorem Serves.perm_pointers (S : Serves a held L) (hr : a.region.InRange) :
    (held.map Holding.pointer).Perm (L.used.map a.pointerOf) := by
  have hinj : ∀ b ∈ L.used, ∀ c ∈ L.used, a.pointerOf b = a.pointerOf c → b = c := by
    intro b hb c hc he
    obtain ⟨hb, hu⟩ := Layout.mem_used.mp hb
    obtain ⟨hc, hu'⟩ := Layout.mem_used.mp hc
    obtain ⟨x, -, user, P⟩ := S.covered hr b hb hu
    obtain ⟨y, -, user', P'⟩ := S.covered hr c hc hu'
    exact P.block_eq P' S.layout hb hc (P.pointerOf_eq.symm.trans (he.trans P'.pointerOf_eq))
  have hnd := S.layout.heap.valid.nodup_used.map_on hinj
  refine (List.perm_ext_iff_of_nodup S.nodup hnd).mpr fun p => ?_
  rw [List.mem_map, List.mem_map]
  constructor
  · rintro ⟨x, hx, rfl⟩
    obtain ⟨b, hb, user, P⟩ := S.placed x hx
    exact ⟨b, Layout.mem_used.mpr ⟨hb, P.used⟩, P.pointerOf_eq⟩
  · rintro ⟨b, hb, rfl⟩
    obtain ⟨hb, hu⟩ := Layout.mem_used.mp hb
    obtain ⟨x, hx, user, P⟩ := S.covered hr b hb hu
    exact ⟨x, hx, P.pointerOf_eq.symm⟩

theorem HasLayout.sum_size_eq (H : a.HasLayout L) : (L.used.map Block.size).sum +
    ((L.blocks.filter (!·.used)).map Block.size).sum = a.heap.capacity := by
  have hperm := ((List.filter_append_perm Block.used L.blocks).map Block.size).sum_eq
  have hsum := H.heap.valid.tiles.sum_size
  rw [List.map_append, List.sum_append] at hperm
  rw [Nat.zero_add] at hsum
  exact hperm.trans hsum

theorem Serves.statsAgree (S : Serves u.allocator u.held L) (B : u.allocator.Balanced L)
    (hr : u.allocator.region.InRange) : u.StatsAgree := by
  have hused : u.allocator.walk.filter BlockInfo.used = L.used.map u.allocator.info := by
    rw [S.layout.walk_eq, List.filter_map]
    rfl
  have hfree : u.allocator.walk.filter (!·.used) =
      (L.blocks.filter (!·.used)).map u.allocator.info := by
    rw [S.layout.walk_eq, List.filter_map]
    rfl
  have hsize : ∀ bs : List Block,
      (bs.map u.allocator.info).map BlockInfo.size = bs.map Block.size := fun bs =>
    List.map_map
  have hlen := (S.perm_pointers hr).length_eq
  rw [List.length_map, List.length_map] at hlen
  have hstats := S.layout.stats_eq
  rw [freeSummary_eq] at hstats
  constructor
  all_goals simp only [hstats, hused, hfree, hsize, List.length_map]
  case allocations_held => rw [B.allocations_eq, hlen]
  case allocations_used => exact B.allocations_eq
  case bytes_used => exact B.bytes_eq
  case bytes_free => rw [B.bytes_eq, S.layout.sum_size_eq]

end Allocator

namespace Usage

open Allocator

variable {arena : Arena} {levels : List Nat} {u : Usage} {call : Call}

namespace Reachable

theorem bytes_le_peak (h : Reachable arena u) (hr : arena.toRegion.InRange) :
    u.allocator.allocatedBytes ≤ u.allocator.peak := by
  induction h with
  | start h =>
    obtain ⟨capacity, -, -, -, -, -, rfl⟩ := exists_of_ofArena h
    exact Nat.le_refl 0
  | step h hp ih =>
    obtain ⟨L, S, B⟩ := h.balanced hr
    exact (S.enters B ih (h.serves.2 ▸ hr) hp).bytes_le

theorem enters (h : Reachable arena u) (hr : arena.toRegion.InRange) (hp : u.Permits call) :
    Enters u.allocator (u.entries call) (u.after call).allocator := by
  obtain ⟨L, S, B⟩ := h.balanced hr
  exact S.enters B (h.bytes_le_peak hr) (h.serves.2 ▸ hr) hp

theorem exists_recorded (h : Reachable arena u) (hr : arena.toRegion.InRange) :
    ∃ levels, Recorded arena levels u := by
  induction h with
  | start h => exact ⟨_, .start h⟩
  | step h hp ih =>
    obtain ⟨levels, R⟩ := ih
    obtain ⟨cs, hcs, -⟩ := h.enters hr hp
    exact ⟨_, R.step hp hcs⟩

end Reachable

namespace Recorded

theorem reachable (R : Recorded arena levels u) : Reachable arena u := by
  induction R with
  | start h => exact .start h
  | step _ hp _ ih => exact .step ih hp

theorem max?_eq (R : Recorded arena levels u) (hr : arena.toRegion.InRange) :
    levels.max? = some u.allocator.peak := by
  induction R with
  | start h =>
    obtain ⟨capacity, -, -, -, -, -, rfl⟩ := exists_of_ofArena h
    rfl
  | @step levels u call cs R hp hcs ih =>
    obtain ⟨cs', hcs', -, hpeak⟩ := R.reachable.enters hr hp
    obtain rfl : cs = cs' := Option.some.inj (hcs.symm.trans hcs')
    rw [hpeak]
    cases levels with
    | nil => cases ih
    | cons n levels =>
      rw [List.max?_cons', Option.some.injEq] at ih
      rw [List.cons_append, List.max?_cons', List.foldl_append, ih]

end Recorded

namespace Reachable

/--
The statistics agree with what is held and with the list of blocks, and the peak is the greatest
total since the allocator was built. The entries of every call can be made, as they take no more
than there is, and lead to the counters after it. The check passes, so that no heap that is used as
it should be is ever given up.
-/
theorem statistics_agree (h : Reachable arena u) (hr : arena.toRegion.InRange) :
    u.StatsAgree ∧
    ((∃ levels, Recorded arena levels u) ∧
      ∀ levels, Recorded arena levels u → levels.max? = some u.allocator.stats.peak) ∧
    (∀ call, u.Permits call → ∃ cs,
      u.allocator.counters.enterAll? (u.entries call) = some cs ∧
        cs.getLast? = some (u.after call).allocator.counters) ∧
    u.allocator.poisoned = false ∧ u.allocator.valid = .quiet true u.allocator := by
  obtain ⟨L, S, B⟩ := h.balanced hr
  have hregion : u.allocator.region.InRange := h.serves.2 ▸ hr
  refine ⟨S.statsAgree B hregion, ⟨h.exists_recorded hr, fun levels R => R.max?_eq hr⟩,
    fun call hp => ?_, B.unpoisoned, S.valid_eq B hregion⟩
  obtain ⟨cs, hcs, hlast, -⟩ := h.enters hr hp
  exact ⟨cs, hcs, hlast⟩

theorem statistics_agree_moved :
    ((smallUsage.after (.reallocate 4160 200)).allocator.allocatedBytes = 336 ∧
      ∃ levels, Recorded smallArena levels (smallUsage.after (.reallocate 4160 200)) ∧
        levels.max? = some 512) ∧
    (smallUsage.after (.reallocate 4160 200)).StatsAgree := by
  have hr : smallArena.toRegion.InRange := by
    unfold Region.InRange
    decide
  have hp : smallUsage.Permits (.reallocate 4160 200) :=
    Or.inr (by decide +kernel : ∃ x ∈ smallUsage.held, x.pointer = 4160)
  have hpeak : (smallUsage.after (.reallocate 4160 200)).allocator.stats.peak = 512 := by
    decide +kernel
  obtain ⟨hagree, ⟨⟨levels, R⟩, hmax⟩, -⟩ :=
    statistics_agree (.step reachable_smallUsage hp) hr
  exact ⟨⟨by decide +kernel, levels, R, hpeak ▸ hmax levels R⟩, hagree⟩

end Reachable

end Usage

end MemoryKit
