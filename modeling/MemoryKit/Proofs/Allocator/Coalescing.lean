import MemoryKit.Proofs.Allocator.Auditing

/-! # Coalescing

The free blocks are the gaps between the used ones, so that what is reported about a heap depends on
its used blocks alone. In whatever order allocations are freed, the same blocks are left, and one
that is freed right after it was served leaves no trace but the peak.
-/

namespace MemoryKit

namespace Allocator

open Heap

variable {a a' : Allocator} {held : List Holding} {L L' : Layout} {b c : Block} {user : Nat}
  {x : Holding} {pointers : List Nat}

/-- Used blocks and their labels decide what is reported, apart from the peak. -/
theorem reports_eq (H : a.HasLayout L) (H' : a'.HasLayout L') (B : a.Balanced L)
    (B' : a'.Balanced L') (hcap : a'.heap.capacity = a.heap.capacity)
    (hused : ∀ b, b ∈ L'.used ↔ b ∈ L.used)
    (hlabels : ∀ b ∈ L.used, a'.label? (a'.heap.tag b.offset) = a.label? (a.heap.tag b.offset)) :
    a'.walk = a.walk ∧ a'.stats = { a.stats with peak := a'.peak } := by
  have hblocks : L'.blocks = L.blocks :=
    H'.settled.blocks_eq H.settled (hcap ▸ H'.heap.valid) H.heap.valid fun u hu => by
      simpa only [Layout.mem_used, hu, and_true] using hused u
  have hsame : L'.used = L.used := congrArg (List.filter Block.used) hblocks
  constructor
  · rw [H'.walk_eq, H.walk_eq, hblocks]
    refine List.map_congr_left fun b hb => ?_
    unfold info
    split
    · next hu => rw [hlabels b (Layout.mem_used.mpr ⟨hb, hu⟩)]
    · rfl
  · rw [H'.stats_eq, H.stats_eq, hblocks, hcap, B'.allocations_eq, B.allocations_eq, B'.bytes_eq,
      B.bytes_eq, hsame]

/-- Frees the allocations of some pointers, one after the other, up to one that is refused. -/
def deallocateAll (a : Allocator) : List Nat → Except AllocatorError Unit × Allocator
  | [] => (.ok (), a)
  | pointer :: pointers =>
    match a.deallocate pointer with
    | (.ok (), freed) => freed.deallocateAll pointers
    | refused => refused

def pointerOf (a : Allocator) (b : Block) : Nat := a.region.address (a.heap.user b.offset)

theorem IsPlaced.pointerOf_eq (P : a.IsPlaced x b user) : a.pointerOf b = x.pointer := by
  rw [pointerOf, P.user_eq, P.pointer_eq]

structure Frees (a : Allocator) (L : Layout) (pointers : List Nat) (a' : Allocator) (L' : Layout) :
    Prop where
  mem_iff : ∀ b, b ∈ L'.used ↔ b ∈ L.used ∧ a.pointerOf b ∉ pointers
  pointerOf_eq : ∀ b ∈ L'.used, a'.pointerOf b = a.pointerOf b
  tag_eq : ∀ b ∈ L'.used, a'.heap.tag b.offset = a.heap.tag b.offset
  labels_eq : a'.labels = a.labels
  region_eq : a'.region = a.region
  capacity_eq : a'.heap.capacity = a.heap.capacity
  peak_eq : a'.peak = a.peak

theorem Frees.refl (a : Allocator) (L : Layout) : Frees a L [] a L :=
  ⟨by simp, fun _ _ => rfl, fun _ _ => rfl, rfl, rfl, rfl, rfl⟩

theorem Frees.trans {a'' : Allocator} {L'' : Layout} {pointers' : List Nat}
    (F : Frees a L pointers a' L') (F' : Frees a' L' pointers' a'' L'') :
    Frees a L (pointers ++ pointers') a'' L'' where
  mem_iff b := by
    rw [F'.mem_iff, List.mem_append, not_or, ← and_assoc, ← F.mem_iff]
    exact and_congr_right fun hb => by rw [F.pointerOf_eq b hb]
  pointerOf_eq b hb := (F'.pointerOf_eq b hb).trans (F.pointerOf_eq b ((F'.mem_iff b).mp hb).1)
  tag_eq b hb := (F'.tag_eq b hb).trans (F.tag_eq b ((F'.mem_iff b).mp hb).1)
  labels_eq := F'.labels_eq.trans F.labels_eq
  region_eq := F'.region_eq.trans F.region_eq
  capacity_eq := F'.capacity_eq.trans F.capacity_eq
  peak_eq := F'.peak_eq.trans F.peak_eq

theorem Serves.frees (S : Serves a held L) (B : a.Balanced L) (hr : a.region.InRange)
    (hx : x ∈ held) : ∃ a' L', a.deallocate x.pointer = (.ok (), a') ∧
      Serves a' (held.filter (·.pointer != x.pointer)) L' ∧ a'.Balanced L' ∧
        Frees a L [x.pointer] a' L' := by
  obtain ⟨b, hb, user, P⟩ := S.placed x hx
  obtain ⟨L', T, H, K, -⟩ := S.layout.freeBlock hb P.used
  have hok := P.deallocate_eq S.layout hb B.unpoisoned
  have M : Moves a held L (a.freeBlock b.offset) (held.filter (·.pointer != x.pointer)) L'
      (some b) none (some x) none :=
    ⟨T, H, rfl, S.exchange_filter hx, S.gone_iff hx hb P, by simp, by simp, fun _ => K⟩
  have hused : ∀ c, c ∈ L'.used ↔ c ∈ L.used ∧ c ∉ some b := fun c =>
    T.mem_used.trans (or_iff_left (by simp))
  have hpointer : ∀ c ∈ L.used, c ∈ some b ↔ a.pointerOf c = x.pointer := by
    intro c hc
    constructor
    · intro he
      obtain rfl : b = c := Option.some.inj he
      exact P.pointerOf_eq
    · intro he
      obtain ⟨hc, hu⟩ := Layout.mem_used.mp hc
      obtain ⟨y, hy, user', Py⟩ := S.covered hr c hc hu
      exact congrArg some (P.block_eq Py S.layout hb hc (he.symm.trans Py.pointerOf_eq))
  have hmem : ∀ c, c ∈ L'.used ↔ c ∈ L.used ∧ a.pointerOf c ∉ [x.pointer] := fun c => by
    rw [hused, List.mem_singleton]
    exact and_congr_right fun hc => not_congr (hpointer c hc)
  have hstay : ∀ c ∈ L'.used, c ∈ L.used ∧ c ∉ some b := fun c => (hused c).mp
  refine ⟨_, L', hok, M.serves S, K.balanced B, hmem, fun c hc => ?_,
    fun c hc => T.tag_eq (hstay c hc).1 (hstay c hc).2, rfl, rfl, T.capacity, rfl⟩
  exact congrArg a.region.address (T.user_eq (hstay c hc).1 (hstay c hc).2)

theorem Serves.deallocateAll (S : Serves a held L) (B : a.Balanced L) (hr : a.region.InRange)
    (hnd : pointers.Nodup) (hheld : ∀ p ∈ pointers, ∃ x ∈ held, x.pointer = p) :
    ∃ a' L', a.deallocateAll pointers = (.ok (), a') ∧
      Serves a' (held.filter (·.pointer ∉ pointers)) L' ∧ a'.Balanced L' ∧
        Frees a L pointers a' L' := by
  induction pointers generalizing a held L with
  | nil => exact ⟨a, L, rfl, by simpa using S, B, .refl a L⟩
  | cons p pointers ih =>
    obtain ⟨hp, hnd'⟩ := List.nodup_cons.mp hnd
    obtain ⟨⟨x, hx, rfl⟩, hheld'⟩ := List.forall_mem_cons.mp hheld
    obtain ⟨a₁, L₁, hok, S₁, B₁, F₁⟩ := S.frees B hr hx
    have hheld₁ : ∀ q ∈ pointers, ∃ y ∈ held.filter (·.pointer != x.pointer), y.pointer = q := by
      intro q hq
      obtain ⟨y, hy, rfl⟩ := hheld' q hq
      exact ⟨y, List.mem_filter.mpr ⟨hy, bne_iff_ne.mpr fun he => hp (he ▸ hq)⟩, rfl⟩
    obtain ⟨a', L', hall, S', B', F'⟩ := ih S₁ B₁ (F₁.region_eq ▸ hr) hnd' hheld₁
    have hfilter : (held.filter (·.pointer != x.pointer)).filter (·.pointer ∉ pointers) =
        held.filter (·.pointer ∉ x.pointer :: pointers) := by
      rw [List.filter_filter]
      refine List.filter_congr fun y _ => ?_
      simp only [List.mem_cons, not_or, Bool.decide_and, bne, Bool.and_comm, decide_not,
        beq_eq_decide]
    refine ⟨a', L', ?_, hfilter ▸ S', B', F₁.trans F'⟩
    rw [Allocator.deallocateAll, hok]
    exact hall

theorem Frees.reports_eq {a₁ a₂ : Allocator} {L₁ L₂ : Layout} {pointers' : List Nat}
    (F₁ : Frees a L pointers a₁ L₁) (F₂ : Frees a L pointers' a₂ L₂) (H₁ : a₁.HasLayout L₁)
    (H₂ : a₂.HasLayout L₂) (B₁ : a₁.Balanced L₁) (B₂ : a₂.Balanced L₂)
    (hsame : ∀ p, p ∈ pointers ↔ p ∈ pointers') : a₂.walk = a₁.walk ∧ a₂.stats = a₁.stats := by
  have hused : ∀ b, b ∈ L₂.used ↔ b ∈ L₁.used := fun b => by
    rw [F₁.mem_iff, F₂.mem_iff, hsame]
  have hlabels : ∀ b ∈ L₁.used,
      a₂.label? (a₂.heap.tag b.offset) = a₁.label? (a₁.heap.tag b.offset) := fun b hb => by
    rw [F₁.tag_eq b hb, F₂.tag_eq b ((hused b).mpr hb), label?, label?, F₁.labels_eq, F₂.labels_eq]
  obtain ⟨hwalk, hstats⟩ := Allocator.reports_eq H₁ H₂ B₁ B₂
    (F₂.capacity_eq.trans F₁.capacity_eq.symm) hused hlabels
  refine ⟨hwalk, hstats.trans ?_⟩
  rw [F₂.peak_eq.trans F₁.peak_eq.symm]
  rfl

theorem HasLayout.deallocate_allocated (H : a.HasLayout L) (B : a.Balanced L) {bytes : Nat}
    {label : Label} {options : AllocationOptions} {pointer : Nat}
    (hanswer : (a.allocate bytes label options).answer = some pointer) :
    ∃ a', (a.allocate bytes label options).state.deallocate pointer = (.ok (), a') ∧
      a'.walk = a.walk ∧ a'.stats = { a.stats with peak := a'.peak } := by
  have h := H.allocates bytes label options
  unfold Allocator.allocate at hanswer ⊢
  generalize a.allocateAligned bytes label options.alignment = r at *
  cases h with
  | refused => cases hanswer
  | lost => cases hanswer
  | @placed a₁ pointer₁ L₁ b user log H₁ hregion _ T P K =>
  obtain rfl : pointer₁ = pointer := Option.some.inj hanswer
  have B₁ := K.balanced B
  obtain ⟨L₂, T₂, H₂, K₂, -⟩ := H₁.freeBlock T.new_mem (P label).used
  have hother : ∀ c ∈ L.used, c ∉ some b := fun c hc he => by
    obtain rfl : b = c := Option.some.inj he
    exact T.not_mem_of_new (Layout.mem_used.mp hc).1
  have hmem : ∀ c, c ∈ L₂.used ↔ c ∈ L.used := by
    intro c
    have h₁ : c ∈ L₁.used ↔ c ∈ L.used ∨ c ∈ some b := by simpa using T.mem_used
    have h₂ : c ∈ L₂.used ↔ c ∈ L₁.used ∧ c ∉ some b := by simpa using T₂.mem_used
    rw [h₂, h₁]
    have hne := hother c
    tauto
  refine ⟨_, (P label).deallocate_eq H₁ T.new_mem B₁.unpoisoned,
    reports_eq H H₂ B (K₂.balanced B₁) (T₂.capacity.trans T.capacity) hmem fun c hc => ?_⟩
  have hc₁ : c ∈ L₁.used := T.mem_used.mpr (Or.inl ⟨hc, by simp⟩)
  rw [T₂.tag_eq hc₁ (hother c hc), T.tag_eq hc (by simp)]
  exact (B.tags c hc).label?_eq K.labels H₁.labels_le

end Allocator

namespace Usage.Reachable

open Allocator Heap

variable {arena : Arena} {u : Usage}

/--
In any order, freeing the same allocations leaves the same blocks and statistics, and freeing all of
them leaves one free block. An allocation that is freed right after it was served leaves the blocks
and, apart from the peak, the statistics from before.
-/
theorem coalescing (h : Reachable arena u) (hr : arena.toRegion.InRange) :
    (∀ pointers pointers' : List Nat, pointers.Nodup →
      (∀ p ∈ pointers, ∃ x ∈ u.held, x.pointer = p) → pointers.Perm pointers' →
        ∃ a a', u.allocator.deallocateAll pointers = (.ok (), a) ∧
          u.allocator.deallocateAll pointers' = (.ok (), a') ∧ a.walk = a'.walk ∧
            a.stats = a'.stats) ∧
    (∀ pointers : List Nat, pointers.Perm (u.held.map (·.pointer)) →
      ∃ a, u.allocator.deallocateAll pointers = (.ok (), a) ∧
        a.walk = [⟨0, u.allocator.heap.capacity, false, none⟩] ∧ a.stats.allocatedBytes = 0) ∧
    ∀ bytes label options pointer,
      (u.allocator.allocate bytes label options).answer = some pointer →
        ∃ a, (u.allocator.allocate bytes label options).state.deallocate pointer = (.ok (), a) ∧
          a.walk = u.allocator.walk ∧ a.stats = { u.allocator.stats with peak := a.peak } := by
  obtain ⟨L, S, B⟩ := h.balanced hr
  have hregion : u.allocator.region.InRange := h.serves.2 ▸ hr
  refine ⟨fun pointers pointers' hnd hheld hperm => ?_, fun pointers hperm => ?_,
    fun bytes label options pointer hanswer => ?_⟩
  · obtain ⟨a, L₁, hok, S₁, B₁, F₁⟩ := S.deallocateAll B hregion hnd hheld
    obtain ⟨a', L₂, hok', S₂, B₂, F₂⟩ := S.deallocateAll B hregion (hperm.nodup_iff.mp hnd)
      fun p hp => hheld p (hperm.mem_iff.mpr hp)
    obtain ⟨hwalk, hstats⟩ := F₂.reports_eq F₁ S₂.layout S₁.layout B₂ B₁ fun p =>
      hperm.symm.mem_iff
    exact ⟨a, a', hok, hok', hwalk, hstats⟩
  · have hnd : pointers.Nodup := hperm.nodup_iff.mpr S.nodup
    obtain ⟨a, L', hok, S', B', F⟩ := S.deallocateAll B hregion hnd fun p hp =>
      List.mem_map.mp (hperm.mem_iff.mp hp)
    have hnone : u.held.filter (·.pointer ∉ pointers) = [] :=
      List.filter_eq_nil_iff.mpr fun x hx => by
        simpa using hperm.mem_iff.mpr (List.mem_map_of_mem hx)
    have hused : L'.used = [] := (hnone ▸ S').used_eq_nil (F.region_eq ▸ hregion)
    have hblocks : L'.blocks = [⟨0, a.heap.capacity, false⟩] :=
      S'.layout.settled.blocks_eq_singleton S'.layout.heap.valid S'.layout.capacity_pos fun b hb =>
        Bool.eq_false_iff.mpr fun hu => by simpa [hused] using Layout.mem_used.mpr ⟨hb, hu⟩
    refine ⟨a, hok, ?_, ?_⟩
    · rw [S'.layout.walk_eq, hblocks, ← F.capacity_eq]
      rfl
    · rw [S'.layout.stats_eq]
      dsimp only
      rw [B'.bytes_eq, hused, List.map_nil, List.sum_nil]
  · exact S.layout.deallocate_allocated B hanswer

theorem coalescing_smallUsage :
    ∃ a a', smallUsage.allocator.deallocateAll [4288, 4160] = (.ok (), a) ∧
      smallUsage.allocator.deallocateAll [4160, 4288] = (.ok (), a') ∧ a.walk = a'.walk ∧
        a.stats = a'.stats := by
  have hr : smallArena.toRegion.InRange := by
    unfold Region.InRange
    decide
  have hheld : ∀ p ∈ [4288, 4160], ∃ x ∈ smallUsage.held, x.pointer = p := by decide +kernel
  exact (coalescing reachable_smallUsage hr).1 [4288, 4160] [4160, 4288] (by decide) hheld
    (by decide)

end Usage.Reachable

end MemoryKit
