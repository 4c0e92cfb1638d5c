import MemoryKit.Proofs.Allocator.Safety
import MemoryKit.Proofs.Heap.Checking

/-! # Audits of an allocator

The accounts of an allocator are right in every state that callers can bring it to, so that its
check never finds a fault and it never refuses to serve. What it reports, the list of blocks and the
statistics, is read off the blocks, the tags of the used ones and the accounts.
-/

namespace MemoryKit

namespace Allocator

open Heap

variable {a a' : Allocator} {held : List Holding} {L L' : Layout} {b : Block} {user : Nat}
  {x : Holding} {u : Usage} {call : Call}

theorem IsPlaced.run_inspectBlockLink (P : a.IsPlaced x b user) (huser : user < wordLimit) :
    (inspectBlockLink b.offset user).run a.heap.memory = true := by
  have hfront := P.header_le
  simp only [headerSize] at hfront
  have hlead : wrappingSub wordLimit user b.offset = user - b.offset :=
    wrappingSub_eq (by omega) huser
  have hlink : wrappingSub wordLimit user 4 = user - 4 := wrappingSub_eq (by omega) huser
  unfold inspectBlockLink
  rw [hlead, hlink]
  split
  · next hpad =>
    have hblock := P.blockAt_eq
    unfold blockAt at hblock
    dsimp only at hblock
    split at hblock
    · omega
    · rw [Inspect.run_read, Inspect.run_done, beq_iff_eq]
      exact hblock
  · rfl

theorem IsPlaced.run_inspectIsAllocation (P : a.IsPlaced x b user) (H : a.HasLayout L)
    (hb : b ∈ L.blocks) :
    (inspectIsAllocation a.heap.capacity b.offset user).run a.heap.memory = true := by
  have hbounds := H.heap.valid.tiles.bounds hb
  have hlt := P.user_lt
  have hmod : b.offset % granule = 0 := Nat.mod_eq_zero_of_dvd (H.heap.granule_dvd hb)
  have hused : isUsedWord (a.heap.memory.word b.offset) = true := (H.heap.isUsed_eq hb).trans P.used
  have hsize : sizeOfWord (a.heap.memory.word b.offset) = b.size := H.heap.blockSize_eq hb
  have huser : a.heap.memory.word (b.offset + nextField) = user := P.user_eq
  unfold inspectIsAllocation
  rw [if_pos ⟨hmod, P.header_le, by omega⟩]
  simp only [Inspect.run_read, hused, if_true, Inspect.run_done, huser, hsize, beq_self_eq_true,
    Bool.true_and, decide_eq_true_eq]
  exact hlt

theorem IsPlaced.run_inspectAllocation (P : a.IsPlaced x b user) (H : a.HasLayout L)
    (hb : b ∈ L.blocks) (hknown : a.KnowsTag (a.heap.tag b.offset)) :
    (inspectAllocation a.heap.capacity a.labels.size b.offset).run a.heap.memory = none := by
  have hbounds := H.heap.valid.tiles.bounds hb
  have hcap := H.heap.capacity_lt
  have hlt := P.user_lt
  have huser : a.heap.memory.word (b.offset + nextField) = user := P.user_eq
  have hmod : user % granule = 0 := Nat.mod_eq_zero_of_dvd P.granule_dvd
  have hlabel : ¬ (labelOfTag (a.heap.memory.word (b.offset + prevField)) ≠ noLabel ∧
      a.labels.size ≤ labelOfTag (a.heap.memory.word (b.offset + prevField))) := by
    rintro ⟨hne, hle⟩
    exact hknown.elim hne (Nat.not_lt.mpr hle)
  unfold inspectAllocation
  rw [Inspect.run_read, huser, Inspect.run_read, Inspect.run_bind, P.run_inspectIsAllocation H hb]
  simp only [Bool.true_eq_false, hmod, ne_eq, not_true_eq_false, or_self, if_false]
  rw [Inspect.run_bind, P.run_inspectBlockLink (by omega)]
  simp only [Bool.true_eq_false, if_false]
  rw [if_neg hlabel, Inspect.run_done]

theorem run_inspectAllocations {capacity labels : Nat} {m : Memory} {bs : List Block}
    (h : ∀ b ∈ bs, b.used = true → (inspectAllocation capacity labels b.offset).run m = none) :
    (inspectAllocations capacity labels bs).run m = none := by
  induction bs with
  | nil => rfl
  | cons b bs ih =>
    obtain ⟨hb, hbs⟩ := List.forall_mem_cons.mp h
    unfold inspectAllocations
    split
    · next hu =>
      rw [Inspect.run_bind, hb hu]
      exact ih hbs
    · exact ih hbs

theorem Serves.check_eq_ok (S : Serves a held L) (B : a.Balanced L) (hr : a.region.InRange) :
    a.check = .ok () := by
  have H := S.layout
  have hcheck : (inspectCheck a.heap.capacity a.heap.index).run a.heap.memory = .ok () :=
    H.heap.check_eq_ok H.settled
  have hblocks : (inspectBlocks a.heap.capacity).run a.heap.memory = L.blocks := H.heap.blocks_eq
  have hnone : (inspectAllocations a.heap.capacity a.labels.size L.blocks).run a.heap.memory =
      none := by
    refine run_inspectAllocations fun b hb hu => ?_
    obtain ⟨x, -, user, P⟩ := S.covered hr b hb hu
    exact P.run_inspectAllocation H hb (B.tags b (Layout.mem_used.mpr ⟨hb, hu⟩))
  have hcount : (L.blocks.filter Block.used).length = a.allocations := B.allocations_eq.symm
  have hbytes : (L.blocks.filter Block.used).foldl (fun bytes b => bytes + b.size) 0 =
      a.allocatedBytes := by
    rw [B.bytes_eq, List.sum_eq_foldl, List.foldl_map]
    rfl
  unfold check inspect
  rw [Inspect.run_bind, hcheck]
  dsimp only
  rw [Inspect.run_bind, hblocks, Inspect.run_bind, hnone]
  dsimp only
  rw [if_neg (not_not.mpr hcount), if_neg (not_not.mpr hbytes), Inspect.run_done]

theorem Serves.valid_eq (S : Serves a held L) (B : a.Balanced L) (hr : a.region.InRange) :
    a.valid = .quiet true a := by
  unfold valid
  rw [B.unpoisoned, if_neg Bool.false_ne_true, S.check_eq_ok B hr]

theorem balanced_of_unused (hnone : L.used = []) (hcount : a.allocations = 0)
    (hbytes : a.allocatedBytes = 0) (hp : a.poisoned = false) : a.Balanced L :=
  ⟨by rw [hcount, hnone, List.length_nil], by rw [hbytes, hnone, List.map_nil, List.sum_nil],
    by simp [hnone], hp⟩

theorem Serves.used_eq_nil (S : Serves a [] L) (hr : a.region.InRange) : L.used = [] := by
  refine List.eq_nil_iff_forall_not_mem.mpr fun b hb => ?_
  obtain ⟨hb, hu⟩ := Layout.mem_used.mp hb
  obtain ⟨x, hx, -⟩ := S.covered hr b hb hu
  cases hx

theorem balanced_ofArena {arena : Arena} {log : List Record} (h : ofArena arena = .ok (a, log))
    (hr : arena.toRegion.InRange) : ∃ L, Serves a [] L ∧ a.Balanced L := by
  obtain ⟨⟨L, S⟩, hregion⟩ := serves_ofArena h
  have hnone := S.used_eq_nil (hregion ▸ hr)
  obtain ⟨capacity, -, -, -, -, -, rfl⟩ := exists_of_ofArena h
  exact ⟨L, S, balanced_of_unused hnone rfl rfl rfl⟩

theorem Serves.after_balanced (S : Serves u.allocator u.held L) (B : u.allocator.Balanced L)
    (hr : u.allocator.region.InRange) (hp : u.Permits call) :
    ∃ L', Serves (u.after call).allocator (u.after call).held L' ∧
      (u.after call).allocator.Balanced L' := by
  by_cases hc : call.IsRequest
  · obtain ⟨L', gone, new, dropped, added, M, -⟩ := S.moves hc hp
    exact ⟨L', M.serves S, (M.books hr).balanced B⟩
  cases call with
  | allocate => exact absurd trivial hc
  | reallocate => exact absurd trivial hc
  | deallocate => exact absurd trivial hc
  | reset =>
    have S' : Serves u.allocator.reset.state [] _ := .of_emptyLayout S.layout.reset
    exact ⟨_, S', balanced_of_unused (S'.used_eq_nil hr) rfl rfl rfl⟩
  | valid =>
    have hsame : (u.after .valid).allocator = u.allocator :=
      congrArg Outcome.state (S.valid_eq B hr)
    exact ⟨L, hsame ▸ S, hsame ▸ B⟩
  | write offset bytes =>
    obtain ⟨S', K⟩ := S.write_permitted hp
    exact ⟨L, S', K.balanced B⟩

/-- What is reported about a block: a used one has a label, if that was not dropped. -/
def info (a : Allocator) (b : Block) : BlockInfo :=
  ⟨b.offset, b.size, b.used, if b.used then a.label? (a.heap.tag b.offset) else none⟩

theorem run_inspectLabels (a : Allocator) (bs : List Block) :
    (inspectLabels a.labels bs).run a.heap.memory = bs.map a.info := by
  induction bs with
  | nil => rfl
  | cons b bs ih =>
    unfold inspectLabels
    cases hu : b.used
    · simp only [Bool.false_eq_true, if_false, Inspect.run_bind, Inspect.run_done, ih,
        List.map_cons, info, hu]
    · simp only [if_true, Inspect.run_read, Inspect.run_bind, Inspect.run_done, ih, List.map_cons,
        info, hu]
      rfl

theorem walk_eq (a : Allocator) : a.walk = a.heap.blocks.map a.info := by
  unfold walk inspectWalk
  rw [Inspect.run_bind, run_inspectLabels]
  rfl

def freeSummary (bs : List Block) : Nat × Nat :=
  bs.foldl
    (fun (count, largest) b => if b.used then (count, largest) else (count + 1, max largest b.size))
    (0, 0)

theorem HasLayout.stats_eq (H : a.HasLayout L) : a.stats =
    { allocations := a.allocations
      allocatedBytes := a.allocatedBytes
      peak := a.peak
      capacity := a.heap.capacity
      freeBlocks := (freeSummary L.blocks).1
      largestFree := (freeSummary L.blocks).2 } := by
  have hfree : (inspectFree a.heap.capacity).run a.heap.memory = freeSummary L.blocks :=
    H.heap.describes.foldBlocks_eq H.heap.valid.tiles _ _
  simp only [stats, hfree]

theorem HasLayout.walk_eq (H : a.HasLayout L) : a.walk = L.blocks.map a.info := by
  rw [Allocator.walk_eq, H.heap.blocks_eq]

end Allocator

namespace Usage.Reachable

open Allocator

variable {arena : Arena} {u : Usage}

/-- In every reachable state the accounts are right, if the addresses of the arena are sizes. -/
theorem balanced (h : Reachable arena u) (hr : arena.toRegion.InRange) :
    ∃ L, Serves u.allocator u.held L ∧ u.allocator.Balanced L := by
  induction h with
  | start h => exact balanced_ofArena h hr
  | step h hp ih =>
    obtain ⟨L, S, B⟩ := ih
    exact S.after_balanced B (h.serves.2 ▸ hr) hp

end Usage.Reachable

end MemoryKit
