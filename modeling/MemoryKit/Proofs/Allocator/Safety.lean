import MemoryKit.Proofs.Allocator.Service
import MemoryKit.Proofs.Heap.WellFormed

/-! # Safety of allocators

In every reachable state the heap is well formed, allocations lie where nobody else writes, and
requests leave the contents of all allocations but their own alone.
-/

namespace MemoryKit

namespace Allocator

open Heap

variable {a a' : Allocator} {held : List Holding} {L L' : Layout} {b : Block} {user : Nat}
  {x : Holding} {u : Usage} {call : Call}

def Apart (start size start' size' : Nat) : Prop :=
  start + size ≤ start' ∨ start' + size' ≤ start

namespace IsPlaced

variable {c : Block} {user' : Nat} {y : Holding} (P : a.IsPlaced x b user) (H : a.HasLayout L)
  (hb : b ∈ L.blocks) (hc : c ∈ L.blocks)

include P H hb hc

theorem apart_header :
    Apart x.pointer (b.offset + b.size - user) (a.region.start + c.offset) headerSize := by
  have hbounds := H.heap.valid.tiles.bounds hc
  have hle : granule ≤ c.size := Nat.le_of_dvd hbounds.2.2.1 hbounds.2.2.2
  have hfront := P.header_le
  have hlt := P.user_lt
  rw [P.pointer_eq, Region.address]
  simp only [Apart, headerSize, granule] at *
  rcases H.heap.valid.tiles.apart hb hc with rfl | hap | hap <;> omega

variable (Py : a.IsPlaced y c user')

include Py

theorem apart_data (hne : y.pointer ≠ x.pointer) :
    Apart x.pointer (b.offset + b.size - user) y.pointer (c.offset + c.size - user') := by
  have hfront := P.header_le
  have hlt := P.user_lt
  have hfront' := Py.header_le
  have hlt' := Py.user_lt
  unfold Apart
  rcases H.heap.valid.tiles.apart hb hc with rfl | hap | hap
  · exact absurd (Py.pointer_eq_of_eq P) hne
  · rw [P.pointer_eq, Py.pointer_eq, Region.address, Region.address]
    omega
  · rw [P.pointer_eq, Py.pointer_eq, Region.address, Region.address]
    omega

theorem apart_word : Apart x.pointer (b.offset + b.size - user) (y.pointer - 4) 4 := by
  have hfront := P.header_le
  have hlt := P.user_lt
  have hfront' := Py.header_le
  have hlt' := Py.user_lt
  rw [P.pointer_eq, Py.pointer_eq, Region.address, Region.address]
  simp only [Apart, headerSize] at *
  rcases H.heap.valid.tiles.apart hb hc with rfl | hap | hap
  · have huser : user = user' := P.user_eq.symm.trans Py.user_eq
    omega
  · omega
  · omega

end IsPlaced

def Call.IsRequest : Call → Prop
  | allocate _ _ _ => True
  | reallocate _ _ => True
  | deallocate _ => True
  | _ => False

theorem Serves.moves (S : Serves u.allocator u.held L) (hc : call.IsRequest)
    (hp : u.Permits call) : ∃ L' gone new dropped added, Moves u.allocator u.held L
      (u.after call).allocator (u.after call).held L' gone new dropped added ∧
        ∀ y ∈ dropped, call.pointer? = some y.pointer := by
  cases call with
  | allocate bytes label options =>
    obtain ⟨L', new, added, M⟩ := S.moves_allocate bytes label options
    exact ⟨L', none, new, none, added, M, by simp⟩
  | reallocate pointer bytes =>
    rcases hp with rfl | ⟨x, hx, rfl⟩
    · rw [after_reallocate_zero]
      obtain ⟨L', new, added, M⟩ := S.moves_allocate bytes .resized .standard
      exact ⟨L', none, new, none, added, M, by simp⟩
    · obtain ⟨L', gone, new, dropped, added, M, hd⟩ := S.moves_reallocate hx bytes
      exact ⟨L', gone, new, dropped, added, M, fun y hy => by rw [hd y hy]; rfl⟩
  | deallocate pointer =>
    rcases hp with rfl | ⟨x, hx, rfl⟩
    · refine ⟨L, none, none, none, none, .same S rfl ?_, by simp⟩
      refine List.filter_eq_self.mpr fun y hy => ?_
      obtain ⟨b, -, user, P⟩ := S.placed y hy
      exact bne_iff_ne.mpr P.pointer_ne_zero
    · obtain ⟨L', gone, dropped, M, hd⟩ := S.moves_deallocate hx
      exact ⟨L', gone, none, dropped, none, M, fun y hy => by rw [hd y hy]; rfl⟩
  | reset => exact hc.elim
  | valid => exact hc.elim
  | write => exact hc.elim

structure Sized (a : Allocator) : Prop where
  granule_dvd_capacity : granule ∣ a.heap.capacity
  capacity_pos : 0 < a.heap.capacity
  capacity_lt : a.heap.capacity < wordLimit
  capacity_le : a.heap.capacity ≤ a.region.size
  granule_dvd : granule ∣ a.region.start
  labels_le : a.labels.size ≤ noLabel

theorem HasLayout.sized (H : a.HasLayout L) : a.Sized where
  granule_dvd_capacity := H.heap.valid.tiles.granule_dvd_stop (Nat.dvd_zero _)
  capacity_pos := H.capacity_pos
  capacity_lt := H.heap.capacity_lt
  capacity_le := H.capacity_le
  granule_dvd := H.granule_dvd
  labels_le := H.labels_le

theorem Sized.reset (h : a.Sized) : a.reset.state.HasLayout (emptyLayout a.heap.capacity) := by
  have hcap : a.reset.state.heap.capacity = a.heap.capacity := capacity_reset _
  exact ⟨hasLayout_reset a.heap h.granule_dvd_capacity h.capacity_pos h.capacity_lt,
    settled_emptyLayout _, hcap ▸ h.capacity_pos, hcap ▸ h.capacity_le, h.granule_dvd,
    h.labels_le⟩

theorem HasLayout.reset (H : a.HasLayout L) :
    a.reset.state.HasLayout (emptyLayout a.heap.capacity) := H.sized.reset

theorem Serves.of_emptyLayout {capacity : Nat} (H : a.HasLayout (emptyLayout capacity)) :
    Serves a [] (emptyLayout capacity) where
  layout := H
  placed := by simp
  nodup := List.nodup_nil
  covered _ b hb hu := by
    obtain rfl := List.mem_singleton.mp hb
    cases hu

theorem Serves.write (S : Serves a held L) (hb : b ∈ L.blocks) (P : a.IsPlaced x b user)
    {m : Memory} (hm : ∀ i, i < user ∨ b.offset + b.size ≤ i → m.byte i = a.heap.memory.byte i) :
    Serves { a with heap := { a.heap with memory := m } } held L := by
  have ht := S.layout.heap.valid.tiles
  have hfront := P.header_le
  simp only [headerSize] at hfront
  have hlayout : ({ a.heap with memory := m } : Heap).HasLayout L :=
    S.layout.heap.of_memory fun i hi => hm i <| by
      by_contra hcon
      exact ht.not_inLinks (P.inData hb (by omega) (by omega)) hi
  have hplaced : ∀ y, ∀ c ∈ L.blocks, ∀ user', a.IsPlaced y c user' →
      IsPlaced { a with heap := { a.heap with memory := m } } y c user' := by
    intro y c hc user' Py
    refine Py.congr rfl rfl Py.used rfl rfl Py.fits fun i hlo hhi => hm i ?_
    have hlt := Py.user_lt
    rcases ht.apart hc hb with rfl | hap | hap
    · have huser : user = user' := P.user_eq.symm.trans Py.user_eq
      omega
    · omega
    · omega
  refine ⟨⟨hlayout, S.layout.settled, S.layout.capacity_pos, S.layout.capacity_le,
    S.layout.granule_dvd, S.layout.labels_le⟩, fun y hy => ?_, S.nodup, fun hr c hc hu => ?_⟩
  · obtain ⟨c, hc, user', Py⟩ := S.placed y hy
    exact ⟨c, hc, user', hplaced y c hc user' Py⟩
  · obtain ⟨y, hy, user', Py⟩ := S.covered hr c hc hu
    exact ⟨y, hy, user', hplaced y c hc user' Py⟩

theorem Serves.exists_of_write {offset : Nat} {bytes : List UInt8}
    (S : Serves u.allocator u.held L) (hp : u.Permits (.write offset bytes)) :
    ∃ x, ∃ b ∈ L.blocks, ∃ user, u.allocator.IsPlaced x b user ∧
      ∀ i, i < user ∨ b.offset + b.size ≤ i →
        (u.allocator.heap.memory.write offset bytes).byte i = u.allocator.heap.memory.byte i := by
  obtain ⟨x, hx, size, hs, hlo, hhi⟩ := hp
  obtain ⟨b, hb, user, P⟩ := S.placed x hx
  rw [P.size?_eq S.layout hb, Option.some.injEq] at hs
  rw [P.pointer_eq, Region.address, Region.address] at hlo hhi
  have hlt := P.user_lt
  exact ⟨x, b, hb, user, P, fun i hi => Memory.byte_write_of_outside (by omega)⟩

theorem Serves.write_permitted {offset : Nat} {bytes : List UInt8}
    (S : Serves u.allocator u.held L) (hp : u.Permits (.write offset bytes)) :
    Serves (u.allocator.write offset bytes) u.held L ∧
      KeepsBooks u.allocator L (u.allocator.write offset bytes) L := by
  obtain ⟨x, b, hb, user, P, hm⟩ := S.exists_of_write hp
  exact ⟨S.write hb P hm, .write S.layout hb P hm⟩

theorem Serves.same (S : Serves a held L) (hheap : a'.heap = a.heap)
    (hregion : a'.region = a.region) (hlabels : a'.labels = a.labels) : Serves a' held L := by
  have T : Trades a.heap L a'.heap L none none := by
    rw [hheap]
    exact .same S.layout.heap S.layout.settled
  have hplaced : ∀ y c user', a.IsPlaced y c user' → a'.IsPlaced y c user' := fun y c user' P =>
    P.congr hregion rfl P.used rfl rfl P.fits fun _ _ _ => by rw [hheap]
  refine ⟨S.layout.of_trades T hregion (hlabels ▸ S.layout.labels_le), fun x hx => ?_, S.nodup,
    fun hr b hb hu => ?_⟩
  · obtain ⟨b, hb, user, P⟩ := S.placed x hx
    exact ⟨b, hb, user, hplaced x b user P⟩
  · obtain ⟨x, hx, user, P⟩ := S.covered (hregion ▸ hr) b hb hu
    exact ⟨x, hx, user, hplaced x b user P⟩

/-- Every call that is permitted leaves the allocator able to serve. -/
theorem Serves.after (S : Serves u.allocator u.held L) (hp : u.Permits call) :
    (∃ L', Serves (u.after call).allocator (u.after call).held L') ∧
      (u.after call).allocator.region = u.allocator.region := by
  by_cases hc : call.IsRequest
  · obtain ⟨L', gone, new, dropped, added, M, -⟩ := S.moves hc hp
    exact ⟨⟨L', M.serves S⟩, M.region_eq⟩
  cases call with
  | allocate => exact absurd trivial hc
  | reallocate => exact absurd trivial hc
  | deallocate => exact absurd trivial hc
  | reset => exact ⟨⟨_, .of_emptyLayout S.layout.reset⟩, rfl⟩
  | valid =>
    have hsame : u.allocator.valid.state.heap = u.allocator.heap ∧
        u.allocator.valid.state.region = u.allocator.region ∧
          u.allocator.valid.state.labels = u.allocator.labels := by
      unfold Allocator.valid
      split
      · exact ⟨rfl, rfl, rfl⟩
      · split <;> exact ⟨rfl, rfl, rfl⟩
    exact ⟨⟨L, S.same hsame.1 hsame.2.1 hsame.2.2⟩, hsame.2.1⟩
  | write offset bytes => exact ⟨⟨L, (S.write_permitted hp).1⟩, rfl⟩

theorem exists_of_ofArena {arena : Arena} {log : List Record} (h : ofArena arena = .ok (a, log)) :
    ∃ capacity, granule ∣ capacity ∧ 0 < capacity ∧ capacity < wordLimit ∧ capacity ≤ arena.size ∧
      granule ∣ arena.start ∧
        a = ⟨arena.toRegion, .create arena.memory capacity, #[], 0, 0, 0, false⟩ := by
  unfold ofArena at h
  dsimp only at h
  split at h
  · cases h
  · next haligned =>
    split at h
    · cases h
    · next hsize =>
      have hle : usableSize arena.size ≤ min arena.size (wordLimit - 1) := Nat.div_mul_le_self _ _
      have hlimit : 0 < wordLimit := by decide
      rw [Bool.not_eq_false, Region.isAligned, Bool.and_eq_true, beq_iff_eq] at haligned
      simp only [minSize, granule] at hsize
      cases h
      exact ⟨usableSize arena.size, Nat.dvd_mul_left _ _, by omega, by omega, by omega,
        Nat.dvd_of_mod_eq_zero haligned.2, rfl⟩

theorem exists_reset_of_ofArena {arena : Arena} {log : List Record}
    (h : ofArena arena = .ok (a, log)) : ∃ a₀ : Allocator, a = a₀.reset.state ∧ a₀.Sized ∧
      a₀.region = arena.toRegion ∧ a₀.labels = #[] := by
  obtain ⟨capacity, hdvd, hpos, hlt, hle, hstart, rfl⟩ := exists_of_ofArena h
  exact ⟨⟨arena.toRegion, ⟨arena.memory, capacity, .empty⟩, #[], 0, 0, 0, false⟩, rfl,
    ⟨hdvd, hpos, hlt, hle, hstart, Nat.zero_le _⟩, rfl, rfl⟩

theorem serves_ofArena {arena : Arena} {log : List Record} (h : ofArena arena = .ok (a, log)) :
    (∃ L, Serves a [] L) ∧ a.region = arena.toRegion := by
  obtain ⟨a₀, rfl, hsized, hregion, -⟩ := exists_reset_of_ofArena h
  exact ⟨⟨_, .of_emptyLayout hsized.reset⟩, hregion⟩

end Allocator

namespace Usage.Reachable

open Allocator Heap

variable {arena : Arena} {u : Usage}

theorem serves (h : Reachable arena u) :
    (∃ L, Serves u.allocator u.held L) ∧ u.allocator.region = arena.toRegion := by
  induction h with
  | start h => exact serves_ofArena h
  | step _ hp ih =>
    obtain ⟨⟨L, S⟩, hregion⟩ := ih
    exact ⟨(S.after hp).1, (S.after hp).2.trans hregion⟩

def smallArena : Arena := .borrow 4096 512 .zeroed

def cacheLine : AllocationOptions := { alignment := 64 }

/-- An allocator over the small arena from which two allocations are held. -/
def smallUsage : Usage :=
  ((Usage.mk ⟨smallArena.toRegion, .create .zeroed 512, #[], 0, 0, 0, false⟩ []).after
    (.allocate 100 ⟨8, "first"⟩ cacheLine)).after
    (.allocate 40 ⟨16, "second"⟩ .standard)

theorem reachable_smallUsage : Reachable smallArena smallUsage :=
  .step (.step (.start rfl) trivial) trivial

theorem heap_isWellFormed (h : Reachable arena u) : u.allocator.heap.IsWellFormed := by
  obtain ⟨⟨L, S⟩, -⟩ := h.serves
  exact S.layout.heap.isWellFormed S.layout.settled

theorem heap_isWellFormed_smallUsage :
    Reachable smallArena smallUsage ∧ smallUsage.allocator.heap.IsWellFormed :=
  ⟨reachable_smallUsage, heap_isWellFormed reachable_smallUsage⟩

/--
Allocations that are held have different pointers. Every one is aligned, large enough and inside of
the arena, and has no byte in common with another one, with a header or with a word in front of an
allocation.
-/
theorem isSafelyPlaced (h : Reachable arena u) : (u.held.map (·.pointer)).Nodup ∧ ∀ x ∈ u.held,
    x.options.alignment ∣ x.pointer ∧
      ∃ size, u.allocator.size? x.pointer = some size ∧ max x.bytes 1 ≤ size ∧
        arena.start ≤ x.pointer ∧ x.pointer + size ≤ arena.start + arena.size ∧
        (∀ y ∈ u.held, y ≠ x → ∀ size', u.allocator.size? y.pointer = some size' →
          Apart x.pointer size y.pointer size') ∧
        (∀ b ∈ u.allocator.heap.blocks,
          Apart x.pointer size (arena.start + b.offset) headerSize) ∧
        ∀ y ∈ u.held, Apart x.pointer size (y.pointer - 4) 4 := by
  obtain ⟨⟨L, S⟩, hregion⟩ := h.serves
  have hstart : u.allocator.region.start = arena.start := congrArg Region.start hregion
  refine ⟨S.nodup, fun x hx => ?_⟩
  obtain ⟨b, hb, user, P⟩ := S.placed x hx
  have hbounds := S.layout.heap.valid.tiles.bounds hb
  have hcap : u.allocator.heap.capacity ≤ arena.size := by
    have hle := S.layout.capacity_le
    rwa [hregion] at hle
  have hpointer : x.pointer = arena.start + user := by
    rw [P.pointer_eq, Region.address, hstart]
  have hlt := P.user_lt
  have hfits := P.fits
  refine ⟨P.aligned, _, P.size?_eq S.layout hb, by omega, by omega, by omega,
    fun y hy hne size' hs => ?_, fun c hc => ?_, fun y hy => ?_⟩
  · obtain ⟨c, hc, user', Py⟩ := S.placed y hy
    rw [Py.size?_eq S.layout hc, Option.some.injEq] at hs
    exact hs ▸ P.apart_data S.layout hb hc Py fun he => hne (S.distinct hy hx he)
  · rw [S.layout.heap.blocks_eq] at hc
    exact hstart ▸ P.apart_header S.layout hb hc
  · obtain ⟨c, hc, user', Py⟩ := S.placed y hy
    exact P.apart_word S.layout hb hc Py

theorem isSafelyPlaced_smallUsage : smallUsage.held.map (·.pointer) = [4288, 4160] ∧
    ∀ x ∈ smallUsage.held, x.options.alignment ∣ x.pointer ∧
      ∃ size, smallUsage.allocator.size? x.pointer = some size ∧ max x.bytes 1 ≤ size := by
  refine ⟨by decide +kernel, fun x hx => ?_⟩
  obtain ⟨haligned, size, hs, hle, -⟩ := (isSafelyPlaced reachable_smallUsage).2 x hx
  exact ⟨haligned, size, hs, hle⟩

/--
A request leaves the contents of all allocations alone, but for the one whose pointer is handed in;
and one that is resized keeps its contents up to the smaller of the two sizes.
-/
theorem contents_survive (h : Reachable arena u) :
    (∀ call : Call, call.IsRequest → u.Permits call → ∀ y ∈ u.held,
      call.pointer? ≠ some y.pointer → ∀ size, u.allocator.size? y.pointer = some size →
        (u.after call).allocator.read (y.pointer - arena.start) size =
          u.allocator.read (y.pointer - arena.start) size) ∧
    ∀ x ∈ u.held, ∀ bytes moved size, u.allocator.size? x.pointer = some size →
      (u.allocator.reallocate x.pointer bytes).answer = some moved →
        (u.allocator.reallocate x.pointer bytes).state.read (moved - arena.start) (min size bytes) =
          u.allocator.read (x.pointer - arena.start) (min size bytes) := by
  obtain ⟨⟨L, S⟩, hregion⟩ := h.serves
  have hoffset : ∀ y ∈ u.held, ∀ c user, u.allocator.IsPlaced y c user →
      y.pointer - arena.start = user := by
    intro y hy c user Py
    rw [Py.pointer_eq, hregion, Region.address, Nat.add_sub_cancel_left]
  refine ⟨fun call hc hp y hy hne size hs => ?_, fun x hx bytes moved size hs hm => ?_⟩
  · obtain ⟨L', gone, new, dropped, added, M, hd⟩ := S.moves hc hp
    obtain ⟨b, hb, user, P⟩ := S.placed y hy
    rw [P.size?_eq S.layout hb, Option.some.injEq] at hs
    rw [hoffset y hy b user P]
    obtain ⟨hb', -⟩ := M.of_not_dropped hy (fun hy' => hne (hd y hy')) hb P
    have hfront := P.header_le
    have hlt := P.user_lt
    simp only [headerSize] at hfront
    exact Memory.read_congr fun i hlo hhi => M.trades.kept i
      (P.inData hb (by omega) (by omega)) (P.inData hb' (by omega) (by omega))
  · obtain ⟨b, hb, user, P⟩ := S.placed x hx
    have hr := P.resizes S.layout hb bytes
    rw [P.size?_eq S.layout hb, Option.some.injEq] at hs
    rw [hoffset x hx b user P]
    generalize u.allocator.reallocate x.pointer bytes = r at *
    cases hr with
    | refused => cases hm
    | lost => cases hm
    | @placed a' pointer L' b' user' log H hregion' T P' hkept =>
      obtain rfl : pointer = moved := Option.some.inj hm
      have hp : pointer = a'.region.address user' := P'.pointer_eq
      have huser' : pointer - arena.start = user' := by
        rw [hp, hregion', hregion, Region.address, Nat.add_sub_cancel_left]
      rw [huser', ← hs]
      exact List.map_congr_left fun i hi => hkept i (List.mem_range.mp hi)

theorem contents_survive_smallUsage : smallUsage.allocator.size? 4288 = some 48 ∧
    (smallUsage.after (.reallocate 4160 200)).held.map (·.pointer) = [4288, 4352] ∧
    (smallUsage.after (.reallocate 4160 200)).allocator.read 192 48 =
      smallUsage.allocator.read 192 48 := by
  have hs : smallUsage.allocator.size? 4288 = some 48 := by decide +kernel
  have hx : ∃ x ∈ smallUsage.held, x.pointer = 4160 := by decide +kernel
  obtain ⟨y, hy, hp⟩ : ∃ y ∈ smallUsage.held, y.pointer = 4288 := by decide +kernel
  refine ⟨hs, by decide +kernel, ?_⟩
  have hread := (contents_survive reachable_smallUsage).1 (.reallocate 4160 200) trivial (Or.inr hx)
    y hy (by rw [hp]; decide) 48 (hp ▸ hs)
  rwa [hp] at hread

end Usage.Reachable

end MemoryKit
