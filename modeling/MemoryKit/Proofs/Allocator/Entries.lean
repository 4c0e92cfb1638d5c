import MemoryKit.Proofs.Allocator.Auditing

/-! # Entries in the accounts

Every call makes entries in the accounts of an allocator: the block that it serves is added, the one
that it gives back is taken off. Nothing can be taken that is not there, whereas the counters
themselves would wrap. A call ends with the counters that its entries lead to, so that none has
wrapped, and its peak is the greatest of the totals in between.
-/

namespace MemoryKit

namespace Allocator

open Heap

@[ext]
structure Counters where
  allocations : Nat
  bytes : Nat
  deriving DecidableEq, Repr

inductive Entry where
  | add (allocations bytes : Nat)
  | take (allocations bytes : Nat)
  deriving DecidableEq, Repr

namespace Counters

def enter? (c : Counters) : Entry → Option Counters
  | .add allocations bytes => some ⟨c.allocations + allocations, c.bytes + bytes⟩
  | .take allocations bytes =>
    if allocations ≤ c.allocations ∧ bytes ≤ c.bytes then
      some ⟨c.allocations - allocations, c.bytes - bytes⟩
    else none

/-- The counters before, between and after some entries. -/
def enterAll? (c : Counters) : List Entry → Option (List Counters)
  | [] => some [c]
  | e :: es =>
    match c.enter? e with
    | none => none
    | some c' => (c'.enterAll? es).map (c :: ·)

end Counters

namespace Entry

/-- The new block is served before the old one is given back. -/
def exchange (gone new : Option Nat) : List Entry :=
  (new.map (add 1)).toList ++ (gone.map (take 1)).toList

def resized (old new : Nat) : Entry :=
  if new ≤ old then take 0 (old - new) else add 0 (new - old)

end Entry

def counters (a : Allocator) : Counters := ⟨a.allocations, a.allocatedBytes⟩

def blockSize? (a : Allocator) (pointer : Nat) : Option Nat :=
  match a.locate pointer with
  | .ok (block, _) => some (a.heap.blockSize block)
  | .error _ => none

end Allocator

open Allocator

/-- The entries of a call. An allocation that is moved is in two blocks for a moment. -/
def Usage.entries (u : Usage) (call : Call) : List Entry :=
  let a := u.allocator
  let a' := (u.after call).allocator
  match call with
  | .allocate bytes label options =>
    Entry.exchange none ((a.allocate bytes label options).answer.bind a'.blockSize?)
  | .reallocate pointer bytes =>
    match (a.reallocate pointer bytes).answer with
    | none => []
    | some moved =>
      if moved = pointer then
        (Option.map₂ .resized (a.blockSize? pointer) (a'.blockSize? pointer)).toList
      else Entry.exchange (a.blockSize? pointer) (a'.blockSize? moved)
  | .deallocate pointer => Entry.exchange (a.blockSize? pointer) none
  | .reset => [.take a.allocations a.allocatedBytes]
  | .valid => []
  | .write _ _ => []

namespace Allocator

open Heap

variable {a a' : Allocator} {L L' : Layout} {b : Block} {gone new : Option Block} {user : Nat}
  {x : Holding} {u : Usage} {call : Call}

theorem IsPlaced.blockSize?_eq (P : a.IsPlaced x b user) (H : a.HasLayout L) (hb : b ∈ L.blocks) :
    a.blockSize? x.pointer = some b.size := by
  unfold blockSize?
  rw [P.locate_eq H hb]
  simp only [H.heap.blockSize_eq hb]

/-- The null pointer is that of no allocation, as no data begins in front of the first header. -/
theorem blockSize?_zero (a : Allocator) : a.blockSize? 0 = none := by
  unfold blockSize? locate
  cases ho : a.offsetOf? 0 with
  | none => rfl
  | some user =>
    obtain ⟨hregion, -⟩ := Option.filter_eq_some_iff.mp ho
    obtain ⟨hstart, -⟩ := Region.offsetOf?_eq_some_iff.mp hregion
    have huser : user % granule ≠ 0 ∨ user < headerSize := by
      simp only [headerSize]
      omega
    dsimp only
    rw [if_pos huser]

theorem entries_reallocate_zero (u : Usage) (bytes : Nat) :
    u.entries (.reallocate 0 bytes) = u.entries (.allocate bytes .resized .standard) := by
  have hsame : u.allocator.reallocate 0 bytes = u.allocator.allocate bytes .resized .standard :=
    if_pos rfl
  unfold Usage.entries
  dsimp only
  rw [after_reallocate_zero, hsame, blockSize?_zero]
  cases (u.allocator.allocate bytes .resized .standard).answer with
  | none => rfl
  | some moved =>
    dsimp only
    split
    · next hmoved =>
      rw [hmoved, Option.bind_some, blockSize?_zero]
      rfl
    · rfl

theorem Counters.enter?_add_eq_some_iff {c c' : Counters} {n m : Nat} :
    c.enter? (.add n m) = some c' ↔
      c'.allocations = c.allocations + n ∧ c'.bytes = c.bytes + m := by
  simp only [enter?, Option.some.injEq, Counters.ext_iff]
  omega

theorem Counters.enter?_take_eq_some_iff {c c' : Counters} {n m : Nat} :
    c.enter? (.take n m) = some c' ↔
      c'.allocations + n = c.allocations ∧ c'.bytes + m = c.bytes := by
  simp only [enter?, Option.ite_none_right_eq_some, Option.some.injEq, Counters.ext_iff]
  omega

/--
The entries can be made, they lead from the counters of the first allocator to those of the second
one, and the peak has kept up with the totals.
-/
def Enters (a : Allocator) (entries : List Entry) (a' : Allocator) : Prop :=
  ∃ cs, a.counters.enterAll? entries = some cs ∧ cs.getLast? = some a'.counters ∧
    a'.peak = (cs.map Counters.bytes).foldl max a.peak

namespace Enters

theorem bytes_le {entries : List Entry} (E : Enters a entries a') :
    a'.allocatedBytes ≤ a'.peak := by
  obtain ⟨cs, -, hlast, hpeak⟩ := E
  have hmax : (a.peak :: cs.map Counters.bytes).max? = some a'.peak := by
    rw [List.max?_cons', hpeak]
  have hmem : a'.allocatedBytes ∈ cs.map Counters.bytes :=
    List.mem_map_of_mem (List.mem_of_getLast? hlast)
  exact (List.max?_eq_some_iff.mp hmax).2 _ (List.mem_cons_of_mem _ hmem)

variable (hpeak : a.allocatedBytes ≤ a.peak)

include hpeak

theorem nil (hcounters : a'.counters = a.counters) (hp : a'.peak = a.peak) : Enters a [] a' := by
  refine ⟨[a.counters], rfl, by rw [hcounters]; rfl, ?_⟩
  rw [hp]
  exact (Nat.max_eq_left hpeak).symm

theorem single {e : Entry} (he : a.counters.enter? e = some a'.counters)
    (hp : a'.peak = max a.peak a'.allocatedBytes) : Enters a [e] a' := by
  refine ⟨[a.counters, a'.counters],
    by simp only [Counters.enterAll?, he, Option.map_some], rfl, ?_⟩
  rw [hp]
  exact congrArg (max · a'.allocatedBytes) (Nat.max_eq_left hpeak).symm

theorem pair {e e' : Entry} {c : Counters} (he : a.counters.enter? e = some c)
    (he' : c.enter? e' = some a'.counters) (hle : a'.allocatedBytes ≤ c.bytes)
    (hp : a'.peak = max a.peak c.bytes) : Enters a [e, e'] a' := by
  refine ⟨[a.counters, c, a'.counters],
    by simp only [Counters.enterAll?, he, he', Option.map_some], rfl, ?_⟩
  rw [hp]
  simp only [List.map_cons, List.map_nil, List.foldl_cons, List.foldl_nil, counters]
  omega

theorem exchange {gone new : Option Nat}
    (hcount : a'.allocations + gone.toList.length = a.allocations + new.toList.length)
    (hbytes : a'.allocatedBytes + gone.toList.sum = a.allocatedBytes + new.toList.sum)
    (hp : a'.peak = max a.peak (a.allocatedBytes + new.toList.sum)) :
    Enters a (Entry.exchange gone new) a' := by
  cases gone <;> cases new <;>
    simp only [Option.toList_none, Option.toList_some, List.length_nil, List.length_singleton,
      List.sum_nil, List.sum_singleton, Nat.add_zero] at hcount hbytes hp
  case none.none =>
    exact .nil hpeak (Counters.ext hcount hbytes) (by omega)
  case none.some =>
    exact .single hpeak (Counters.enter?_add_eq_some_iff.mpr ⟨hcount, hbytes⟩) (by rw [hp, hbytes])
  case some.none =>
    exact .single hpeak (Counters.enter?_take_eq_some_iff.mpr ⟨hcount, hbytes⟩) (by omega)
  case some.some old size =>
    have hboth : a.counters.enter? (.add 1 size) =
        some ⟨a.allocations + 1, a.allocatedBytes + size⟩ := rfl
    exact .pair hpeak hboth (Counters.enter?_take_eq_some_iff.mpr ⟨hcount, hbytes⟩)
      (Nat.le.intro hbytes) hp

theorem resized {old new : Nat} (hcount : a'.allocations = a.allocations)
    (hbytes : a'.allocatedBytes + old = a.allocatedBytes + new)
    (hp : a'.peak = max a.peak a'.allocatedBytes) :
    Enters a [.resized old new] a' := by
  refine .single hpeak ?_ hp
  unfold Entry.resized
  split
  · next hle =>
    exact Counters.enter?_take_eq_some_iff.mpr ⟨hcount, by simp only [counters]; omega⟩
  · next hlt =>
    exact Counters.enter?_add_eq_some_iff.mpr ⟨hcount, by simp only [counters]; omega⟩

end Enters

theorem Balanced.enters_exchange (B : a.Balanced L) (B' : a'.Balanced L') (H : a.HasLayout L)
    (T : Trades a.heap L a'.heap L' gone new) (hgone : ∀ b ∈ gone, b ∈ L.used)
    (hpeak : a.allocatedBytes ≤ a.peak)
    (hp : a'.peak = max a.peak (a.allocatedBytes + (new.toList.map Block.size).sum)) :
    Enters a (Entry.exchange (gone.map Block.size) (new.map Block.size)) a' := by
  obtain ⟨hcount, hbytes⟩ := B.counters_of_trades B' H T hgone
  apply Enters.exchange hpeak
  · simpa only [Option.toList_map, List.length_map] using hcount
  · simpa only [Option.toList_map] using hbytes
  · simpa only [Option.toList_map] using hp

section Calls

variable (S : Serves u.allocator u.held L) (B : u.allocator.Balanced L)
  (hpeak : u.allocator.allocatedBytes ≤ u.allocator.peak)

include S B hpeak

theorem Serves.enters_deallocate (hx : x ∈ u.held) :
    Enters u.allocator (u.entries (.deallocate x.pointer))
      (u.after (.deallocate x.pointer)).allocator := by
  obtain ⟨b, hb, user, P⟩ := S.placed x hx
  obtain ⟨L', T, H, K, -⟩ := S.layout.freeBlock hb P.used
  have hused : ∀ c ∈ some b, c ∈ L.used := by
    simpa using Layout.mem_used.mpr ⟨hb, P.used⟩
  unfold Usage.entries Usage.after
  dsimp only
  rw [P.deallocate_eq S.layout hb B.unpoisoned, P.blockSize?_eq S.layout hb]
  exact B.enters_exchange (K.balanced B) S.layout T hused hpeak (Nat.max_eq_left hpeak).symm

variable (hr : u.allocator.region.InRange)

include hr

theorem Serves.enters_allocate (bytes : Nat) (label : Label) (options : AllocationOptions) :
    Enters u.allocator (u.entries (.allocate bytes label options))
      (u.after (.allocate bytes label options)).allocator := by
  have h := S.layout.allocates bytes label options
  unfold Usage.entries Usage.after Allocator.allocate
  dsimp only
  generalize u.allocator.allocateAligned bytes label options.alignment = r at *
  cases h with
  | refused => exact .nil hpeak rfl rfl
  | lost hout => exact absurd hr hout
  | @placed a' pointer L' b user log H _ _ T P K hp =>
    have hsize : (some pointer).bind a'.blockSize? = some b.size :=
      (P label).blockSize?_eq H T.new_mem
    have hbytes : a'.allocatedBytes = u.allocator.allocatedBytes + b.size := by
      simpa using (B.counters_of_trades (K.balanced B) S.layout T (by simp)).2
    dsimp only
    rw [hsize]
    exact B.enters_exchange (K.balanced B) S.layout T (by simp) hpeak (by rw [hp, hbytes]; rfl)

/-- What is held is resized in its block, or else exchanged for another one. -/
theorem Serves.enters_reallocate (hx : x ∈ u.held) (bytes : Nat) :
    Enters u.allocator (u.entries (.reallocate x.pointer bytes))
      (u.after (.reallocate x.pointer bytes)).allocator := by
  obtain ⟨b, hb, user, P⟩ := S.placed x hx
  have h := P.resizes S.layout hb bytes
  have hold := P.blockSize?_eq S.layout hb
  have hused : ∀ c ∈ some b, c ∈ L.used := by
    simpa using Layout.mem_used.mpr ⟨hb, P.used⟩
  unfold Usage.entries Usage.after
  simp only [P.pointer_ne_zero, if_false]
  generalize u.allocator.reallocate x.pointer bytes = r at *
  cases h with
  | refused => exact .nil hpeak rfl rfl
  | lost hout => exact absurd hr hout
  | @placed a' pointer L' b' user' log H _ T P' _ K hp =>
    have hnew : a'.blockSize? pointer = some b'.size := P'.blockSize?_eq H T.new_mem
    have hp := hp B hpeak
    dsimp only
    -- The pointer tells which entries were made, as one that is moved never keeps it.
    by_cases hmoved : pointer = x.pointer
    · rw [if_pos hmoved] at hp ⊢
      rw [← hmoved] at hold ⊢
      rw [hold, hnew]
      obtain ⟨hcount, hbytes⟩ := B.counters_of_trades (K.balanced B) S.layout T hused
      exact .resized hpeak (by simpa using hcount) (by simpa using hbytes) hp
    · rw [if_neg hmoved] at hp ⊢
      rw [hold, hnew]
      exact B.enters_exchange (K.balanced B) S.layout T hused hpeak hp

theorem Serves.enters (hp : u.Permits call) :
    Enters u.allocator (u.entries call) (u.after call).allocator := by
  cases call with
  | allocate bytes label options => exact S.enters_allocate B hpeak hr bytes label options
  | reallocate pointer bytes =>
    rcases hp with rfl | ⟨x, hx, rfl⟩
    · rw [entries_reallocate_zero, after_reallocate_zero]
      exact S.enters_allocate B hpeak hr bytes .resized .standard
    · exact S.enters_reallocate B hpeak hr hx bytes
  | deallocate pointer =>
    rcases hp with rfl | ⟨x, hx, rfl⟩
    · unfold Usage.entries
      dsimp only
      rw [blockSize?_zero]
      exact .nil hpeak rfl rfl
    · exact S.enters_deallocate B hpeak hx
  | reset =>
    exact .single hpeak (Counters.enter?_take_eq_some_iff.mpr ⟨Nat.zero_add _, Nat.zero_add _⟩)
      (Nat.max_eq_left (Nat.zero_le _)).symm
  | valid =>
    have hsame : (u.after .valid).allocator = u.allocator :=
      congrArg Outcome.state (S.valid_eq B hr)
    rw [hsame]
    exact .nil hpeak rfl rfl
  | write offset bytes => exact .nil hpeak rfl rfl

end Calls

end Allocator

end MemoryKit
