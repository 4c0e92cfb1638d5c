import MemoryKit.Proofs.Allocator.Auditing
import MemoryKit.Proofs.Heap.Reading

/-! # Diagnostics of a corrupt heap

The check, the statistics and the list of blocks are there for heaps that were overwritten, so they
rely on nothing that the memory and the index hold. They are performed strictly here, in loops that
have to end by themselves, and give what the inspections give.
-/

namespace MemoryKit.Allocator

open Heap Heap.Strict

variable {capacity block user labels steps : Nat} {m : Memory}

namespace Strict

def isAllocation (capacity : Nat) (m : Memory) (block user : Nat) : Option Bool :=
  (checkedAdd block headerSize).bind fun data =>
    if block % granule = 0 ∧ data ≤ user ∧ user < capacity then
      (isUsed? capacity m block).bind fun used =>
        if used then
          (field? capacity m block nextField).bind fun u =>
            if u = user then
              (Heap.Strict.blockSize? capacity m block).bind fun size =>
                (checkedAdd block size).map fun stop => decide (user < stop)
            else some false
        else some false
    else some false

def blockLink (capacity : Nat) (m : Memory) (block user : Nat) : Option Bool :=
  (diff? user block).bind fun distance =>
    if headerSize < distance then
      (diff? user 4).bind fun offset => (word? capacity m offset).map fun link => link == block
    else some true

def allocation (capacity : Nat) (m : Memory) (labels block : Nat) : Option (Option Fault) :=
  (field? capacity m block nextField).bind fun user =>
    (field? capacity m block prevField).bind fun tag =>
      (isAllocation capacity m block user).bind fun found =>
        if found = false ∨ user % granule ≠ 0 then some (some (.invalidUser block user))
        else
          (blockLink capacity m block user).bind fun isLinked =>
            if isLinked = false then some (some (.lostBlockLink user))
            else if labelOfTag tag ≠ noLabel ∧ labels ≤ labelOfTag tag then
              some (some (.unknownLabel block (labelOfTag tag)))
            else some none

theorem isAllocation_eq (hc : IsCapacity capacity) (m : Memory) (hblock : block < wordLimit) :
    isAllocation capacity m block user =
      some ((inspectIsAllocation capacity block user).run m) := by
  have hheader : headerSize < wordLimit := by decide
  rw [isAllocation, inspectIsAllocation, checkedAdd_eq (by omega), Option.bind_some]
  split
  next hcond =>
    obtain ⟨hmod, hdata, huser⟩ := hcond
    have hdvd := Nat.dvd_of_mod_eq_zero hmod
    have hlt : block < capacity := by omega
    have hword := sizeOfWord_lt m block
    rw [isUsed?_eq hc hdvd hlt, Option.bind_some, Inspect.run_read]
    split
    · rw [field?_eq hc hdvd hlt (by decide) (by decide), Option.bind_some, Inspect.run_read,
        Inspect.run_done]
      split
      next hu =>
        rw [Heap.Strict.blockSize?_eq hc hdvd hlt, Option.bind_some, checkedAdd_eq (by omega),
          Option.map_some, beq_iff_eq.mpr hu, Bool.true_and]
      next hu => rw [beq_eq_false_iff_ne.mpr hu, Bool.false_and]
    · rfl
  · rfl

theorem run_inspectIsAllocation_iff :
    (inspectIsAllocation capacity block user).run m = true ↔
      block % granule = 0 ∧ block + headerSize ≤ user ∧ user < capacity ∧
        isUsedWord (m.word block) = true ∧ m.word (block + nextField) = user ∧
          user < block + sizeOfWord (m.word block) := by
  unfold inspectIsAllocation
  split
  next hcond =>
    rw [Inspect.run_read]
    split
    next hu => simp [hcond, hu]
    next hu => simp [hu]
  next hcond =>
    refine iff_of_false nofun fun h => hcond ⟨h.1, h.2.1, h.2.2.1⟩

theorem blockLink_eq (hc : IsCapacity capacity) (hblock : block + headerSize ≤ user)
    (huser : user < capacity) (hdvd : granule ∣ user) :
    blockLink capacity m block user = some ((inspectBlockLink block user).run m) := by
  have hlimit := hc.lt
  have hheader : headerSize = 16 := rfl
  have hdvd' : 16 ∣ user := hdvd
  rw [blockLink, inspectBlockLink, diff?_eq (by omega), Option.bind_some,
    wrappingSub_eq (by omega) (by omega), wrappingSub_eq (by omega) (by omega)]
  split
  · have hword : word? capacity m (user - 4) = some (m.word (user - 4)) :=
      if_pos ⟨by omega, by omega⟩
    rw [diff?_eq (by omega), Option.bind_some, hword, Option.map_some]
    rfl
  · rfl

theorem allocation_eq (hc : IsCapacity capacity) (hdvd : granule ∣ block) (hlt : block < capacity) :
    allocation capacity m labels block =
      some ((inspectAllocation capacity labels block).run m) := by
  have hlimit := hc.lt
  rw [allocation, inspectAllocation, field?_eq hc hdvd hlt (by decide) (by decide),
    Option.bind_some, Inspect.run_read, field?_eq hc hdvd hlt (by decide) (by decide),
    Option.bind_some, Inspect.run_read, Inspect.run_bind, isAllocation_eq hc m (by omega),
    Option.bind_some]
  split
  · rfl
  next hfound =>
  obtain ⟨hfound, hmod⟩ := not_or.mp hfound
  obtain ⟨-, hdata, huser, -⟩ := run_inspectIsAllocation_iff.mp (Bool.not_eq_false _ ▸ hfound)
  have hgranule := Nat.dvd_of_mod_eq_zero (not_not.mp hmod)
  rw [blockLink_eq hc hdata huser hgranule, Option.bind_some, Inspect.run_bind]
  split
  · rfl
  · split <;> rfl

/-- What a walk has seen of the used blocks: their number, their bytes, and the first fault. -/
structure Audit where
  count : Nat := 0
  bytes : Nat := 0
  fault : Option Fault := none

def audit (capacity : Nat) (m : Memory) (labels : Nat) (s : Audit) (b : Block) : Option Audit :=
  if b.used = false ∨ s.fault.isSome then some s
  else
    (checkedAdd s.count 1).bind fun count =>
      (checkedAdd s.bytes b.size).bind fun bytes =>
        (allocation capacity m labels b.offset).map fun fault => ⟨count, bytes, fault⟩

theorem foldlM_audit_of_fault {s : Audit} (h : s.fault.isSome) (bs : List Block) :
    bs.foldlM (audit capacity m labels) s = some s := by
  induction bs with
  | nil => rfl
  | cons b bs ih =>
    rw [List.foldlM_cons, audit, if_pos (.inr h)]
    exact ih

structure Audits (m : Memory) (capacity labels : Nat) (bs : List Block) (s r : Audit) : Prop where
  fault_eq : r.fault = (inspectAllocations capacity labels bs).run m
  count_eq : r.fault = none → r.count = s.count + (bs.filter Block.used).length
  bytes_eq : r.fault = none →
    r.bytes = (bs.filter Block.used).foldl (fun bytes b => bytes + b.size) s.bytes

theorem foldlM_audit (hc : IsCapacity capacity) {bs : List Block} {s : Audit}
    (hbs : ∀ b ∈ bs, b.BeginsIn capacity) (hs : s.fault = none)
    (hcount : s.count + bs.length < 4 * wordLimit)
    (hbytes : s.bytes + (bs.map Block.size).sum < 4 * wordLimit) :
    ∃ r, bs.foldlM (audit capacity m labels) s = some r ∧ Audits m capacity labels bs s r := by
  induction bs generalizing s with
  | nil => exact ⟨s, rfl, hs, fun _ => rfl, fun _ => rfl⟩
  | cons b bs ih =>
    obtain ⟨hb, hrest⟩ := List.forall_mem_cons.mp hbs
    rw [List.length_cons] at hcount
    rw [List.map_cons, List.sum_cons] at hbytes
    rw [List.foldlM_cons, audit]
    cases hused : b.used with
    | false =>
      obtain ⟨r, hr, hfault, hcounts, hsums⟩ := ih hrest hs (by omega) (by omega)
      refine ⟨r, hr, ?_, ?_, ?_⟩
      · rw [hfault, inspectAllocations, hused, if_neg nofun]
      · rwa [List.filter_cons_of_neg (by rw [hused]; nofun)]
      · rwa [List.filter_cons_of_neg (by rw [hused]; nofun)]
    | true =>
      rw [if_neg (by rw [hs]; nofun), checkedAdd_eq (by omega), Option.bind_some,
        checkedAdd_eq (by omega), Option.bind_some, allocation_eq hc hb.dvd hb.lt, Option.map_some]
      cases hrun : (inspectAllocation capacity labels b.offset).run m with
      | some fault =>
        refine ⟨⟨s.count + 1, s.bytes + b.size, some fault⟩, foldlM_audit_of_fault rfl bs, ?_,
          nofun, nofun⟩
        rw [inspectAllocations, hused, if_pos rfl, Inspect.run_bind, hrun]
        rfl
      | none =>
        obtain ⟨r, hr, hfault, hcounts, hsums⟩ :=
          ih (s := ⟨s.count + 1, s.bytes + b.size, none⟩) hrest rfl (by dsimp only; omega)
            (by dsimp only; omega)
        refine ⟨r, hr, ?_, fun hn => ?_, fun hn => ?_⟩
        · rw [hfault, inspectAllocations, hused, if_pos rfl, Inspect.run_bind, hrun]
        · rw [hcounts hn, List.filter_cons_of_pos hused, List.length_cons]
          exact Nat.add_right_comm s.count 1 _
        · rw [hsums hn, List.filter_cons_of_pos hused, List.foldl_cons]

def check (a : Allocator) (steps : Nat) : Option (Except Fault Unit) :=
  (Heap.Strict.check a.heap.capacity a.heap.memory a.heap.index steps).bind fun
    | .error fault => some (.error fault)
    | .ok () =>
      (Heap.Strict.walk a.heap.capacity a.heap.memory
          (audit a.heap.capacity a.heap.memory a.labels.size) {} 0 steps).map fun s =>
        match s.fault with
        | some fault => .error fault
        | none =>
          if s.count ≠ a.allocations then .error (.wrongCount s.count a.allocations)
          else if s.bytes ≠ a.allocatedBytes then .error (.wrongTotal s.bytes a.allocatedBytes)
          else .ok ()

def valid (a : Allocator) (steps : Nat) : Option (Outcome Allocator Bool) :=
  if a.poisoned then some (.quiet false a)
  else
    (check a steps).map fun
      | .ok () => .quiet true a
      | .error fault =>
        ⟨false, { a with poisoned := true },
          [.error s!"TLSF heap is corrupted: {fault.message}"]⟩

def stats (a : Allocator) (steps : Nat) : Option AllocatorStats :=
  (Heap.Strict.free a.heap.capacity a.heap.memory steps).map fun summary =>
    { allocations := a.allocations
      allocatedBytes := a.allocatedBytes
      peak := a.peak
      capacity := a.heap.capacity
      freeBlocks := summary.1
      largestFree := summary.2 }

def report (a : Allocator) (infos : List BlockInfo) (b : Block) : Option (List BlockInfo) :=
  if b.used then
    (field? a.heap.capacity a.heap.memory b.offset prevField).map fun tag =>
      infos ++ [⟨b.offset, b.size, b.used, a.label? tag⟩]
  else some (infos ++ [⟨b.offset, b.size, b.used, none⟩])

def walk (a : Allocator) (steps : Nat) : Option (List BlockInfo) :=
  Heap.Strict.walk a.heap.capacity a.heap.memory (report a) [] 0 steps

theorem foldlM_report {a : Allocator} (hc : IsCapacity a.heap.capacity) {bs : List Block}
    (hbs : ∀ b ∈ bs, b.BeginsIn a.heap.capacity) (infos : List BlockInfo) :
    bs.foldlM (report a) infos = some (infos ++ bs.map a.info) := by
  induction bs generalizing infos with
  | nil => rw [List.map_nil, List.append_nil]; rfl
  | cons b bs ih =>
    obtain ⟨hb, hrest⟩ := List.forall_mem_cons.mp hbs
    have hreport : report a infos b = some (infos ++ [a.info b]) := by
      rw [report, info]
      split
      · rw [field?_eq hc hb.dvd hb.lt (by decide) (by decide)]
        rfl
      · rfl
    rw [List.foldlM_cons, hreport]
    refine (ih hrest _).trans ?_
    rw [List.map_cons, List.append_assoc]
    rfl

section

variable {a : Allocator} (hc : IsCapacity a.heap.capacity)
  (hsteps : maxBlocks a.heap.capacity < steps)

include hc hsteps

theorem check_eq : check a steps = some a.check := by
  rw [check, Heap.Strict.check_eq hc _ _ hsteps, Option.bind_some, Allocator.check, inspect,
    Inspect.run_bind]
  cases (inspectCheck a.heap.capacity a.heap.index).run a.heap.memory with
  | error fault => rfl
  | ok =>
    dsimp only
    rw [walk_eq_foldlM hc (Nat.dvd_zero _) (capacity_le_maxBlocks hc) hsteps, Inspect.run_bind,
      run_inspectBlocks, Inspect.run_bind]
    set bs := blocksFrom a.heap.capacity a.heap.memory 0 (maxBlocks a.heap.capacity)
    have hlimit := hc.lt
    have hlength : bs.length ≤ maxBlocks a.heap.capacity := length_blocksFrom_le
    have hmax := maxBlocks_lt hc
    have hsum : 0 + (bs.map Block.size).sum < a.heap.capacity + wordLimit :=
      sum_size_blocksFrom_le (by omega)
    have hbegins : ∀ b ∈ bs, b.BeginsIn a.heap.capacity := fun b =>
      beginsIn_of_mem (Nat.dvd_zero _)
    obtain ⟨r, hr, hfault, hcount, hbytes⟩ :
        ∃ r, bs.foldlM (audit a.heap.capacity a.heap.memory a.labels.size) {} = some r ∧
          Audits a.heap.memory a.heap.capacity a.labels.size bs {} r :=
      foldlM_audit hc hbegins rfl (by dsimp only; omega) (by dsimp only; omega)
    rw [hr, Option.map_some, ← hfault]
    cases hnone : r.fault with
    | some fault => rfl
    | none =>
      dsimp only
      rw [hcount hnone, hbytes hnone, Nat.zero_add]
      split
      · rfl
      · split <;> rfl

theorem valid_eq : valid a steps = some a.valid := by
  rw [valid, Allocator.valid, check_eq hc hsteps]
  split
  · rfl
  · cases a.check <;> rfl

theorem stats_eq : stats a steps = some a.stats := by
  rw [stats, free_eq hc _ hsteps]
  rfl

theorem walk_eq : walk a steps = some a.walk := by
  rw [walk, walk_eq_foldlM hc (Nat.dvd_zero _) (capacity_le_maxBlocks hc) hsteps,
    foldlM_report hc fun b => beginsIn_of_mem (Nat.dvd_zero _), Allocator.walk_eq,
    Heap.blocks, run_inspectBlocks]
  rfl

end

end Strict

section Reading

open Inspect

variable {offset : Nat}

theorem mem_reads_inspectIsAllocation
    (h : offset ∈ (inspectIsAllocation capacity block user).reads m) :
    offset = block ∨ offset = block + nextField := by
  unfold inspectIsAllocation at h
  split at h
  · rcases List.mem_cons.mp h with rfl | h
    · exact .inl rfl
    dsimp only at h
    split at h
    · exact .inr (List.mem_singleton.mp h)
    · cases h
  · cases h

theorem mem_reads_inspectBlockLink (hblock : block + headerSize ≤ user) (huser : user < wordLimit)
    (h : offset ∈ (inspectBlockLink block user).reads m) : offset + 4 = user := by
  have hheader : headerSize = 16 := rfl
  unfold inspectBlockLink at h
  split at h
  · have heq := List.mem_singleton.mp h
    rw [wrappingSub_eq (by omega) huser] at heq
    omega
  · cases h

/-- The word in front of the data is read only if the data lies where an allocation has its data. -/
theorem mem_reads_inspectAllocation (hc : IsCapacity capacity)
    (h : offset ∈ (inspectAllocation capacity labels block).reads m) :
    offset = block ∨ offset = block + prevField ∨ offset = block + nextField ∨
      offset + 4 = m.word (block + nextField) ∧ granule ∣ m.word (block + nextField) ∧
        (inspectIsAllocation capacity block (m.word (block + nextField))).run m = true := by
  unfold inspectAllocation at h
  rcases List.mem_cons.mp h with rfl | h
  · exact .inr (.inr (.inl rfl))
  rcases List.mem_cons.mp h with rfl | h
  · exact .inr (.inl rfl)
  rw [reads_bind, List.mem_append] at h
  rcases h with h | h
  · rcases mem_reads_inspectIsAllocation h with rfl | rfl
    · exact .inl rfl
    · exact .inr (.inr (.inl rfl))
  split at h
  · cases h
  next hfound =>
  obtain ⟨hfound, hmod⟩ := not_or.mp hfound
  rw [Bool.not_eq_false] at hfound
  obtain ⟨-, hdata, huser, -⟩ := Strict.run_inspectIsAllocation_iff.mp hfound
  have hgranule := Nat.dvd_of_mod_eq_zero (not_not.mp hmod)
  have hlimit := hc.lt
  rw [reads_bind, List.mem_append] at h
  rcases h with h | h
  · have hfront := mem_reads_inspectBlockLink hdata (by omega) h
    exact .inr (.inr (.inr ⟨hfront, hgranule, hfound⟩))
  · split at h
    · cases h
    · split at h <;> cases h

section

variable (hc : IsCapacity capacity)

include hc

theorem staysIn_inspectAllocation (hdvd : granule ∣ block) (hlt : block < capacity) :
    (inspectAllocation capacity labels block).StaysIn capacity m := by
  intro offset h
  have hbounds := field_bounds hc hdvd hlt
  rcases mem_reads_inspectAllocation hc h with rfl | rfl | rfl | ⟨hfront, hgranule, hfound⟩
  · exact hbounds 0 rfl (by decide)
  · exact hbounds _ (by decide) (by decide)
  · exact hbounds _ (by decide) (by decide)
  · obtain ⟨-, -, huser, -⟩ := Strict.run_inspectIsAllocation_iff.mp hfound
    unfold granule at hgranule
    omega

theorem staysIn_inspectAllocations {bs : List Block} (hbs : ∀ b ∈ bs, b.BeginsIn capacity) :
    (inspectAllocations capacity labels bs).StaysIn capacity m := by
  induction bs with
  | nil => exact staysIn_done _
  | cons b bs ih =>
    obtain ⟨hb, hrest⟩ := List.forall_mem_cons.mp hbs
    rw [inspectAllocations]
    split
    · refine staysIn_bind (staysIn_inspectAllocation hc hb.dvd hb.lt) ?_
      split
      · exact staysIn_done _
      · exact ih hrest
    · exact ih hrest

theorem staysIn_inspectLabels (labels : Array Label) {bs : List Block}
    (hbs : ∀ b ∈ bs, b.BeginsIn capacity) : (inspectLabels labels bs).StaysIn capacity m := by
  induction bs with
  | nil => exact staysIn_done _
  | cons b bs ih =>
    obtain ⟨hb, hrest⟩ := List.forall_mem_cons.mp hbs
    rw [inspectLabels]
    dsimp only
    split
    · refine staysIn_read (field_bounds hc hb.dvd hb.lt _ (by decide) (by decide)) ?_
      exact staysIn_bind (ih hrest) (staysIn_done _)
    · exact staysIn_bind (ih hrest) (staysIn_done _)

end

theorem beginsIn_of_mem_inspectBlocks {b : Block}
    (h : b ∈ (inspectBlocks capacity).run m) : b.BeginsIn capacity := by
  rw [run_inspectBlocks] at h
  exact beginsIn_of_mem (Nat.dvd_zero _) h

theorem staysIn_diagnostics {a : Allocator} (hc : IsCapacity a.heap.capacity) :
    a.inspect.StaysIn a.heap.capacity a.heap.memory ∧
      (inspectFree a.heap.capacity).StaysIn a.heap.capacity a.heap.memory ∧
      a.inspectWalk.StaysIn a.heap.capacity a.heap.memory := by
  refine ⟨staysIn_bind (staysIn_inspectCheck hc _) ?_, staysIn_foldBlocks hc (Nat.dvd_zero _) _ _,
    staysIn_bind (staysIn_inspectBlocks hc) ?_⟩
  · split
    · exact staysIn_done _
    refine staysIn_bind (staysIn_inspectBlocks hc) ?_
    refine staysIn_bind (staysIn_inspectAllocations hc fun b => beginsIn_of_mem_inspectBlocks) ?_
    split
    · exact staysIn_done _
    · dsimp only
      split
      · exact staysIn_done _
      · split <;> exact staysIn_done _
  · exact staysIn_inspectLabels hc _ fun b => beginsIn_of_mem_inspectBlocks

end Reading

theorem run_inspectIsAllocation (h : Heap) (b user : Nat) :
    (inspectIsAllocation h.capacity b user).run h.memory = h.isAllocation b user := by
  rw [Bool.eq_iff_iff, Strict.run_inspectIsAllocation_iff]
  simp only [Heap.isAllocation, Bool.and_eq_true, beq_iff_eq, decide_eq_true_eq, and_assoc]
  rfl

/--
What may be read to look at the allocation in a block: the header, and the word in front of the data
if the data is known to lie in the block.
-/
def MayRead (h : Heap) (block offset : Nat) : Prop :=
  offset = block ∨ offset = block + prevField ∨ offset = block + nextField ∨
    offset + 4 = h.user block ∧ granule ∣ h.user block ∧
      h.isAllocation block (h.user block) = true

theorem isCapacity_ofArena {arena : Arena} {fresh : Allocator} {log : List Record}
    (h : ofArena arena = .ok (fresh, log)) : IsCapacity fresh.heap.capacity := by
  obtain ⟨capacity, hdvd, -, hlt, -, -, rfl⟩ := exists_of_ofArena h
  have hcap : (Heap.create arena.memory capacity).capacity = capacity := capacity_reset _
  exact hcap.symm ▸ ⟨hdvd, hlt⟩

/--
Whatever the memory, the heads, the bitmaps and the accounts of an allocator hold, its diagnostics
end by themselves, no sum or difference leaves its range, and only words of the heap are read.
-/
theorem diagnostics_survive {arena : Arena} {fresh : Allocator} {log : List Record}
    (h : ofArena arena = .ok (fresh, log)) {a : Allocator}
    (hcapacity : a.heap.capacity = fresh.heap.capacity) :
    (∀ steps, maxBlocks a.heap.capacity < steps →
      Strict.valid a steps = some a.valid ∧ Strict.stats a steps = some a.stats ∧
        Strict.walk a steps = some a.walk) ∧
      a.inspect.StaysIn a.heap.capacity a.heap.memory ∧
      (inspectFree a.heap.capacity).StaysIn a.heap.capacity a.heap.memory ∧
      a.inspectWalk.StaysIn a.heap.capacity a.heap.memory ∧
      ∀ block, ∀ offset ∈
        (inspectAllocation a.heap.capacity a.labels.size block).reads a.heap.memory,
          MayRead a.heap block offset := by
  have hc : IsCapacity a.heap.capacity := hcapacity ▸ isCapacity_ofArena h
  obtain ⟨hcheck, hfree, hwalk⟩ := staysIn_diagnostics hc
  refine ⟨fun steps hsteps => ?_, hcheck, hfree, hwalk, fun block offset hread => ?_⟩
  · exact ⟨Strict.valid_eq hc hsteps, Strict.stats_eq hc hsteps, Strict.walk_eq hc hsteps⟩
  · have hmay := mem_reads_inspectAllocation hc hread
    rwa [run_inspectIsAllocation] at hmay

section

open Usage.Reachable (smallArena)

/--
A heap that was overwritten. The data of its used block is said to lie far behind its end, and its
free block is the next one of itself in a list.
-/
def overwritten : Allocator :=
  let sizes := (Memory.zeroed.setWord 0 65).setWord 64 448
  let before := (sizes.setWord 4 noLink).setWord 68 0
  let memory := ((before.setWord 12 4294967280).setWord 72 noLink).setWord 76 64
  { region := smallArena.toRegion
    heap := ⟨memory, 512, (FreeIndex.empty.mark (.ofSize 448)).setHead (.ofSize 448) (some 64)⟩
    labels := #[]
    allocations := 1
    allocatedBytes := 64
    peak := 64
    poisoned := false }

theorem diagnostics_survive_overwritten :
    (Strict.valid overwritten 33).map Outcome.answer = some false ∧
      Strict.walk overwritten 33 = some [⟨0, 64, true, none⟩, ⟨64, 448, false, none⟩] ∧
      (∀ offset ∈ (inspectAllocation 512 0 0).reads overwritten.heap.memory,
        MayRead overwritten.heap 0 offset) ∧
      (inspectAllocation 512 0 0).reads overwritten.heap.memory = [12, 8] := by
  have hnew : ofArena smallArena = .ok (⟨smallArena.toRegion, .create .zeroed 512, #[], 0, 0, 0,
      false⟩, [.debug "Created TLSF heap of 512 bytes"]) := rfl
  obtain ⟨hends, -, -, -, hreads⟩ := diagnostics_survive hnew (a := overwritten) rfl
  obtain ⟨hvalid, -, hwalk⟩ := hends 33 (by decide)
  refine ⟨?_, ?_, hreads 0, by decide +kernel⟩
  · rw [hvalid]
    decide +kernel
  · rw [hwalk]
    decide +kernel

end

end MemoryKit.Allocator
