import MemoryKit.Allocator.Basic

/-! # Diagnostics of an allocator

Statistics, the list of blocks and the check read the heap and nothing else. They are inspections,
so that what they read can be told for any contents of the memory.
-/

namespace MemoryKit.Allocator

open Heap

def inspectBlockLink (block user : Nat) : Inspect Bool :=
  if headerSize < wrappingSub wordLimit user block then
    .read (wrappingSub wordLimit user 4) fun link => .done (link == block)
  else .done true

def inspectIsAllocation (capacity block user : Nat) : Inspect Bool :=
  if block % granule = 0 ∧ block + headerSize ≤ user ∧ user < capacity then
    .read block fun w =>
      if isUsedWord w then
        .read (block + nextField) fun u =>
          .done (u == user && decide (user < block + sizeOfWord w))
      else .done false
  else .done false

/-- Looks for a fault of the allocation in a used block, if `labels` labels are known. -/
def inspectAllocation (capacity labels block : Nat) : Inspect (Option Fault) :=
  .read (block + nextField) fun user =>
    .read (block + prevField) fun tag =>
      (inspectIsAllocation capacity block user).bind fun isAllocation =>
        if isAllocation = false ∨ user % granule ≠ 0 then .done (some (.invalidUser block user))
        else
          (inspectBlockLink block user).bind fun isLinked =>
            if isLinked = false then .done (some (.lostBlockLink user))
            else if labelOfTag tag ≠ noLabel ∧ labels ≤ labelOfTag tag then
              .done (some (.unknownLabel block (labelOfTag tag)))
            else .done none

def inspectAllocations (capacity labels : Nat) : List Block → Inspect (Option Fault)
  | [] => .done none
  | b :: rest =>
    if b.used then
      (inspectAllocation capacity labels b.offset).bind fun
        | some fault => .done (some fault)
        | none => inspectAllocations capacity labels rest
    else inspectAllocations capacity labels rest

def inspect (a : Allocator) : Inspect (Except Fault Unit) :=
  (inspectCheck a.heap.capacity a.heap.index).bind fun
    | .error fault => .done (.error fault)
    | .ok () =>
      (inspectBlocks a.heap.capacity).bind fun blocks =>
        (inspectAllocations a.heap.capacity a.labels.size blocks).bind fun
          | some fault => .done (.error fault)
          | none =>
            let used := blocks.filter Block.used
            let bytes := used.foldl (fun bytes b => bytes + b.size) 0
            if used.length ≠ a.allocations then
              .done (.error (.wrongCount used.length a.allocations))
            else if bytes ≠ a.allocatedBytes then
              .done (.error (.wrongTotal bytes a.allocatedBytes))
            else .done (.ok ())

def check (a : Allocator) : Except Fault Unit := a.inspect.run a.heap.memory

/-- Whether the allocator passes its check. One that fails serves nobody until it is reset. -/
def valid (a : Allocator) : Outcome Allocator Bool :=
  if a.poisoned then .quiet false a
  else
    match a.check with
    | .ok () => .quiet true a
    | .error fault =>
      ⟨false, { a with poisoned := true },
        [.error s!"TLSF heap is corrupted: {fault.message}"]⟩

def stats (a : Allocator) : AllocatorStats :=
  let (freeBlocks, largestFree) := (inspectFree a.heap.capacity).run a.heap.memory
  { allocations := a.allocations
    allocatedBytes := a.allocatedBytes
    peak := a.peak
    capacity := a.heap.capacity
    freeBlocks
    largestFree }

def inspectLabels (labels : Array Label) : List Block → Inspect (List BlockInfo)
  | [] => .done []
  | b :: rest =>
    let info (label : Option Label) : BlockInfo := ⟨b.offset, b.size, b.used, label⟩
    if b.used then
      .read (b.offset + prevField) fun tag =>
        (inspectLabels labels rest).bind fun infos =>
          .done (info labels[labelOfTag tag]? :: infos)
    else
      (inspectLabels labels rest).bind fun infos => .done (info none :: infos)

def inspectWalk (a : Allocator) : Inspect (List BlockInfo) :=
  (inspectBlocks a.heap.capacity).bind (inspectLabels a.labels)

def walk (a : Allocator) : List BlockInfo := a.inspectWalk.run a.heap.memory

def labelOptionText : Option Label → String
  | some label => s!"Some({Text.quoted label.words})"
  | none => "None"

/-- What is reported when the allocator goes away: the allocations that were not freed. -/
def leaks (a : Allocator) : List Record :=
  if a.allocations = 0 then []
  else
    let count := a.allocations
    let bytes := a.allocatedBytes
    .error s!"Dropped TLSF allocator with {count} outstanding allocations ({bytes} bytes)" ::
      (a.walk.filter BlockInfo.used).map fun b =>
        .debug s!"Leaked {labelOptionText b.label} at offset {b.offset}"

def text (a : Allocator) : String :=
  s!"TlsfAllocator (capacity: {a.heap.capacity}, allocations: {a.allocations})"

def sharedText : String := "SharedTlsfAllocator ()"

end MemoryKit.Allocator
