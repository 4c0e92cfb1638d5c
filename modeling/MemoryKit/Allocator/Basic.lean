import MemoryKit.Allocator.Label
import MemoryKit.Arena
import MemoryKit.Heap.Blocks
import MemoryKit.Heap.Check
import MemoryKit.Log
import MemoryKit.Text.Quoted

/-! # Allocators

An allocator serves requests of any size out of one arena. It places the data of an allocation at an
aligned address, finds the block of a pointer again, and keeps account of what is allocated. Each
allocation carries a label. A heap that failed its check serves nobody until it is reset.
-/

namespace MemoryKit

inductive AllocatorError where
  | foreignPointer (address : Nat)
  | notAllocated (offset : Nat)
  | corrupted
  deriving DecidableEq, Repr

def AllocatorError.message : AllocatorError → String
  | .foreignPointer address =>
    s!"pointer 0x{String.ofList (Text.hexDigits address)} does not belong to this heap"
  | .notAllocated offset => s!"no allocation starts at offset {offset}"
  | .corrupted => "the heap is corrupted"

structure AllocationOptions where
  alignment : Nat := granule
  isPowerOfTwo_alignment : isPowerOfTwo alignment = true := by decide
  granule_le : granule ≤ alignment := by decide
  le_limit : alignment ≤ 1 <<< 30 := by decide

namespace AllocationOptions

def standard : AllocationOptions := {}

/-- Asks for an alignment; a small one is raised to the granule. -/
def ofAlignment (alignment : Nat) : Except ConfigError AllocationOptions :=
  if h : isPowerOfTwo alignment = true ∧ alignment ≤ 1 <<< 30 then
    if g : granule ≤ alignment then .ok ⟨alignment, h.1, g, h.2⟩ else .ok standard
  else .error (.invalidAlignment alignment)

end AllocationOptions

/-- An arena that serves allocations. -/
structure Allocator where
  region : Region
  heap : Heap
  /-- The labels seen so far; headers hold positions in this list. -/
  labels : Array Label
  allocations : Nat
  /-- The sizes of their blocks together. -/
  allocatedBytes : Nat
  /-- The greatest value of `allocatedBytes` so far. -/
  peak : Nat
  /-- Whether a check has failed since the last reset. -/
  poisoned : Bool

structure AllocatorStats where
  allocations : Nat
  allocatedBytes : Nat
  peak : Nat
  capacity : Nat
  freeBlocks : Nat
  largestFree : Nat
  deriving DecidableEq, Repr

structure BlockInfo where
  offset : Nat
  size : Nat
  used : Bool
  label : Option Label
  deriving DecidableEq, Repr

namespace Allocator

def usableSize (size : Nat) : Nat := min size (wordLimit - 1) / granule * granule

def minSize : Nat := 2 * granule

/-- Builds a heap over an arena, whatever its memory holds. -/
def ofArena (arena : Arena) : Except ConfigError (Allocator × List Record) :=
  let usable := usableSize arena.size
  if arena.isAligned granule = false then .error (.unaligned granule)
  else if usable < minSize then .error (.arenaTooSmall arena.size minSize)
  else
    let cut : List Record :=
      if usable < arena.size then [.debug s!"Using {usable} of the {arena.size} arena bytes"]
      else []
    .ok ({ region := arena.toRegion
           heap := .create arena.memory usable
           labels := #[]
           allocations := 0
           allocatedBytes := 0
           peak := 0
           poisoned := false },
      cut ++ [.debug s!"Created TLSF heap of {usable} bytes"])

def withCapacity (system : Arena.System) (bytes : Nat) :
    Except ConfigError (Allocator × List Record) :=
  match Arena.provide system bytes granule with
  | .error e => .error e
  | .ok arena => ofArena arena

/-- Positions of labels are below this number, which stands for a label that was dropped. -/
def noLabel : Nat := (1 <<< 24) - 1

def tagOf (alignment label : Nat) : Nat := (alignment.log2 <<< 24) + label

def labelOfTag (tag : Nat) : Nat := tag % (1 <<< 24)

def alignmentOfTag (tag : Nat) : Nat := 1 <<< ((tag >>> 24) % 64)

def label? (a : Allocator) (tag : Nat) : Option Label := a.labels[labelOfTag tag]?

/-- The position of a label, which is recorded if none is known of its place. -/
def recordLabel (a : Allocator) (label : Label) : Outcome Allocator Nat :=
  match a.labels.findIdx? (·.key == label.key) with
  | some i => .quiet i a
  | none =>
    if noLabel ≤ a.labels.size then
      ⟨noLabel, a, [.warn s!"Too many distinct labels, dropping {Text.quoted label.words}"]⟩
    else .quiet a.labels.size { a with labels := a.labels.push label }

theorem labels_recordLabel (a : Allocator) (label : Label) (h : a.labels.size < noLabel) :
    ((a.recordLabel label).state.labels[(a.recordLabel label).answer]?).map Label.key =
      some label.key := by
  unfold recordLabel
  split
  · next i hi =>
    obtain ⟨hlt, hkey, -⟩ := Array.findIdx?_eq_some_iff_getElem.mp hi
    simp only [Outcome.quiet_state, Outcome.quiet_answer]
    rw [Array.getElem?_eq_getElem hlt, Option.map_some, beq_iff_eq.mp hkey]
  · rw [if_neg (by omega)]
    simp only [Outcome.quiet_state, Outcome.quiet_answer, Array.getElem?_push_size,
      Option.map_some]

def offsetOf? (a : Allocator) (pointer : Nat) : Option Nat :=
  (a.region.offsetOf? pointer).filter (· < a.heap.capacity)

def owns (a : Allocator) (pointer : Nat) : Bool := (a.offsetOf? pointer).isSome

/--
The block whose data starts at an offset. The word in front of the data is the data offset itself,
if the data follows the header directly, or else the offset of the block.
-/
def blockAt (a : Allocator) (user : Nat) : Nat :=
  let link := a.heap.word (user - 4)
  if link = user then user - headerSize else link

/-- The used block of a pointer and the offset of its data. -/
def locate (a : Allocator) (pointer : Nat) : Except AllocatorError (Nat × Nat) :=
  match a.offsetOf? pointer with
  | none => .error (.foreignPointer pointer)
  | some user =>
    if user % granule ≠ 0 ∨ user < headerSize then .error (.notAllocated user)
    else
      let block := a.blockAt user
      if a.heap.isAllocation block user then .ok (block, user) else .error (.notAllocated user)

/-- The number of bytes from a pointer to the end of its block. -/
def size? (a : Allocator) (pointer : Nat) : Option Nat :=
  match a.locate pointer with
  | .ok (block, user) => some (block + a.heap.blockSize block - user)
  | .error _ => none

def dataSize? (bytes : Nat) : Option Nat := ceilTo? sizeLimit granule (max bytes 1)

def asWord? (size : Nat) : Option Nat := if size < wordLimit then some size else none

/--
The data size of a request and the size of the block to look for: header and data, and padding for
an alignment above the granule.
-/
def requestSize? (bytes alignment : Nat) : Option (Nat × Nat) :=
  match dataSize? bytes with
  | none => none
  | some data =>
    match checkedAdd data headerSize with
    | none => none
    | some bare =>
      ((checkedAdd bare (wrappingSub sizeLimit alignment granule)).bind asWord?).map fun total =>
        (data, total)

def countAllocation (a : Allocator) (block : Nat) : Allocator :=
  let bytes := a.allocatedBytes + a.heap.blockSize block
  { a with
    allocations := a.allocations + 1
    allocatedBytes := bytes
    peak := max a.peak bytes }

/--
Places the data of a request in a block that was taken for it. Data that does not follow the header
directly has a link to its block in front, and what the block holds behind the data goes back.
-/
def furnish (h : Heap) (block user data tag : Nat) : Heap :=
  let h := h.setAllocation block user tag
  if headerSize < user - block then
    (h.setWord (user - 4) block).shrink block (user - block + data)
  else h

def allocateAligned (a : Allocator) (bytes : Nat) (label : Label) (alignment : Nat) :
    Outcome Allocator (Option Nat) :=
  if a.poisoned then
    ⟨none, a, [.error s!"Refusing to allocate {Text.quoted label.words} from a corrupted heap"]⟩
  else
    match requestSize? bytes alignment with
    | none => .quiet none a
    | some (data, total) =>
      match a.heap.allocate total with
      | none =>
        ⟨none, a, [.debug s!"TLSF heap exhausted, {bytes} bytes for {Text.quoted label.words}"]⟩
      | some (block, heap) =>
        let start := a.region.address (block + headerSize)
        match ceilTo? sizeLimit alignment start with
        | none => .quiet none { a with heap }
        | some pointer =>
          let user := (pointer - a.region.start) % wordLimit
          let recorded := { a with heap }.recordLabel label
          let tag := tagOf alignment recorded.answer
          let placed := { recorded.state with
            heap := furnish recorded.state.heap block user data tag }
          ⟨some (a.region.address user), placed.countAllocation block, recorded.log⟩

def allocate (a : Allocator) (bytes : Nat) (label : Label) (options : AllocationOptions) :
    Outcome Allocator (Option Nat) :=
  a.allocateAligned bytes label options.alignment

def freeBlock (a : Allocator) (block : Nat) : Allocator :=
  { a with
    allocations := wrappingSub sizeLimit a.allocations 1
    allocatedBytes := wrappingSub sizeLimit a.allocatedBytes (a.heap.blockSize block)
    heap := a.heap.free block }

/-- Frees an allocation. The null pointer is ignored, and a call that fails changes nothing. -/
def deallocate (a : Allocator) (pointer : Nat) : Except AllocatorError Unit × Allocator :=
  if pointer = 0 then (.ok (), a)
  else if a.poisoned then (.error .corrupted, a)
  else
    match a.locate pointer with
    | .ok (block, _) => (.ok (), a.freeBlock block)
    | .error e => (.error e, a)

/--
Moves an allocation to a new one with the same alignment and label. If its label was dropped, the
new one carries the allocator's own.
-/
def move (a : Allocator) (pointer block user bytes : Nat) : Outcome Allocator (Option Nat) :=
  let tag := a.heap.tag block
  let usable := a.heap.blockSize block - (user - block)
  let label := (a.label? tag).getD .resized
  let target := a.allocateAligned bytes label (alignmentOfTag tag)
  match target.answer with
  | none => target
  | some moved =>
    let memory := target.state.heap.memory.copy user (moved - a.region.start) (min usable bytes)
    let copied := { target.state with heap := { target.state.heap with memory } }
    match copied.deallocate pointer with
    | (.ok (), freed) => ⟨some moved, freed, target.log⟩
    | (.error e, kept) =>
      ⟨some moved, kept,
        target.log ++ [.error s!"Releasing the old block after moving it: {e.message}"]⟩

def neededSize? (bytes lead : Nat) : Option Nat :=
  match dataSize? bytes with
  | none => none
  | some data => (checkedAdd data lead).bind asWord?

/-- Resizes the allocation in a block: in place if it can be, or else by moving it. -/
def resize (a : Allocator) (pointer block user bytes : Nat) : Outcome Allocator (Option Nat) :=
  match neededSize? bytes (user - block) with
  | none => .quiet none a
  | some needed =>
    let old := a.heap.blockSize block
    if needed ≤ old then
      let heap := a.heap.shrink block needed
      .quiet (some pointer)
        { a with
          heap
          allocatedBytes := wrappingSub sizeLimit a.allocatedBytes (old - heap.blockSize block) }
    else
      match a.heap.grow block needed with
      | some heap =>
        let total := a.allocatedBytes + (heap.blockSize block - old)
        .quiet (some pointer) { a with heap, allocatedBytes := total, peak := max a.peak total }
      | none => a.move pointer block user bytes

/-- Resizes an allocation and keeps its contents. The null pointer asks for a new allocation. -/
def reallocate (a : Allocator) (pointer bytes : Nat) : Outcome Allocator (Option Nat) :=
  if pointer = 0 then a.allocate bytes .resized .standard
  else if a.poisoned then .quiet none a
  else
    match a.locate pointer with
    | .ok (block, user) => a.resize pointer block user bytes
    | .error e =>
      ⟨none, a,
        [.error s!"Reallocating 0x{String.ofList (Text.hexDigits pointer)}: {e.message}"]⟩

def read (a : Allocator) (offset count : Nat) : List UInt8 := a.heap.memory.read offset count

def write (a : Allocator) (offset : Nat) (bytes : List UInt8) : Allocator :=
  { a with heap := { a.heap with memory := a.heap.memory.write offset bytes } }

/-- Discards all allocations and begins with an empty heap. Peak and labels stay. -/
def reset (a : Allocator) : Outcome Allocator Unit :=
  let log : List Record :=
    if 0 < a.allocations then [.debug s!"Resetting heap with {a.allocations} live allocations"]
    else []
  ⟨(), { a with heap := a.heap.reset, allocations := 0, allocatedBytes := 0, poisoned := false },
    log⟩

end Allocator

end MemoryKit
