import MemoryKit.Arena
import MemoryKit.Log
import MemoryKit.PoolError
import MemoryKit.TaggedIndex

/-! # Pools of equal blocks

An arena is cut into blocks of one stride, which are handed out and returned by index. The free
blocks form a stack: the block returned last is handed out first. Its links lie beside the arena,
so the bytes of a block stay as its last owner left them.
-/

namespace MemoryKit

/-- Whether a block is handed out and, if it is not, which block lies below it on the stack. -/
inductive BlockPool.Link where
  | taken
  | free (below : Option Nat)
  deriving DecidableEq, Repr, Inhabited

namespace BlockPool.Link

def takenWord : UInt32 := 0xfffffffe

/-- The word of a place on the stack: the index of a block, or the null index past the last one. -/
def placeWord : Option Nat → UInt32
  | some i => .ofNat i
  | none => nullIndex

def placeOfWord (w : UInt32) : Option Nat := if w = nullIndex then none else some w.toNat

def toWord : Link → UInt32
  | .taken => takenWord
  | .free below => placeWord below

def ofWord (w : UInt32) : Link := if w = takenWord then .taken else .free (placeOfWord w)

end BlockPool.Link

structure BlockPool where
  arena : Arena
  /-- The bytes of a block that its owner may use. -/
  blockSize : Nat
  /-- The distance between the starts of neighbouring blocks. -/
  stride : Nat
  links : Array BlockPool.Link
  /-- The block on top of the stack of free blocks. -/
  top : Option Nat
  available : Nat

namespace BlockPool

def minBlockSize : Nat := 4

def capacity (p : BlockPool) : Nat := p.links.size

def strideFor (blockSize alignment : Nat) : Except ConfigError Nat :=
  if blockSize < minBlockSize then
    .error (.blockTooSmall blockSize)
  else if isPowerOfTwo alignment = false then
    .error (.invalidAlignment alignment)
  else
    match ceilTo? sizeLimit alignment blockSize with
    | some stride => .ok stride
    | none => .error (.blockTooSmall blockSize)

def bytesFor (stride capacity : Nat) : Except ConfigError Nat :=
  match checkedMul stride capacity with
  | some bytes => .ok bytes
  | none => .error (.capacityOverflow capacity maxPoolCapacity)

def fullStack (capacity : Nat) : Array Link :=
  Array.ofFn (n := capacity) fun i => .free (if i + 1 < capacity then some (i + 1) else none)

def untouched (arena : Arena) (blockSize stride capacity : Nat) : BlockPool :=
  { arena, blockSize, stride
    links := fullStack capacity
    top := if 0 < capacity then some 0 else none
    available := capacity }

def reset (p : BlockPool) : BlockPool := untouched p.arena p.blockSize p.stride p.capacity

@[simp] theorem size_fullStack (capacity : Nat) : (fullStack capacity).size = capacity :=
  Array.size_ofFn

@[simp] theorem capacity_untouched (arena : Arena) (blockSize stride capacity : Nat) :
    (untouched arena blockSize stride capacity).capacity = capacity :=
  size_fullStack capacity

def ofArena (arena : Arena) (blockSize capacity alignment : Nat) :
    Except ConfigError (BlockPool × List Record) :=
  if maxPoolCapacity < capacity then .error (.capacityOverflow capacity maxPoolCapacity)
  else
    match strideFor blockSize alignment with
    | .error e => .error e
    | .ok stride =>
      if arena.isAligned alignment = false then .error (.unaligned alignment)
      else
        match bytesFor stride capacity with
        | .error e => .error e
        | .ok bytes =>
          if arena.size < bytes then .error (.arenaTooSmall arena.size bytes)
          else
            .ok (untouched arena blockSize stride capacity,
              [.debug s!"Created pool of {capacity} blocks with a stride of {stride} bytes"])

def withCapacity (system : Arena.System) (blockSize capacity alignment : Nat) :
    Except ConfigError (BlockPool × List Record) :=
  match strideFor blockSize alignment with
  | .error e => .error e
  | .ok stride =>
    match bytesFor stride capacity with
    | .error e => .error e
    | .ok bytes =>
      match Arena.provide system bytes alignment with
      | .error e => .error e
      | .ok arena => ofArena arena blockSize capacity alignment

def allocate (p : BlockPool) : Outcome BlockPool (Option Nat) :=
  match p.top with
  | none => ⟨none, p, [.debug s!"Pool exhausted ({p.capacity} blocks)"]⟩
  | some i =>
    match p.links[i]? with
    | some (.free below) =>
      .quiet (some i)
        { p with
          links := p.links.setIfInBounds i .taken
          top := below
          available := p.available - 1 }
    | _ => .quiet none p

/-- Puts a block that was handed out back on the stack. A call that fails changes nothing. -/
def deallocate (p : BlockPool) (i : Nat) : Except PoolError Unit × BlockPool :=
  match p.links[i]? with
  | none => (.error (.foreignIndex i), p)
  | some (.free _) => (.error (.doubleFree i), p)
  | some .taken =>
    (.ok (), { p with
      links := p.links.setIfInBounds i (.free p.top)
      top := some i
      available := p.available + 1 })

def offset (p : BlockPool) (i : Nat) : Nat := i * p.stride

def address? (p : BlockPool) (i : Nat) : Option Nat :=
  if i < p.capacity then some (p.arena.address (p.offset i)) else none

def indexOf? (p : BlockPool) (address : Nat) : Option Nat :=
  match p.arena.offsetOf? address with
  | none => none
  | some offset =>
    if offset % p.stride = 0 ∧ offset / p.stride < p.capacity then some (offset / p.stride)
    else none

def owns (p : BlockPool) (address : Nat) : Bool := (p.indexOf? address).isSome

def deallocateAt (p : BlockPool) (address : Nat) : Except PoolError Unit × BlockPool :=
  match p.indexOf? address with
  | none => (.error (.foreignIndex nullIndex.toNat), p)
  | some i => p.deallocate i

def isTaken (p : BlockPool) (i : Nat) : Bool := p.links[i]? == some .taken

def block? (p : BlockPool) (i : Nat) : Option (List UInt8) :=
  if p.isTaken i then some (p.arena.memory.read (p.offset i) p.blockSize) else none

/-- Overwrites the first bytes of a block that is handed out; what exceeds the block is cut off. -/
def overwrite (p : BlockPool) (i : Nat) (bytes : List UInt8) : BlockPool :=
  if p.isTaken i then
    { p with
      arena := { p.arena with
        memory := p.arena.memory.write (p.offset i) (bytes.take p.blockSize) } }
  else p

def text (p : BlockPool) : String :=
  "Pool \x7b block_size: " ++ toString p.blockSize ++ ", stride: " ++ toString p.stride ++
    ", capacity: " ++ toString p.capacity ++ ", available: " ++ toString p.available ++ " \x7d"

end BlockPool

end MemoryKit
