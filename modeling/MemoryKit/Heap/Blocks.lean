import MemoryKit.Heap.Header

/-! # Taking and returning blocks

A block is taken from the first free list that fits, and cut down to what was asked for. A block
that is returned merges with its free neighbours at once, so that no two free blocks are ever next
to each other.
-/

namespace MemoryKit.Heap

def insertFree (h : Heap) (b : Nat) : Heap :=
  let c := SizeClass.ofSize (h.blockSize b)
  let head := h.index.head c
  let linked := ((h.mark b false).setPrevFree b none).setNextFree b head
  match head with
  | some first =>
    let linked := linked.setPrevFree first (some b)
    { linked with index := linked.index.setHead c (some b) }
  | none => { linked with index := (linked.index.mark c).setHead c (some b) }

def extractFree (h : Heap) (b : Nat) : Heap :=
  let c := SizeClass.ofSize (h.blockSize b)
  let prev := h.prevFree b
  let next := h.nextFree b
  let skipped : Heap := match prev with
    | some p => h.setNextFree p next
    | none =>
      let index := h.index.setHead c next
      { h with index := if next.isNone then index.unmark c else index }
  match next with
  | some n => skipped.setPrevFree n prev
  | none => skipped

def absorbNext (h : Heap) (b : Nat) : Heap :=
  match h.behind b with
  | none => h
  | some next =>
    let merged := h.setSize b (h.blockSize b + h.blockSize next) (h.isUsed b)
    match merged.behind b with
    | some after => merged.setBefore after (some b)
    | none => merged

/-- Makes a block free, merges it with its free neighbours and lists the result. -/
def release (h : Heap) (b : Nat) : Heap :=
  let freed := h.mark b false
  let merged := match freed.behind b with
    | some next => if freed.isUsed next then freed else (freed.extractFree next).absorbNext b
    | none => freed
  match merged.before b with
  | some prev =>
    if merged.isUsed prev then merged.insertFree b
    else ((merged.extractFree prev).absorbNext prev).insertFree prev
  | none => merged.insertFree b

/-- Cuts a block down to a size and releases the rest, if the rest can be a block. -/
def split (h : Heap) (b size : Nat) : Heap :=
  let remainder := wrappingSub wordLimit (h.blockSize b) size
  if remainder < headerSize then h
  else
    let after := h.behind b
    let rest := b + size
    let cut :=
      ((h.setSize b size (h.isUsed b)).setSize rest remainder false).setBefore rest (some b)
    let linked := match after with
      | some a => cut.setBefore a (some rest)
      | none => cut
    linked.release rest

/-- Takes a block of at least the given size, a multiple of the granule, header included. -/
def allocate (h : Heap) (size : Nat) : Option (Nat × Heap) :=
  match SizeClass.roundUp? size with
  | none => none
  | some (rounded, start) =>
    match (h.index.search start).bind h.index.head with
    | none => none
    | some b => some (b, ((h.extractFree b).mark b true).split b rounded)

/-- Returns a used block. Its data offset is erased, so that no old pointer finds it. -/
def free (h : Heap) (b : Nat) : Heap := (h.setWord (b + nextField) noLink).release b

def grow (h : Heap) (b size : Nat) : Option Heap :=
  if size ≤ h.blockSize b then some h
  else
    match h.behind b with
    | none => none
    | some next =>
      if h.isUsed next ∨ h.blockSize b + h.blockSize next < size then none
      else some (((h.extractFree next).absorbNext b).split b size)

def shrink (h : Heap) (b size : Nat) : Heap :=
  let target := SizeClass.ceilOrSelf size
  if target < h.blockSize b then h.split b target else h

/-- Forgets all blocks but one, which is free and covers the heap. Other headers stay behind. -/
def reset (h : Heap) : Heap :=
  (({ h with index := .empty }.setSize 0 h.capacity false).setBefore 0 none).insertFree 0

def create (memory : Memory) (capacity : Nat) : Heap := reset ⟨memory, capacity, .empty⟩

end MemoryKit.Heap
