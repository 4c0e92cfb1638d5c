import MemoryKit.Heap.Inspect

/-! # Finding corruption

The check walks over the blocks, then along every free list, and compares the two and the bitmaps.
It reports the first fault. It reads only words inside of the heap and ends whatever they hold: the
walk goes on by at least a granule a step, and the lists together may not name more blocks than fit
into the heap.
-/

namespace MemoryKit.Heap

inductive Fault where
  | brokenBackLink (block : Nat)
  | invalidSize (block size : Nat)
  | adjacentFree (block : Nat)
  | wrongCover (covered capacity : Nat)
  | wrongMark (c : SizeClass)
  | listCycle
  | strayLink (c : SizeClass) (offset : Nat)
  | usedInList (block : Nat)
  | wrongList (block : Nat)
  | brokenFreeLink (block : Nat)
  | wrongBinMark (bin : Nat)
  | unlistedFree (free listed : Nat)
  | invalidUser (block user : Nat)
  | lostBlockLink (user : Nat)
  | unknownLabel (block label : Nat)
  | wrongCount (used counted : Nat)
  | wrongTotal (used counted : Nat)
  deriving DecidableEq, Repr

def Fault.message : Fault → String
  | .brokenBackLink block => s!"block {block} has a broken back link"
  | .invalidSize block size => s!"block {block} has an invalid size {size}"
  | .adjacentFree block => s!"block {block} follows another free block"
  | .wrongCover covered capacity => s!"blocks cover {covered} bytes instead of {capacity}"
  | .wrongMark c => s!"bitmap disagrees with list {c.bin}:{c.sub}"
  | .listCycle => "free lists contain a cycle"
  | .strayLink c offset => s!"free list {c.bin}:{c.sub} points to {offset}"
  | .usedInList block => s!"used block {block} is in a free list"
  | .wrongList block => s!"block {block} is in the wrong free list"
  | .brokenFreeLink block => s!"block {block} has a broken free link"
  | .wrongBinMark bin => s!"first level bitmap disagrees with bin {bin}"
  | .unlistedFree free listed => s!"{free} free blocks but {listed} are listed"
  | .invalidUser block user => s!"block {block} has an invalid user offset {user}"
  | .lostBlockLink user => s!"padded allocation at {user} lost its block link"
  | .unknownLabel block label => s!"block {block} has an unknown label {label}"
  | .wrongCount used counted => s!"{used} blocks are used but {counted} allocations are live"
  | .wrongTotal used counted => s!"{used} bytes are allocated but {counted} are accounted for"

/-- A step of the walk over the blocks: where it stands and what it has seen. -/
structure Survey where
  offset : Nat := 0
  before : Option Nat := none
  afterFree : Bool := false
  freeBlocks : Nat := 0

def survey (capacity : Nat) (s : Survey) : Nat → Inspect (Except Fault Survey)
  | 0 => .done (.ok s)
  | steps + 1 =>
    if capacity ≤ s.offset then .done (.ok s)
    else
      .read (s.offset + backField) fun back =>
        if linkOfWord back ≠ s.before then .done (.error (.brokenBackLink s.offset))
        else
          .read s.offset fun w =>
            let size := sizeOfWord w
            let isFree := isUsedWord w = false
            if size = 0 ∨ capacity < s.offset + size then
              .done (.error (.invalidSize s.offset size))
            else if isFree ∧ s.afterFree then .done (.error (.adjacentFree s.offset))
            else
              survey capacity
                { offset := s.offset + size
                  before := some s.offset
                  afterFree := isFree
                  freeBlocks := s.freeBlocks + if isFree then 1 else 0 } steps

/--
Goes along the list of a class from a link on. The lists may name `room` more blocks. Answers the
room that is left.
-/
def checkList (capacity : Nat) (c : SizeClass) (previous : Option Nat) :
    (room : Nat) → (link : Option Nat) → Inspect (Except Fault Nat)
  | room, none => .done (.ok room)
  | 0, some _ => .done (.error .listCycle)
  | room + 1, some b =>
    if b % granule ≠ 0 ∨ capacity ≤ b then .done (.error (.strayLink c b))
    else
      .read b fun w =>
        if isUsedWord w then .done (.error (.usedInList b))
        else if SizeClass.ofSize (sizeOfWord w) ≠ c then .done (.error (.wrongList b))
        else
          .read (b + prevField) fun prev =>
            if linkOfWord prev ≠ previous then .done (.error (.brokenFreeLink b))
            else
              .read (b + nextField) fun next =>
                checkList capacity c (some b) room (linkOfWord next)

def checkLists (capacity : Nat) (x : FreeIndex) (room : Nat) :
    List SizeClass → Inspect (Except Fault Nat)
  | [] => .done (.ok room)
  | c :: rest =>
    let head := x.head c
    if (x.subsOf c.bin).contains c.sub ≠ head.isSome then .done (.error (.wrongMark c))
    else
      (checkList capacity c none room head).bind fun
        | .error fault => .done (.error fault)
        | .ok room => checkLists capacity x room rest

def allClasses : List SizeClass := (List.range SizeClass.count).map SizeClass.ofIndex

/-- The first bin that is marked although its lists are empty, or not marked although one is not. -/
def wrongBin? (x : FreeIndex) : Option Nat :=
  (List.range SizeClass.binCount).find? fun bin =>
    x.bins.contains bin == (x.subsOf bin).isEmpty

def inspectCheck (capacity : Nat) (x : FreeIndex) : Inspect (Except Fault Unit) :=
  let limit := maxBlocks capacity
  (survey capacity {} limit).bind fun
    | .error fault => .done (.error fault)
    | .ok s =>
      if s.offset ≠ capacity then .done (.error (.wrongCover s.offset capacity))
      else
        (checkLists capacity x limit allClasses).bind fun
          | .error fault => .done (.error fault)
          | .ok room =>
            match wrongBin? x with
            | some bin => .done (.error (.wrongBinMark bin))
            | none =>
              if limit - room ≠ s.freeBlocks then
                .done (.error (.unlistedFree s.freeBlocks (limit - room)))
              else .done (.ok ())

def check (h : Heap) : Except Fault Unit := (inspectCheck h.capacity h.index).run h.memory

end MemoryKit.Heap
