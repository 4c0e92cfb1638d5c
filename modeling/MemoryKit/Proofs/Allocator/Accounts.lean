import MemoryKit.Proofs.Allocator.Placement
import MemoryKit.Proofs.Heap.Canonical
import MemoryKit.Proofs.Heap.WellFormed

/-! # The accounts of an allocator

An allocator counts its allocations and adds up the sizes of their blocks, without a look at the
heap. Every trade of used blocks goes with an entry in the accounts, so that they stay those of the
used blocks. Labels are only ever added, so that the tags of blocks keep their meaning.
-/

namespace MemoryKit.Allocator

open Heap

variable {a a' a'' : Allocator} {L L' L'' : Layout} {b b' : Block} {gone new : Option Block}

/-- The tag names a label that was recorded or stands for one that was dropped. -/
def KnowsTag (a : Allocator) (tag : Nat) : Prop :=
  labelOfTag tag = noLabel ∨ labelOfTag tag < a.labels.size

/-- The accounts are those of the used blocks, and no fault was found. -/
structure Balanced (a : Allocator) (L : Layout) : Prop where
  allocations_eq : a.allocations = L.used.length
  bytes_eq : a.allocatedBytes = (L.used.map Block.size).sum
  tags : ∀ b ∈ L.used, a.KnowsTag (a.heap.tag b.offset)
  unpoisoned : a.poisoned = false

structure KeepsBooks (a : Allocator) (L : Layout) (a' : Allocator) (L' : Layout) : Prop where
  labels : a.labels.toList <+: a'.labels.toList
  balanced : a.Balanced L → a'.Balanced L'

theorem KnowsTag.mono {tag : Nat} (h : a.KnowsTag tag)
    (hl : a.labels.toList <+: a'.labels.toList) : a'.KnowsTag tag := by
  have hle := hl.length_le
  simp only [Array.length_toList] at hle
  exact h.imp_right fun hlt => Nat.lt_of_lt_of_le hlt hle

theorem KnowsTag.label?_eq {tag : Nat} (h : a.KnowsTag tag)
    (hl : a.labels.toList <+: a'.labels.toList) (hle : a'.labels.size ≤ noLabel) :
    a'.labels[labelOfTag tag]? = a.labels[labelOfTag tag]? := by
  rcases h with h | h
  · have hsize := hl.length_le
    simp only [Array.length_toList] at hsize
    rw [h, Array.getElem?_eq_none (by omega), Array.getElem?_eq_none (by omega)]
  · obtain ⟨rest, he⟩ := hl
    rw [← Array.getElem?_toList, ← Array.getElem?_toList, ← he,
      List.getElem?_append_left (by simpa using h)]

/-- The accounts follow a trade if what they were changed by is what was traded. -/
theorem Balanced.of_trades (B : a.Balanced L) (H : a.HasLayout L)
    (T : Trades a.heap L a'.heap L' gone new) (hgone : ∀ b ∈ gone, b ∈ L.used)
    (hcount : a'.allocations + gone.toList.length = a.allocations + new.toList.length)
    (hbytes : a'.allocatedBytes + (gone.toList.map Block.size).sum =
      a.allocatedBytes + (new.toList.map Block.size).sum)
    (hlabels : a.labels.toList <+: a'.labels.toList)
    (hnew : ∀ b ∈ new, a'.KnowsTag (a'.heap.tag b.offset)) (hp : a'.poisoned = false) :
    a'.Balanced L' where
  allocations_eq := by
    obtain ⟨hlen, -⟩ := T.totals_used H.heap.valid hgone
    have heq := B.allocations_eq
    omega
  bytes_eq := by
    obtain ⟨-, hsum⟩ := T.totals_used H.heap.valid hgone
    have heq := B.bytes_eq
    omega
  tags b hb := by
    rcases T.mem_used.mp hb with ⟨hb, hg⟩ | hb
    · rw [T.tag_eq hb hg]
      exact (B.tags b hb).mono hlabels
    · exact hnew b hb
  unpoisoned := hp

theorem Balanced.counters_of_trades (B : a.Balanced L) (B' : a'.Balanced L') (H : a.HasLayout L)
    (T : Trades a.heap L a'.heap L' gone new) (hgone : ∀ b ∈ gone, b ∈ L.used) :
    a'.allocations + gone.toList.length = a.allocations + new.toList.length ∧
      a'.allocatedBytes + (gone.toList.map Block.size).sum =
        a.allocatedBytes + (new.toList.map Block.size).sum := by
  rw [B.allocations_eq, B'.allocations_eq, B.bytes_eq, B'.bytes_eq]
  exact T.totals_used H.heap.valid hgone

theorem HasLayout.sum_size_used_lt (H : a.HasLayout L) :
    (L.used.map Block.size).sum < sizeLimit := by
  have hle := H.heap.valid.sum_size_used_le
  have hcap := H.heap.capacity_lt
  have hlt : wordLimit ≤ sizeLimit := by decide
  omega

theorem Balanced.length_lt (B : a.Balanced L) (H : a.HasLayout L) : a.allocations < sizeLimit := by
  have hle : L.used.length ≤ L.blocks.length := List.length_filter_le ..
  have hcap := H.heap.valid.tiles.length_le
  have hlt := H.heap.capacity_lt
  rw [B.allocations_eq]
  simp only [granule, wordLimit, sizeLimit] at *
  omega

theorem IsPlaced.tag_eq_of_write {x : Holding} {user : Nat} {c : Block} (P : a.IsPlaced x b user)
    (H : a.HasLayout L) (hb : b ∈ L.blocks) (hc : c ∈ L.blocks) {m : Memory}
    (hm : ∀ i, i < user ∨ b.offset + b.size ≤ i → m.byte i = a.heap.memory.byte i) :
    Heap.tag { a.heap with memory := m } c.offset = a.heap.tag c.offset := by
  have ht := H.heap.valid.tiles
  have hfront := P.header_le
  obtain ⟨-, -, hpos, hdvd⟩ := ht.bounds hc
  have hle : granule ≤ c.size := Nat.le_of_dvd hpos hdvd
  refine Memory.word_congr fun i hlo hhi => hm i ?_
  simp only [prevField, headerSize, granule] at *
  rcases ht.apart hb hc with rfl | hap | hap <;> omega

namespace KeepsBooks

theorem trans (K : KeepsBooks a L a' L') (K' : KeepsBooks a' L' a'' L'') :
    KeepsBooks a L a'' L'' :=
  ⟨K.labels.trans K'.labels, fun B => K'.balanced (K.balanced B)⟩

theorem same (hheap : a'.heap = a.heap) (hlabels : a'.labels = a.labels)
    (hcount : a'.allocations = a.allocations) (hbytes : a'.allocatedBytes = a.allocatedBytes)
    (hp : a'.poisoned = a.poisoned) : KeepsBooks a L a' L where
  labels := hlabels ▸ List.prefix_rfl
  balanced B := by
    refine ⟨hcount.trans B.allocations_eq, hbytes.trans B.bytes_eq, fun b hb => ?_,
      hp.trans B.unpoisoned⟩
    rw [hheap]
    exact (B.tags b hb).mono (hlabels ▸ List.prefix_rfl)

theorem write {x : Holding} {user : Nat} (H : a.HasLayout L) (hb : b ∈ L.blocks)
    (P : a.IsPlaced x b user) {m : Memory}
    (hm : ∀ i, i < user ∨ b.offset + b.size ≤ i → m.byte i = a.heap.memory.byte i) :
    KeepsBooks a L { a with heap := { a.heap with memory := m } } L where
  labels := List.prefix_rfl
  balanced B := by
    refine ⟨B.allocations_eq, B.bytes_eq, fun c hc => ?_, B.unpoisoned⟩
    have hknown := B.tags c hc
    rw [← P.tag_eq_of_write H hb (Layout.mem_used.mp hc).1 hm] at hknown
    exact hknown

theorem enter (H : a.HasLayout L) (T : Trades a.heap L a'.heap L' none (some b))
    (hcount : a'.allocations = a.allocations + 1)
    (hbytes : a'.allocatedBytes = a.allocatedBytes + b.size)
    (hlabels : a.labels.toList <+: a'.labels.toList)
    (htag : a'.KnowsTag (a'.heap.tag b.offset)) (hp : a'.poisoned = a.poisoned) :
    KeepsBooks a L a' L' where
  labels := hlabels
  balanced B := B.of_trades H T (by simp) (by simpa using hcount) (by simpa using hbytes) hlabels
    (by simpa using htag) (hp.trans B.unpoisoned)

theorem leave (H : a.HasLayout L) (hb : b ∈ L.used)
    (T : Trades a.heap L (a.freeBlock b.offset).heap L' (some b) none) :
    KeepsBooks a L (a.freeBlock b.offset) L' where
  labels := List.prefix_rfl
  balanced B := by
    have hpos := List.length_pos_of_mem hb
    have hle := Layout.size_le_sum_used hb
    have hlt := H.sum_size_used_lt
    have hcount := B.allocations_eq
    have hbytes := B.bytes_eq
    have hsize := H.heap.blockSize_eq (Layout.mem_used.mp hb).1
    have hcount' : wrappingSub sizeLimit a.allocations 1 = a.allocations - 1 :=
      wrappingSub_eq (by omega) (B.length_lt H)
    have hbytes' : wrappingSub sizeLimit a.allocatedBytes b.size = a.allocatedBytes - b.size :=
      wrappingSub_eq (by omega) (by omega)
    refine B.of_trades H T (by simpa using hb) ?_ ?_ List.prefix_rfl (by simp) B.unpoisoned
    · simp only [freeBlock, hcount', Option.toList_some, Option.toList_none, List.length_cons,
        List.length_nil]
      omega
    · simp only [freeBlock, hsize, hbytes', Option.toList_some, Option.toList_none, List.map_cons,
        List.map_nil, List.sum_cons, List.sum_nil]
      omega

theorem resize (H : a.HasLayout L) (hb : b ∈ L.used) (hb' : b'.offset = b.offset)
    (T : Trades a.heap L a'.heap L' (some b) (some b'))
    (hcount : a'.allocations = a.allocations)
    (hbytes : (L.used.map Block.size).sum = a.allocatedBytes →
      a'.allocatedBytes + b.size = a.allocatedBytes + b'.size)
    (hlabels : a'.labels = a.labels)
    (htag : a'.heap.tag b.offset = a.heap.tag b.offset) (hp : a'.poisoned = a.poisoned) :
    KeepsBooks a L a' L' where
  labels := hlabels ▸ List.prefix_rfl
  balanced B := by
    have hprefix : a.labels.toList <+: a'.labels.toList := hlabels ▸ List.prefix_rfl
    refine B.of_trades H T (by simpa using hb) (by simpa using hcount)
      (by simpa using hbytes B.bytes_eq.symm) hprefix ?_ (hp.trans B.unpoisoned)
    rintro c hc
    obtain rfl := Option.some.inj hc
    rw [hb', htag]
    exact (B.tags b hb).mono hprefix

end KeepsBooks

end MemoryKit.Allocator
