import MemoryKit.Proofs.BlockPool.Lifo
import MemoryKit.Proofs.SlotPool.FreeStack
import MemoryKit.SlotPool.Interleaving

/-! # Slots handed out like blocks

A pool of slots and a pool of as many blocks answer alike, although one keeps a tagged head and
marks for the slots in use, and the other one links only. Both stand on the same stack of free
indices, in which neither the tag of the head nor what is left in the fields of a slot in use has a
part.
-/

namespace MemoryKit.SlotPool

variable {α : Type} {p p' : SlotPool α} {b b' : BlockPool} {free : List UInt32} {i : UInt32}

theorem deallocate_foreign (hi : p.capacity ≤ i.toNat) :
    p.deallocate i = (.error (.foreignIndex i.toNat), p) := by
  have hs : p.slot? i = none := Array.getElem?_eq_none hi
  simp only [deallocate, hs]

theorem HasStack.deallocate_mem (h : p.HasStack free) (hi : i ∈ free) :
    p.deallocate i = (.error (.doubleFree i.toNat), p) := by
  obtain ⟨s, hs⟩ := h.exists_slot? hi
  have hfree : s.inUse = false := (h.mem_iff i s hs).mp hi
  simp only [deallocate, hs, hfree, Bool.false_eq_true, if_false]

inductive Request where
  | allocate
  | deallocate (i : UInt32)

namespace Request

def call : Request → BlockPool.Call
  | .allocate => .allocate
  | .deallocate i => .deallocate i.toNat

def first : Request → Access
  | .allocate => .loadHeadToTake
  | .deallocate i => .markReturned i

def Ends : (r : Request) → CallResult → r.call.Answer → Prop
  | .allocate, .taken i, answer => answer = some i.toNat
  | .allocate, .exhausted, answer => answer = none
  | .deallocate _, .returned, answer => answer = .ok ()
  | .deallocate _, .rejected e, answer => answer = .error e
  | _, _, _ => False

end Request

def serve (p : SlotPool α) : (r : Request) → r.call.Answer × SlotPool α
  | .allocate => (p.allocate.1.map UInt32.toNat, p.allocate.2)
  | .deallocate i => p.deallocate i

def after (p : SlotPool α) (requests : List Request) : SlotPool α :=
  requests.foldl (fun p r => (p.serve r).2) p

/-- A call that is made alone, from one of its accesses to the end. -/
inductive Performs : SlotPool α → Access → CallResult → SlotPool α → Prop where
  | last {p p' : SlotPool α} {a : Access} {result : CallResult}
      (h : a.perform p = (.finished result, p')) : Performs p a result p'
  | more {p p₁ p' : SlotPool α} {a a' : Access} {result : CallResult}
      (h : a.perform p = (.access a', p₁)) (rest : Performs p₁ a' result p') :
      Performs p a result p'

theorem swapHead_self (p : SlotPool α) (new : TaggedIndex) :
    p.swapHead p.head new = (.ok p.head, { p with head := new }) := by
  simp only [swapHead, TaggedIndex.Cell.compareExchange, if_true]

theorem setSlot_setSlot (p : SlotPool α) (i : UInt32) (s t : Slot α) :
    (p.setSlot i s).setSlot i t = p.setSlot i t := by
  simp only [setSlot, Array.setIfInBounds_setIfInBounds]

theorem setSlot_self {s : Slot α} (h : p.slot? i = some s) : p.setSlot i s = p := by
  obtain ⟨hlt, rfl⟩ := Array.getElem?_eq_some_iff.mp h
  simp only [setSlot, Array.setIfInBounds_def, hlt, dif_pos, Array.set_getElem_self]

theorem slot?_setSlot_self {s : Slot α} (h : p.slot? i = some s) (t : Slot α) :
    (p.setSlot i t).slot? i = some t := by
  rw [slot?_setSlot, if_pos rfl, h]
  rfl

theorem exists_performs_allocate (p : SlotPool α) :
    ∃ result, Performs p .loadHeadToTake result p.allocate.2 ∧
      Request.allocate.Ends result (p.allocate.1.map UInt32.toNat) := by
  unfold allocate
  cases hnull : p.head.isNull with
  | true =>
    refine ⟨.exhausted, .last ?_, rfl⟩
    simp only [Access.perform, Access.afterHead, hnull, if_true]
  | false =>
    have hload : Access.loadHeadToTake.perform p = (.access (.loadNext p.head), p) := by
      simp only [Access.perform, Access.afterHead, hnull, Bool.false_eq_true, if_false]
    simp only [Bool.false_eq_true, if_false]
    cases hs : p.slot? p.head.index with
    | none =>
      refine ⟨.exhausted, .more hload (.last ?_), rfl⟩
      simp only [Access.perform, hs]
    | some s =>
      let p₁ : SlotPool α := { p with head := p.head.withIndex s.next }
      have hnext : (Access.loadNext p.head).perform p =
          (.access (.swapHeadToTake p.head s.next), p) := by
        simp only [Access.perform, hs]
      have hswap : (Access.swapHeadToTake p.head s.next).perform p =
          (.access (.markTaken p.head.index), p₁) := by
        simp only [Access.perform, swapHead_self, p₁]
      have hmark : (Access.markTaken p.head.index).perform p₁ =
          (.access (.countTaken p.head.index),
            p₁.setSlot p.head.index { s with inUse := true }) := by
        simp only [Access.perform, show p₁.slot? p.head.index = some s from hs]
      refine ⟨.taken p.head.index, ?_, rfl⟩
      exact .more hload (.more hnext (.more hswap (.more hmark (.last rfl))))

theorem exists_performs_deallocate (p : SlotPool α) (i : UInt32) :
    ∃ result, Performs p (.markReturned i) result (p.deallocate i).2 ∧
      (Request.deallocate i).Ends result (p.deallocate i).1 := by
  unfold deallocate
  cases hs : p.slot? i with
  | none =>
    refine ⟨.rejected (.foreignIndex i.toNat), .last ?_, rfl⟩
    simp only [Access.perform, hs]
  | some s =>
    obtain ⟨next, inUse, value⟩ := s
    cases inUse with
    | false =>
      refine ⟨.rejected (.doubleFree i.toNat), .last ?_, rfl⟩
      simp only [Access.perform, hs, Bool.false_eq_true, if_false, setSlot_self hs]
    | true =>
      let p₁ := p.setSlot i ⟨next, false, value⟩
      let p₂ := p.setSlot i ⟨p.head.index, false, value⟩
      have hmark : (Access.markReturned i).perform p = (.access (.loadHeadToReturn i), p₁) := by
        simp only [Access.perform, hs, if_true, p₁]
      have hstore : (Access.storeNext i p.head).perform p₁ =
          (.access (.swapHeadToReturn i p.head), p₂) := by
        simp only [Access.perform, show p₁.slot? i = some _ from slot?_setSlot_self hs _]
        rw [setSlot_setSlot]
      have hswap : (Access.swapHeadToReturn i p.head).perform p₂ =
          (.access .countReturned, { p₂ with head := p.head.withIndex i }) := by
        simp only [Access.perform, show p₂.swapHead p.head _ = _ from swapHead_self p₂ _]
      refine ⟨.returned, ?_, rfl⟩
      exact .more hmark (.more rfl (.more hstore (.more hswap (.last rfl))))

theorem exists_performs (p : SlotPool α) (r : Request) :
    ∃ result, Performs p r.first result (p.serve r).2 ∧ r.Ends result (p.serve r).1 := by
  cases r with
  | allocate => exact exists_performs_allocate p
  | deallocate i => exact exists_performs_deallocate p i

/-- A pool of slots and a pool of blocks have the same stack. -/
def Matches (p : SlotPool α) (b : BlockPool) : Prop :=
  ∃ free, p.HasStack free ∧ b.HasStack (free.map UInt32.toNat) ∧ b.capacity = p.capacity

namespace Matches

theorem allocate (h : p.Matches b) :
    p.allocate.1.map UInt32.toNat = b.allocate.answer ∧
      p.allocate.2.Matches b.allocate.state := by
  obtain ⟨free, hp, hb, hcapacity⟩ := h
  cases free with
  | nil =>
    rw [allocate_nil hp, BlockPool.allocate_nil hb]
    exact ⟨rfl, [], hp, hb, hcapacity⟩
  | cons i free =>
    obtain ⟨p', hpe, hp', -, hpcap⟩ := allocate_cons hp
    obtain ⟨b', hbe, hb', -, -, hbcap⟩ := BlockPool.allocate_cons hb
    rw [hpe, hbe]
    exact ⟨rfl, free, hp', hb', hbcap.trans (hcapacity.trans hpcap.symm)⟩

theorem deallocate (h : p.Matches b) (i : UInt32) :
    (p.deallocate i).1 = (b.deallocate i.toNat).1 ∧
      (p.deallocate i).2.Matches (b.deallocate i.toNat).2 := by
  obtain ⟨free, hp, hb, hcapacity⟩ := h
  have hmem : i.toNat ∈ free.map UInt32.toNat ↔ i ∈ free :=
    List.mem_map_of_injective fun i j => UInt32.toNat_inj.mp
  by_cases hlt : i.toNat < p.capacity
  · by_cases hi : i ∈ free
    · rw [hp.deallocate_mem hi, hb.deallocate_mem (hmem.mpr hi)]
      exact ⟨rfl, free, hp, hb, hcapacity⟩
    · obtain ⟨p', hpe, hp', -, hpcap⟩ := deallocate_used hp hi hlt
      obtain ⟨b', hbe, hb', -, -, hbcap⟩ :=
        hb.deallocate_taken (hcapacity ▸ hlt) (mt hmem.mp hi)
      rw [hpe, hbe]
      exact ⟨rfl, i :: free, hp', hb', hbcap.trans (hcapacity.trans hpcap.symm)⟩
  · have hout := Nat.not_lt.mp hlt
    rw [deallocate_foreign hout, BlockPool.deallocate_foreign (hcapacity ▸ hout)]
    exact ⟨rfl, free, hp, hb, hcapacity⟩

theorem serve (h : p.Matches b) (r : Request) :
    (p.serve r).1 = (b.serve r.call).answer ∧ (p.serve r).2.Matches (b.serve r.call).state := by
  cases r with
  | allocate => exact h.allocate
  | deallocate i => exact h.deallocate i

theorem after (h : p.Matches b) (requests : List Request) :
    (p.after requests).Matches (b.after (requests.map Request.call)) := by
  induction requests generalizing p b with
  | nil => exact h
  | cons r requests ih => exact ih (h.serve r).2

theorem available_eq (h : p.Matches b) : p.available.toNat = b.available := by
  obtain ⟨free, hp, hb, -⟩ := h
  rw [hp.available_eq, hb.available_eq, List.length_map]

end Matches

theorem matches_create {capacity : Nat} {init : UInt32 → α} (hp : create capacity init = .ok p)
    (hb : BlockPool.IsNew capacity b) : p.Matches b := by
  obtain ⟨hle, hcapacity⟩ := le_of_create hp
  obtain ⟨hstack, -, hcap, -⟩ := hb.hasStack
  refine ⟨_, hasStack_create hp, ?_, hcap.trans hcapacity.symm⟩
  have hrange :
      ((List.range capacity).map UInt32.ofNat).map UInt32.toNat = List.range capacity := by
    rw [List.map_map, List.map_congr_left (fun n hn => ?_), List.map_id]
    exact toNat_ofNat_of_lt hle (List.mem_range.mp hn)
  rw [hrange]
  exact hstack

/--
Wherever a pool of blocks can be set up, one of as many slots can be too. After any requests, which
may return what was never handed out, and however often the tag of the head has gone round, both
answer every next request alike and count as many free. A thread that makes the request alone,
access by access, comes to the same end.
-/
theorem answers_as_blocks {capacity : Nat} {blocks : BlockPool}
    (h : BlockPool.IsNew capacity blocks) (init : UInt32 → α) :
    ∃ slots, create capacity init = .ok slots ∧
      ∀ requests : List Request,
        let p := slots.after requests
        let b := blocks.after (requests.map Request.call)
        p.available.toNat = b.available ∧
          ∀ r, (p.serve r).1 = (b.serve r.call).answer ∧
            ∃ result, Performs p r.first result (p.serve r).2 ∧ r.Ends result (p.serve r).1 := by
  obtain ⟨-, -, -, hle⟩ := h.hasStack
  obtain ⟨slots, hslots⟩ : ∃ slots, create capacity init = .ok slots :=
    ⟨_, if_neg (Nat.not_lt.mpr hle)⟩
  refine ⟨slots, hslots, fun requests => ?_⟩
  have hmatches := (matches_create hslots h).after requests
  exact ⟨hmatches.available_eq, fun r => ⟨(hmatches.serve r).1, exists_performs _ r⟩⟩

def pairRequests : List Request :=
  [.allocate, .allocate, .allocate, .deallocate 0, .deallocate 0, .deallocate 2]

theorem answers_as_blocks_pair :
    BlockPool.IsNew 2 BlockPool.pairPool ∧
      ∃ slots, create 2 (fun _ => 0) = .ok slots ∧
        (slots.after pairRequests).available.toNat = 1 ∧
        ((slots.after pairRequests).serve (.deallocate 0)).1 = .error (.doubleFree 0) ∧
        ((slots.after pairRequests).serve .allocate).1 = some 0 := by
  have h : BlockPool.IsNew 2 BlockPool.pairPool :=
    @BlockPool.IsNew.withCapacity 2 BlockPool.pairPool (fun _ _ => some 4096) 16 8 _ rfl
  obtain ⟨slots, hslots, hall⟩ := answers_as_blocks h fun _ => 0
  obtain ⟨havailable, hserve⟩ := hall pairRequests
  exact ⟨h, slots, hslots, havailable, (hserve (.deallocate 0)).1, (hserve .allocate).1⟩

end MemoryKit.SlotPool
