import Mathlib.Data.List.Perm.Basic
import MemoryKit.Proofs.SlotPool.FreeStack
import MemoryKit.SlotPool.Interleaving

/-! # The accesses of a call

Another thread may move the head between two accesses of a call, so what a thread has read of the
stack may be out of date when it swaps the head. The tag tells, as long as it has not gone round
during the call. An access takes a slot from the stack, puts one back or leaves the stack alone, and
changes no other slot.
-/

namespace MemoryKit.SlotPool

variable {α : Type} {p p' : SlotPool α} {free free' : List UInt32} {i : UInt32}
  {head : TaggedIndex} {since moves moves' : Nat} {a : Access}

theorem Stacked.lt_of_ne_null (h : p.Stacked head.index free) (hn : head.isNull = false) :
    ∃ rest, free = head.index :: rest ∧ head.index.toNat < p.capacity := by
  cases free with
  | nil =>
    have hnull : head.isNull = true := beq_iff_eq.mpr h
    rw [hn] at hnull
    cases hnull
  | cons j rest =>
    obtain ⟨hj, s, hs, -⟩ := h
    exact ⟨rest, by rw [hj], hj ▸ lt_of_slot? hs⟩

theorem isNull_of_slot? {s : Slot α} (hcap : p.capacity ≤ maxPoolCapacity)
    (hs : p.slot? head.index = some s) : head.isNull = false := by
  rw [TaggedIndex.isNull, beq_eq_false_iff_ne]
  intro hnull
  rw [hnull, slot?_nullIndex hcap] at hs
  cases hs

/-- The slot that is on its way from the stack to its owner, or back, while a call is made. -/
def Access.held : Access → List UInt32
  | .markTaken i | .countTaken i | .markReturned i | .loadHeadToReturn i
  | .storeNext i _ | .swapHeadToReturn i _ => [i]
  | .loadHeadToTake | .loadNext _ | .swapHeadToTake _ _ | .countReturned => []

def Access.touched : Access → List UInt32
  | .loadNext head => [head.index]
  | .markTaken i | .markReturned i | .storeNext i _ => [i]
  | _ => []

def Next.held : Next → List UInt32
  | .access a => a.held
  | .finished (.taken i) => [i]
  | .finished _ => []

/-- The slots that a thread owns, and the one that is on its way. -/
def Worker.holds (worker : Worker) : List UInt32 :=
  worker.pending.elim [] Access.held ++ worker.owned

theorem holds_proceed (worker : Worker) (next : Next) :
    (Crew.Worker.proceed worker next).holds = next.held ++ worker.owned := by
  cases next with
  | access a => rfl
  | finished r => cases r <;> rfl

/--
The head was read during a call. If it has not moved since, it is what was read, and what was read
along with it still holds.
-/
def Recalls (p : SlotPool α) (since moves : Nat) (head : TaggedIndex) (fact : Prop) : Prop :=
  ∃ moment, since ≤ moment ∧ moment ≤ moves ∧ head.tag = .ofNat moment ∧
    (moment = moves → p.head = head ∧ fact)

def IsTaken (p : SlotPool α) (i : UInt32) : Prop := ∃ s, p.slot? i = some s ∧ s.inUse = true

/-- What a thread relies on when it makes an access. -/
def Access.IsSound (p : SlotPool α) (since moves : Nat) : Access → Prop
  | .loadNext head => head.index.toNat < p.capacity ∧ p.Recalls since moves head True
  | .swapHeadToTake head next => head.index.toNat < p.capacity ∧
    p.Recalls since moves head (∃ s, p.slot? head.index = some s ∧ s.next = next)
  | .countTaken i | .markReturned i => p.IsTaken i
  | .swapHeadToReturn i head => ∃ s, p.slot? i = some s ∧ s.next = head.index
  | _ => True

def Next.IsSound (p : SlotPool α) (since moves : Nat) : Next → Prop
  | .access a => a.IsSound p since moves
  | .finished (.taken i) => p.IsTaken i
  | .finished _ => True

structure Worker.IsSound (p : SlotPool α) (moves : Nat) (worker : Worker) : Prop where
  since_le : worker.since ≤ moves
  pending : ∀ a, worker.pending = some a → a.IsSound p worker.since moves
  owned : ∀ i ∈ worker.owned, p.IsTaken i

theorem recalls_head (hsince : since ≤ moves) (htag : p.head.tag = .ofNat moves) {fact : Prop}
    (hf : fact) : p.Recalls since moves p.head fact :=
  ⟨moves, hsince, Nat.le_refl _, htag, fun _ => ⟨rfl, hf⟩⟩

/-- Fewer moves than there are tags cannot bring a tag back. -/
theorem Recalls.fact_of_head_eq {fact : Prop} (h : p.Recalls since moves head fact)
    (htag : p.head.tag = .ofNat moves) (hbrisk : moves < since + UInt32.size) (he : p.head = head) :
    fact := by
  obtain ⟨moment, hlo, hhi, hmoment, hfact⟩ := h
  have hmod : (UInt32.ofNat moment).toNat = (UInt32.ofNat moves).toNat := by
    rw [← hmoment, ← htag, he]
  rw [UInt32.toNat_ofNat', UInt32.toNat_ofNat'] at hmod
  rw [UInt32.size] at hbrisk
  exact (hfact (by omega)).2

theorem Recalls.mono {fact fact' : Prop} (h : p.Recalls since moves head fact)
    (hle : moves ≤ moves')
    (hkept : moves' = moves → p'.head = p.head ∧ (fact → p.head = head → fact')) :
    p'.Recalls since moves' head fact' := by
  obtain ⟨moment, hlo, hhi, htag, hfact⟩ := h
  refine ⟨moment, hlo, by omega, htag, ?_⟩
  rintro rfl
  have he : moment = moves := by omega
  obtain ⟨hhead, hf⟩ := hfact he
  obtain ⟨hhead', hf'⟩ := hkept he
  exact ⟨hhead'.trans hhead, hf' hf hhead⟩

theorem swapHead_cases (p : SlotPool α) (expected new : TaggedIndex) :
    p.head = expected ∧ p.swapHead expected new = (.ok expected, { p with head := new }) ∨
      p.head ≠ expected ∧ p.swapHead expected new = (.error p.head, p) := by
  unfold swapHead TaggedIndex.Cell.compareExchange
  by_cases he : p.head = expected
  · left
    simp [he]
  · right
    simp [he]

/-- No slot changes but those of a list, and the tag of the head counts its moves. -/
structure Frames (p p' : SlotPool α) (l : List UInt32) : Prop where
  capacity : p'.capacity = p.capacity
  slot : ∀ j, j ∉ l → p'.slot? j = p.slot? j
  head : p'.head = p.head ∨ p'.head.tag = p.head.tag + 1

theorem Frames.refl (p : SlotPool α) (l : List UInt32) : p.Frames p l :=
  ⟨rfl, fun _ _ => rfl, .inl rfl⟩

theorem frames_setSlot (p : SlotPool α) (i : UInt32) (s : Slot α) :
    p.Frames (p.setSlot i s) [i] := by
  refine ⟨capacity_setSlot .., ?_, .inl rfl⟩
  intro j hj
  rw [slot?_setSlot, if_neg (Ne.symm (List.ne_of_not_mem_cons hj))]

theorem frames_swapHead (p : SlotPool α) (head : TaggedIndex) (i : UInt32) (l : List UInt32) :
    p.Frames (p.swapHead head (head.withIndex i)).2 l := by
  obtain ⟨rfl, hs⟩ | ⟨-, hs⟩ := p.swapHead_cases head (head.withIndex i)
  · rw [hs]
    exact ⟨rfl, fun _ _ => rfl, .inr rfl⟩
  · rw [hs]
    exact .refl p l

theorem frames_perform (a : Access) (p : SlotPool α) : p.Frames (a.perform p).2 a.held := by
  cases a with
  | loadHeadToTake => exact .refl p _
  | loadNext head =>
    simp only [Access.perform]
    split <;> exact .refl p _
  | swapHeadToTake head next =>
    have hf := p.frames_swapHead head next []
    simp only [Access.perform]
    split
    all_goals
      next hs =>
        rw [hs] at hf
        exact hf
  | markTaken i =>
    simp only [Access.perform]
    split
    · exact p.frames_setSlot i _
    · exact .refl p _
  | countTaken i => exact ⟨rfl, fun _ _ => rfl, .inl rfl⟩
  | markReturned i =>
    simp only [Access.perform]
    split
    · exact .refl p _
    · exact p.frames_setSlot i _
  | loadHeadToReturn i => exact .refl p _
  | storeNext i head =>
    simp only [Access.perform]
    split
    · exact p.frames_setSlot i _
    · exact .refl p _
  | swapHeadToReturn i head =>
    have hf := p.frames_swapHead head i [i]
    simp only [Access.perform]
    split
    all_goals
      next hs =>
        rw [hs] at hf
        exact hf
  | countReturned => exact ⟨rfl, fun _ _ => rfl, .inl rfl⟩

theorem IsTaken.setSlot {s : Slot α} (h : ∃ t, p.slot? i = some t) (hs : s.inUse = true) :
    (p.setSlot i s).IsTaken i := by
  obtain ⟨t, ht⟩ := h
  exact ⟨s, by rw [slot?_setSlot, if_pos rfl, ht]; rfl, hs⟩

theorem Stacked.setSlot {j : UInt32} (h : p.Stacked j free) (hi : i ∉ free) (s : Slot α) :
    (p.setSlot i s).Stacked j free := by
  apply h.congr
  intro k hk
  rw [slot?_setSlot, if_neg]
  rintro rfl
  exact hi hk

section Perform

variable (hs : p.Stacked p.head.index free) (hsince : since ≤ moves)
  (htag : p.head.tag = .ofNat moves)

include hs hsince htag

theorem isSound_afterHead : (Access.afterHead p.head).IsSound p since moves ∧
    (Access.afterHead p.head).held = [] := by
  unfold Access.afterHead
  cases hn : p.head.isNull with
  | true => exact ⟨trivial, rfl⟩
  | false =>
    obtain ⟨-, -, hlt⟩ := hs.lt_of_ne_null hn
    exact ⟨⟨hlt, recalls_head hsince htag trivial⟩, rfl⟩

theorem swapHeadToTake_spec {next : UInt32} (hbrisk : moves < since + UInt32.size)
    (hcap : p.capacity ≤ maxPoolCapacity)
    (h : (Access.swapHeadToTake head next).IsSound p since moves)
    (hmoves : ((Access.swapHeadToTake head next).perform p).2.head = p.head → moves' = moves) :
    let r := (Access.swapHeadToTake head next).perform p
    ∃ free', r.2.Stacked r.2.head.index free' ∧ (r.1.held ++ free').Perm free ∧
      r.1.IsSound r.2 since moves' := by
  obtain ⟨hlt, hrecalls⟩ := h
  simp only [Access.perform] at hmoves ⊢
  obtain ⟨he, hswap⟩ | ⟨-, hswap⟩ := p.swapHead_cases head (head.withIndex next)
  · obtain ⟨s, hslot, rfl⟩ := hrecalls.fact_of_head_eq htag hbrisk he
    subst he
    obtain ⟨rest, rfl, -⟩ := hs.lt_of_ne_null (isNull_of_slot? hcap hslot)
    obtain ⟨-, s', hslot', hrest⟩ := hs
    cases hslot.symm.trans hslot'
    rw [hswap]
    exact ⟨rest, hrest.congr fun _ _ => rfl, .refl _, trivial⟩
  · rw [hswap] at hmoves ⊢
    obtain ⟨hsound, hheld⟩ := isSound_afterHead hs hsince htag
    rw [hmoves rfl]
    exact ⟨free, hs, by rw [hheld]; exact .refl _, hsound⟩

/-- Every access leaves a stack, and the slots that left it or came to it are on their way. -/
theorem perform_spec (hbrisk : moves < since + UInt32.size) (hcap : p.capacity ≤ maxPoolCapacity)
    (hlt : ∀ i ∈ a.held, i.toNat < p.capacity) (hout : ∀ i ∈ a.held, i ∉ free)
    (h : a.IsSound p since moves) (hmoves : (a.perform p).2.head = p.head → moves' = moves) :
    ∃ free', (a.perform p).2.Stacked (a.perform p).2.head.index free' ∧
      ((a.perform p).1.held ++ free').Perm (a.held ++ free) ∧
      (a.perform p).1.IsSound (a.perform p).2 since moves' := by
  cases a with
  | loadHeadToTake =>
    obtain ⟨hsound, hheld⟩ := isSound_afterHead hs hsince htag
    rw [hmoves rfl]
    refine ⟨free, hs, ?_, hsound⟩
    simp only [Access.perform, hheld]
    rfl
  | loadNext head =>
    obtain ⟨hin, hrecalls⟩ := h
    obtain ⟨s, hslot⟩ := exists_slot? hin
    have he : moves' = moves := hmoves (by simp only [Access.perform, hslot])
    simp only [Access.perform, hslot]
    refine ⟨free, hs, .refl _, hin, ?_⟩
    rw [he]
    exact hrecalls.mono (Nat.le_refl _) fun _ => ⟨rfl, fun _ _ => ⟨s, hslot, rfl⟩⟩
  | swapHeadToTake head next =>
    exact swapHeadToTake_spec hs hsince htag hbrisk hcap h hmoves
  | markTaken i =>
    have hi := exists_slot? (hlt i (List.mem_singleton_self i))
    obtain ⟨s, hslot⟩ := hi
    simp only [Access.perform, hslot]
    exact ⟨free, hs.setSlot (hout i (List.mem_singleton_self i)) _, .refl _,
      .setSlot ⟨s, hslot⟩ rfl⟩
  | countTaken i => exact ⟨free, hs.congr fun _ _ => rfl, .refl _, h⟩
  | markReturned i =>
    obtain ⟨s, hslot, hused⟩ := h
    simp only [Access.perform, hslot, hused, if_true]
    exact ⟨free, hs.setSlot (hout i (List.mem_singleton_self i)) _, .refl _, trivial⟩
  | loadHeadToReturn i => exact ⟨free, hs, .refl _, trivial⟩
  | storeNext i head =>
    obtain ⟨s, hslot⟩ := exists_slot? (hlt i (List.mem_singleton_self i))
    simp only [Access.perform, hslot]
    refine ⟨free, hs.setSlot (hout i (List.mem_singleton_self i)) _, .refl _,
      { s with next := head.index }, ?_, rfl⟩
    rw [slot?_setSlot, if_pos rfl, hslot]
    rfl
  | swapHeadToReturn i head =>
    obtain ⟨s, hslot, hnext⟩ := h
    simp only [Access.perform]
    obtain ⟨rfl, hswap⟩ | ⟨-, hswap⟩ := p.swapHead_cases head (head.withIndex i)
    · rw [hswap]
      refine ⟨i :: free, ⟨rfl, s, hslot, ?_⟩, .refl _, trivial⟩
      rw [hnext]
      exact hs.congr fun _ _ => rfl
    · rw [hswap]
      exact ⟨free, hs, .refl _, trivial⟩
  | countReturned => exact ⟨free, hs.congr fun _ _ => rfl, .refl _, trivial⟩

end Perform

theorem Access.IsSound.ne_rejected (h : a.IsSound p since moves) (e : PoolError) :
    (a.perform p).1 ≠ .finished (.rejected e) := by
  have hafter : ∀ head, Access.afterHead head ≠ .finished (.rejected e) := by
    intro head
    unfold Access.afterHead
    split <;> nofun
  cases a with
  | loadHeadToTake => exact hafter p.head
  | loadNext head =>
    simp only [Access.perform]
    split <;> nofun
  | swapHeadToTake head next =>
    simp only [Access.perform]
    split
    · nofun
    · exact hafter _
  | markTaken i =>
    simp only [Access.perform]
    split <;> nofun
  | markReturned i =>
    obtain ⟨s, hslot, hused⟩ := h
    simp only [Access.perform, hslot, hused, if_true]
    nofun
  | storeNext i head =>
    simp only [Access.perform]
    split <;> nofun
  | swapHeadToReturn i head =>
    simp only [Access.perform]
    split <;> nofun
  | countTaken | loadHeadToReturn | countReturned => nofun

theorem Access.IsSound.lt_of_touched (h : a.IsSound p since moves)
    (hheld : ∀ i ∈ a.held, i.toNat < p.capacity) : ∀ i ∈ a.touched, i.toNat < p.capacity := by
  cases a with
  | loadNext head =>
    intro i hi
    rw [List.mem_singleton.mp hi]
    exact h.1
  | markTaken | markReturned | storeNext => exact hheld
  | loadHeadToTake | swapHeadToTake | countTaken | loadHeadToReturn | swapHeadToReturn
  | countReturned => nofun

/-- An access of another thread takes nothing away from what a thread relies on. -/
theorem Access.IsSound.frame {l : List UInt32} (h : a.IsSound p since moves)
    (hf : p.Frames p' l) (hheld : ∀ i ∈ a.held, i ∉ l) (hhead : p.head.index ∉ l)
    (hle : moves ≤ moves') (hmoves : moves' = moves → p'.head = p.head) :
    a.IsSound p' since moves' := by
  have htaken : ∀ i, i ∉ l → p.IsTaken i → p'.IsTaken i := by
    rintro i hi ⟨s, hslot, hused⟩
    exact ⟨s, (hf.slot i hi).trans hslot, hused⟩
  cases a with
  | loadNext head =>
    obtain ⟨hin, hrecalls⟩ := h
    exact ⟨hf.capacity ▸ hin, hrecalls.mono hle fun he => ⟨hmoves he, fun _ _ => trivial⟩⟩
  | swapHeadToTake head next =>
    obtain ⟨hin, hrecalls⟩ := h
    refine ⟨hf.capacity ▸ hin, hrecalls.mono hle fun he => ⟨hmoves he, ?_⟩⟩
    rintro ⟨s, hslot, hnext⟩ rfl
    exact ⟨s, (hf.slot _ hhead).trans hslot, hnext⟩
  | countTaken i => exact htaken i (hheld i (List.mem_singleton_self i)) h
  | markReturned i => exact htaken i (hheld i (List.mem_singleton_self i)) h
  | swapHeadToReturn i head =>
    obtain ⟨s, hslot, hnext⟩ := h
    exact ⟨s, (hf.slot i (hheld i (List.mem_singleton_self i))).trans hslot, hnext⟩
  | loadHeadToTake | markTaken | loadHeadToReturn | storeNext | countReturned => trivial

theorem Worker.IsSound.frame {l : List UInt32} {worker : Worker} (h : worker.IsSound p moves)
    (hf : p.Frames p' l) (hheld : ∀ i ∈ worker.holds, i ∉ l) (hhead : p.head.index ∉ l)
    (hle : moves ≤ moves') (hmoves : moves' = moves → p'.head = p.head) :
    worker.IsSound p' moves' where
  since_le := Nat.le_trans h.since_le hle
  pending a ha := by
    apply (h.pending a ha).frame hf _ hhead hle hmoves
    intro i hi
    apply hheld i
    rw [Worker.holds, ha]
    exact List.mem_append_left _ hi
  owned i hi := by
    obtain ⟨s, hslot, hused⟩ := h.owned i hi
    exact ⟨s, (hf.slot i (hheld i (List.mem_append_right _ hi))).trans hslot, hused⟩

theorem Worker.IsSound.proceed {l : List UInt32} {worker : Worker} {next : Next}
    (h : worker.IsSound p moves) (hf : p.Frames p' l) (hout : ∀ i ∈ worker.owned, i ∉ l)
    (hle : moves ≤ moves') (hnext : next.IsSound p' worker.since moves') :
    Worker.IsSound p' moves' (Crew.Worker.proceed worker next) := by
  have howned : ∀ i ∈ worker.owned, p'.IsTaken i := by
    intro i hi
    obtain ⟨s, hslot, hused⟩ := h.owned i hi
    exact ⟨s, (hf.slot i (hout i hi)).trans hslot, hused⟩
  have hsince := Nat.le_trans h.since_le hle
  cases next with
  | access a =>
    refine ⟨hsince, ?_, howned⟩
    rintro b ⟨⟩
    exact hnext
  | finished r =>
    cases r with
    | taken i =>
      refine ⟨hsince, nofun, ?_⟩
      intro j hj
      rcases List.mem_cons.mp hj with rfl | hj
      · exact hnext
      · exact howned j hj
    | exhausted | returned | rejected => exact ⟨hsince, nofun, howned⟩

end MemoryKit.SlotPool
