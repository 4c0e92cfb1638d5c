import MemoryKit.Proofs.SlotPool.Accesses

/-! # Slots and the threads that hold them

Threads that share a pool take and return slots, one access after the other and in any order. Every
slot is on the stack or held by one thread, so that no two threads own a slot and none is returned
twice.
-/

namespace MemoryKit.SlotPool

variable {α : Type} {p : SlotPool α} {free free' : List UInt32} {i : UInt32} {a : Access}

namespace Crew

variable {c c' : Crew α} {w count : Nat} {worker : Worker}

/-- Every slot is on the stack or held by one thread, and threads rely on what is so. -/
structure IsOrderly (c : Crew α) (free : List UInt32) : Prop where
  capacity_le : c.pool.capacity ≤ maxPoolCapacity
  stacked : c.pool.Stacked c.pool.head.index free
  tag : c.pool.head.tag = .ofNat c.moves
  shared : (free ++ c.workers.flatMap Worker.holds).Perm
    ((List.range c.pool.capacity).map .ofNat)
  sound : ∀ worker ∈ c.workers, worker.IsSound c.pool c.moves

theorem exists_others {workers : List Worker} (h : workers[w]? = some worker) :
    ∃ others, workers.Perm (worker :: others) ∧
      ∀ f, (workers.modify w f).Perm (f worker :: others) := by
  obtain ⟨hlt, rfl⟩ := List.getElem?_eq_some_iff.mp h
  refine ⟨workers.take w ++ workers.drop (w + 1), ?_, ?_⟩
  · conv_lhs => rw [← List.take_append_drop w workers, List.drop_eq_getElem_cons hlt]
    exact List.perm_middle
  · intro f
    rw [List.modify_eq_take_cons_drop hlt]
    exact List.perm_middle

theorem holds_of_pending_eq_none (h : worker.pending = none) : worker.holds = worker.owned := by
  rw [Worker.holds, h]
  rfl

theorem holds_of_pending (h : worker.pending = some a) :
    worker.holds = a.held ++ worker.owned := by
  rw [Worker.holds, h]
  rfl

section Update

variable (h : c.IsOrderly free) (hw : c.workers[w]? = some worker)

include h hw

theorem IsOrderly.exists_rest : ∃ others,
    (∀ f, (c.workers.modify w f).Perm (f worker :: others)) ∧
      ((worker.holds ++ free) ++ others.flatMap Worker.holds).Perm
        ((List.range c.pool.capacity).map .ofNat) ∧
      ∀ other ∈ others, other.IsSound c.pool c.moves := by
  obtain ⟨others, hperm, hmodify⟩ := exists_others hw
  refine ⟨others, hmodify, ?_, ?_⟩
  · have hall := ((hperm.flatMap_right Worker.holds).symm.append_left free).trans h.shared
    rw [List.flatMap_cons, ← List.append_assoc] at hall
    exact (List.perm_append_comm.append_right _).trans hall
  · intro other ho
    exact h.sound other (hperm.mem_iff.mpr (List.mem_cons_of_mem _ ho))

/--
A step of a thread leaves order behind if the thread holds from then on what it takes from the
stack, and if it changes nothing but what it holds.
-/
theorem IsOrderly.update (c' : Crew α) {f : Worker → Worker} {l : List UInt32}
    (hworkers : c'.workers = c.workers.modify w f) (hf : c.pool.Frames c'.pool l)
    (hl : ∀ i ∈ l, i ∈ worker.holds) (hle : c.moves ≤ c'.moves)
    (hmoves : c'.moves = c.moves → c'.pool.head = c.pool.head)
    (htag : c'.pool.head.tag = .ofNat c'.moves)
    (hstacked : c'.pool.Stacked c'.pool.head.index free')
    (hperm : ((f worker).holds ++ free').Perm (worker.holds ++ free))
    (hsound : (f worker).IsSound c'.pool c'.moves) : c'.IsOrderly free' := by
  obtain ⟨others, hmodify, hall, hothers⟩ := h.exists_rest hw
  have hnd : ((worker.holds ++ free) ++ others.flatMap Worker.holds).Nodup :=
    hall.nodup_iff.mpr (nodup_indices h.capacity_le)
  have hhead : c.pool.head.index ∉ l := by
    intro hi
    have hmem : c.pool.head.index ∈ (worker.holds ++ free) ++ others.flatMap Worker.holds :=
      List.mem_append_left _ (List.mem_append_left _ (hl _ hi))
    have hlt := (mem_indices h.capacity_le).mp (hall.mem_iff.mp hmem)
    obtain ⟨s, hs⟩ := exists_slot? hlt
    obtain ⟨rest, rfl, -⟩ := h.stacked.lt_of_ne_null (isNull_of_slot? h.capacity_le hs)
    exact List.disjoint_of_nodup_append hnd.of_append_left (hl _ hi) List.mem_cons_self
  refine ⟨hf.capacity ▸ h.capacity_le, hstacked, htag, ?_, ?_⟩
  · have hflat := (hworkers ▸ hmodify f).flatMap_right Worker.holds
    rw [List.flatMap_cons] at hflat
    have hstart : (free' ++ c'.workers.flatMap Worker.holds).Perm
        (((f worker).holds ++ free') ++ others.flatMap Worker.holds) := by
      apply (hflat.append_left free').trans
      rw [← List.append_assoc]
      exact List.perm_append_comm.append_right _
    rw [hf.capacity]
    exact (hstart.trans (hperm.append_right _)).trans hall
  · intro other ho
    rcases List.mem_cons.mp ((hworkers ▸ hmodify f).mem_iff.mp ho) with rfl | ho
    · exact hsound
    · apply (hothers other ho).frame hf _ hhead hle hmoves
      intro i hi hil
      apply List.disjoint_of_nodup_append hnd (List.mem_append_left _ (hl i hil))
      exact List.mem_flatMap.mpr ⟨other, ho, hi⟩

end Update

theorem IsOrderly.beginTake (h : c.IsOrderly free) (hw : c.workers[w]? = some worker)
    (hidle : worker.pending = none) : (c.beginTake w).IsOrderly free := by
  apply h.update hw (c.beginTake w) rfl (.refl _ []) nofun (Nat.le_refl _) (fun _ => rfl) h.tag
    h.stacked
  · rw [holds_of_pending_eq_none hidle]
    rfl
  · have hs := h.sound worker (List.mem_of_getElem? hw)
    refine ⟨Nat.le_refl _, ?_, hs.owned⟩
    rintro a ⟨⟩
    trivial

theorem IsOrderly.beginReturn (h : c.IsOrderly free) (hw : c.workers[w]? = some worker)
    (hidle : worker.pending = none) (hi : i ∈ worker.owned) :
    (c.beginReturn w i).IsOrderly free := by
  have hs := h.sound worker (List.mem_of_getElem? hw)
  apply h.update hw (c.beginReturn w i) rfl (.refl _ []) nofun (Nat.le_refl _) (fun _ => rfl)
    h.tag h.stacked
  · rw [holds_of_pending_eq_none hidle]
    exact (List.perm_cons_erase hi).symm.append_right _
  · refine ⟨Nat.le_refl _, ?_, ?_⟩
    · rintro a ⟨⟩
      exact hs.owned i hi
    · intro j hj
      exact hs.owned j (List.mem_of_mem_erase hj)

theorem advance_eq (hw : c.workers[w]? = some worker) (ha : worker.pending = some a) :
    c.advance w =
      { pool := (a.perform c.pool).2
        workers := c.workers.modify w (Worker.proceed · (a.perform c.pool).1)
        moves := if (a.perform c.pool).2.head = c.pool.head then c.moves else c.moves + 1 } := by
  obtain ⟨pending, owned, since⟩ := worker
  obtain rfl : pending = some a := ha
  simp only [advance, hw]

theorem IsOrderly.apart (h : c.IsOrderly free) (hw : c.workers[w]? = some worker) :
    (worker.holds ++ free).Nodup ∧ ∀ i ∈ worker.holds ++ free, i.toNat < c.pool.capacity := by
  obtain ⟨others, -, hall, -⟩ := h.exists_rest hw
  constructor
  · exact (hall.nodup_iff.mpr (nodup_indices h.capacity_le)).of_append_left
  · intro i hi
    exact (mem_indices h.capacity_le).mp (hall.mem_iff.mp (List.mem_append_left _ hi))

theorem IsOrderly.advance (h : c.IsOrderly free) (hw : c.workers[w]? = some worker)
    (ha : worker.pending = some a) (hbrisk : c.moves < worker.since + UInt32.size) :
    ∃ free', (c.advance w).IsOrderly free' := by
  obtain ⟨hnd, hlt⟩ := h.apart hw
  rw [holds_of_pending ha] at hnd hlt
  have hheld : ∀ i ∈ a.held, i ∈ a.held ++ worker.owned := fun i hi => List.mem_append_left _ hi
  have hs := h.sound worker (List.mem_of_getElem? hw)
  have hf := frames_perform a c.pool
  rw [advance_eq hw ha]
  set moves' := if (a.perform c.pool).2.head = c.pool.head then c.moves else c.moves + 1
    with hmoves'
  have hsame : (a.perform c.pool).2.head = c.pool.head → moves' = c.moves := fun he => if_pos he
  have hle : c.moves ≤ moves' := by
    rw [hmoves']
    split <;> omega
  obtain ⟨free', hstacked, hperm, hsound⟩ := perform_spec h.stacked hs.since_le h.tag hbrisk
    h.capacity_le (fun i hi => hlt i (List.mem_append_left _ (hheld i hi)))
    (fun i hi => List.disjoint_of_nodup_append hnd (hheld i hi)) (hs.pending a ha) hsame
  refine ⟨free', h.update hw _ rfl hf ?_ hle ?_ ?_ hstacked ?_ ?_⟩
  · rw [holds_of_pending ha]
    exact hheld
  · intro he
    by_contra hne
    have hmoved : moves' = c.moves + 1 := if_neg hne
    change moves' = c.moves at he
    omega
  · by_cases he : (a.perform c.pool).2.head = c.pool.head
    · rw [hsame he, he, h.tag]
    · rw [hf.head.resolve_left he, h.tag, hmoves', if_neg he, UInt32.ofNat_add]
      rfl
  · rw [holds_proceed, holds_of_pending ha]
    have hswap : ∀ x y z : List UInt32, ((x ++ y) ++ z).Perm ((x ++ z) ++ y) := by
      intro x y z
      rw [List.append_assoc, List.append_assoc]
      exact List.perm_append_comm.append_left x
    exact ((hswap _ _ _).trans (hperm.append_right _)).trans (hswap _ _ _)
  · apply hs.proceed hf _ hle hsound
    intro i hi hil
    exact List.disjoint_of_nodup_append hnd.of_append_left hil hi

/-- During no call of a thread has the head moved so often that its tag has gone round. -/
def IsBrisk (c : Crew α) : Prop :=
  ∀ worker ∈ c.workers, worker.pending.isSome → c.moves < worker.since + UInt32.size

instance (c : Crew α) : Decidable c.IsBrisk :=
  inferInstanceAs (Decidable (∀ worker ∈ c.workers, _ → _))

/-- What threads that are at rest at first can come to, in any order of their accesses. -/
inductive Reachable (p : SlotPool α) (count : Nat) : Crew α → Prop where
  | atRest : Reachable p count (.atRest p count)
  | step {c c' : Crew α} : Reachable p count c → c.IsBrisk → Step c c' → Reachable p count c'

theorem IsOrderly.step (h : c.IsOrderly free) (hbrisk : c.IsBrisk) (hstep : Step c c') :
    ∃ free', c'.IsOrderly free' := by
  cases hstep with
  | beginTake w worker hw hidle => exact ⟨free, h.beginTake hw hidle⟩
  | beginReturn w worker i hw hidle hi => exact ⟨free, h.beginReturn hw hidle hi⟩
  | advance w worker hw hpending =>
    obtain ⟨a, ha⟩ := Option.isSome_iff_exists.mp hpending
    exact h.advance hw ha (hbrisk worker (List.mem_of_getElem? hw) hpending)

theorem Step.capacity_eq (h : Step c c') : c'.pool.capacity = c.pool.capacity := by
  cases h with
  | beginTake | beginReturn => rfl
  | advance w worker hw hpending =>
    obtain ⟨a, ha⟩ := Option.isSome_iff_exists.mp hpending
    rw [advance_eq hw ha]
    exact (frames_perform a c.pool).capacity

theorem isOrderly_atRest {capacity : Nat} {init : UInt32 → α} (hp : create capacity init = .ok p)
    (count : Nat) : (atRest p count).IsOrderly ((List.range capacity).map .ofNat) := by
  obtain ⟨hle, hcapacity⟩ := le_of_create hp
  have hidle : ∀ worker ∈ (atRest p count).workers, worker = ⟨none, [], 0⟩ := fun _ =>
    List.eq_of_mem_replicate
  have hnone : (atRest p count).workers.flatMap Worker.holds = [] := by
    rw [List.flatMap_eq_nil_iff]
    intro worker hw
    rw [hidle worker hw]
    rfl
  refine ⟨hcapacity ▸ hle, (hasStack_create hp).stacked, ?_, ?_, ?_⟩
  · unfold create at hp
    split at hp <;> cases hp
    rfl
  · rw [hnone, List.append_nil]
    change List.Perm _ ((List.range p.capacity).map _)
    rw [hcapacity]
  · intro worker hw
    rw [hidle worker hw]
    exact ⟨Nat.le_refl _, nofun, nofun⟩

theorem Reachable.exists_isOrderly {capacity : Nat} {init : UInt32 → α}
    (hp : create capacity init = .ok p) (h : Reachable p count c) :
    c.pool.capacity = capacity ∧ ∃ free, c.IsOrderly free := by
  induction h with
  | atRest => exact ⟨(le_of_create hp).2, _, isOrderly_atRest hp count⟩
  | step _ hbrisk hstep ih =>
    obtain ⟨hcapacity, free, ho⟩ := ih
    exact ⟨hstep.capacity_eq.trans hcapacity, ho.step hbrisk hstep⟩

theorem takeTurn_cases (c : Crew α) (w rounds : Nat) :
    (c.takeTurn w rounds).2 = c ∨ Step c (c.takeTurn w rounds).2 := by
  unfold takeTurn
  cases hw : c.workers[w]? with
  | none => exact .inl rfl
  | some worker =>
    obtain ⟨pending, owned, since⟩ := worker
    cases pending with
    | some a => exact .inr (.advance c w _ hw rfl)
    | none =>
      cases owned with
      | cons i owned => exact .inr (.beginReturn c w _ i hw rfl List.mem_cons_self)
      | nil =>
        dsimp only
        split
        · exact .inl rfl
        · exact .inr (.beginTake c w _ hw rfl)

theorem Step.moves_le (h : Step c c') : c'.moves ≤ c.moves + 1 := by
  cases h with
  | beginTake | beginReturn => exact Nat.le_succ _
  | advance w worker hw hpending =>
    obtain ⟨a, ha⟩ := Option.isSome_iff_exists.mp hpending
    rw [advance_eq hw ha]
    dsimp only
    split <;> omega

/-- The threads of a list take a turn each; one that is between calls begins another one. -/
def play (c : Crew α) (order : List Nat) : Crew α :=
  order.foldl (fun c w => (c.takeTurn w 1).2) c

theorem Reachable.play {order : List Nat} (h : Reachable p count c)
    (hm : c.moves + order.length < UInt32.size) : Reachable p count (c.play order) := by
  induction order generalizing c with
  | nil => exact h
  | cons w order ih =>
    rw [List.length_cons] at hm
    rcases c.takeTurn_cases w 1 with he | hstep
    · apply ih (c := (c.takeTurn w 1).2)
      · exact he.symm ▸ h
      · rw [he]
        omega
    · have hle := hstep.moves_le
      apply ih (h.step _ hstep)
      · omega
      · intro worker _ _
        omega

/--
Threads take and return the slots of a new pool, each one returning only what it owns, in any order
of their accesses in which no tag goes round during a call. At every moment the links lead from the
head through different slots of the pool to the end, no two threads hold one slot, and none holds
one that is on the stack. No access goes to a slot that does not exist, and no return is rejected.
-/
theorem Reachable.slots_held_once {capacity : Nat} {init : UInt32 → α}
    (hp : create capacity init = .ok p) (h : Reachable p count c) :
    ∃ free, c.pool.Stacked c.pool.head.index free ∧ free.Nodup ∧
      (∀ i ∈ free, i.toNat < capacity) ∧
      c.workers.Pairwise (fun v w => ∀ i ∈ v.holds, i ∉ w.holds) ∧
      ∀ worker ∈ c.workers, worker.holds.Nodup ∧
        (∀ i ∈ worker.holds, i ∉ free ∧ i.toNat < capacity) ∧
        ∀ a, worker.pending = some a → (∀ i ∈ a.touched, i.toNat < capacity) ∧
          ∀ e, (a.perform c.pool).1 ≠ .finished (.rejected e) := by
  obtain ⟨rfl, free, ho⟩ := h.exists_isOrderly hp
  have hnd : (free ++ c.workers.flatMap Worker.holds).Nodup :=
    ho.shared.nodup_iff.mpr (nodup_indices ho.capacity_le)
  have hlt : ∀ i ∈ free ++ c.workers.flatMap Worker.holds, i.toNat < c.pool.capacity := by
    intro i hi
    exact (mem_indices ho.capacity_le).mp (ho.shared.mem_iff.mp hi)
  obtain ⟨hnodup, hpairwise⟩ := List.nodup_flatMap.mp hnd.of_append_right
  refine ⟨free, ho.stacked, hnd.of_append_left, ?_, ?_, ?_⟩
  · exact fun i hi => hlt i (List.mem_append_left _ hi)
  · exact hpairwise.imp fun hdisjoint i hi hi' => hdisjoint hi hi'
  · intro worker hw
    have hmem : ∀ i ∈ worker.holds, i ∈ c.workers.flatMap Worker.holds := by
      intro i hi
      exact List.mem_flatMap.mpr ⟨worker, hw, hi⟩
    refine ⟨hnodup worker hw, ?_, ?_⟩
    · intro i hi
      constructor
      · intro hfree
        exact List.disjoint_of_nodup_append hnd hfree (hmem i hi)
      · exact hlt i (List.mem_append_right _ (hmem i hi))
    · intro a ha
      have hsound := (ho.sound worker hw).pending a ha
      refine ⟨hsound.lt_of_touched ?_, hsound.ne_rejected⟩
      intro i hi
      apply hlt i (List.mem_append_right _ (hmem i _))
      rw [holds_of_pending ha]
      exact List.mem_append_left _ hi

def pairPool : SlotPool Unit := ⟨#[⟨1, false, ()⟩, ⟨nullIndex, false, ()⟩], ⟨0, 0⟩, 2⟩

/--
The first thread finds slot `0` with slot `1` below it and sleeps. The second one takes slot `0`,
the third one takes slot `1`, and slot `0` comes back. The first thread wakes up.
-/
def sleeperCrew : Crew Unit :=
  (atRest pairPool 3).play
    ([0, 0, 0] ++ .replicate 6 1 ++ .replicate 6 2 ++ .replicate 6 1 ++ [0])

theorem Reachable.slots_held_once_sleeper :
    create 2 (fun _ => ()) = .ok pairPool ∧ Reachable pairPool 3 sleeperCrew ∧
      sleeperCrew.workers =
        [⟨some (.loadNext ⟨0, 3⟩), [], 0⟩, ⟨none, [], 2⟩, ⟨none, [1], 1⟩] ∧
      ∃ free, sleeperCrew.pool.Stacked 0 free ∧ 1 ∉ free := by
  have hp : create 2 (fun _ => ()) = .ok pairPool := rfl
  have h : Reachable pairPool 3 sleeperCrew := Reachable.atRest.play (by decide)
  have hworkers : sleeperCrew.workers =
      [⟨some (.loadNext ⟨0, 3⟩), [], 0⟩, ⟨none, [], 2⟩, ⟨none, [1], 1⟩] := by decide +kernel
  have hhead : sleeperCrew.pool.head.index = 0 := by decide +kernel
  obtain ⟨free, hstacked, -, -, -, hworker⟩ := h.slots_held_once hp
  rw [hhead] at hstacked
  obtain ⟨-, hheld, -⟩ := hworker ⟨none, [1], 1⟩ (by rw [hworkers]; simp)
  exact ⟨hp, h, hworkers, free, hstacked, (hheld 1 (List.mem_singleton_self 1)).1⟩

end Crew

end MemoryKit.SlotPool
