import Mathlib.Data.List.Perm.Lattice
import MemoryKit.Proofs.BlockPool.FreeStack

/-! # Pools as stacks of free blocks

To its callers a pool is the stack of the blocks that are free, next to the places at which the
blocks start. Misuse is answered from the stack too: what lies on it is not handed out, and what is
no block of the pool is foreign.
-/

namespace MemoryKit.BlockPool

variable {p p' : BlockPool} {free : List Nat} {i : Nat} {β : Type}

/-- The places at which the blocks of a pool start, which stay the same for as long as it exists. -/
structure Grid where
  region : Region
  stride : Nat
  capacity : Nat

namespace Grid

def place (g : Grid) (i : Nat) : Nat := g.region.address (i * g.stride)

def blockAt? (g : Grid) (address : Nat) : Option Nat :=
  (List.range g.capacity).find? fun i => g.place i == address

structure Fits (g : Grid) : Prop where
  stride_pos : 0 < g.stride
  size_le : g.capacity * g.stride ≤ g.region.size

variable {g : Grid} {i j address : Nat}

theorem place_inj (h : g.Fits) (he : g.place i = g.place j) : i = j :=
  Nat.eq_of_mul_eq_mul_right h.stride_pos (Nat.add_left_cancel he)

theorem place_of_blockAt? (h : g.blockAt? address = some i) : g.place i = address := by
  have hp := List.find?_some h
  exact beq_iff_eq.mp hp

theorem blockAt?_eq_some_iff (h : g.Fits) :
    g.blockAt? address = some i ↔ i < g.capacity ∧ g.place i = address := by
  constructor
  · intro hi
    exact ⟨List.mem_range.mp (List.mem_of_find?_eq_some hi), place_of_blockAt? hi⟩
  · rintro ⟨hlt, rfl⟩
    have hfound : (g.blockAt? (g.place i)).isSome :=
      List.find?_isSome.mpr ⟨i, List.mem_range.mpr hlt, beq_iff_eq.mpr rfl⟩
    obtain ⟨j, hj⟩ := Option.isSome_iff_exists.mp hfound
    rw [hj, place_inj h (place_of_blockAt? hj)]

end Grid

def grid (p : BlockPool) : Grid := ⟨p.arena.toRegion, p.stride, p.capacity⟩

theorem indexOf?_eq_some_iff (h : p.grid.Fits) {address : Nat} :
    p.indexOf? address = some i ↔ i < p.capacity ∧ p.grid.place i = address := by
  have hpos : 0 < p.stride := h.stride_pos
  constructor
  · intro hi
    unfold indexOf? at hi
    split at hi
    · cases hi
    next offset hoffset =>
    obtain ⟨rfl, -⟩ := Region.offsetOf?_eq_some_iff.mp hoffset
    split at hi
    · next hblock =>
      cases hi
      refine ⟨hblock.2, ?_⟩
      exact congrArg (p.arena.start + ·) (Nat.div_mul_cancel (Nat.dvd_of_mod_eq_zero hblock.1))
    · cases hi
  · rintro ⟨hlt, rfl⟩
    have hsize : i * p.stride < p.arena.size :=
      Nat.lt_of_lt_of_le (Nat.mul_lt_mul_of_pos_right hlt hpos) h.size_le
    have hoffset : p.arena.offsetOf? (p.grid.place i) = some (i * p.stride) :=
      Region.offsetOf?_address hsize
    rw [indexOf?, hoffset]
    simp only [Nat.mul_mod_left, Nat.mul_div_cancel i hpos, hlt, and_self, if_true]

theorem indexOf?_eq (h : p.grid.Fits) (address : Nat) :
    p.indexOf? address = p.grid.blockAt? address := by
  ext i
  rw [indexOf?_eq_some_iff h, Grid.blockAt?_eq_some_iff h]
  rfl

structure Reads (p : BlockPool) (o : Outcome BlockPool β) (o' : Outcome (List Nat) β) : Prop where
  hasStack : o.state.HasStack o'.state
  grid_eq : o.state.grid = p.grid
  answer_eq : o.answer = o'.answer
  log_eq : o.log = o'.log

def handOut (capacity : Nat) : List Nat → Outcome (List Nat) (Option Nat)
  | [] => ⟨none, [], [.debug s!"Pool exhausted ({capacity} blocks)"]⟩
  | i :: free => .quiet (some i) free

def giveBack (capacity : Nat) (free : List Nat) (i : Nat) :
    Outcome (List Nat) (Except PoolError Unit) :=
  if capacity ≤ i then .quiet (.error (.foreignIndex i)) free
  else if i ∈ free then .quiet (.error (.doubleFree i)) free
  else .quiet (.ok ()) (i :: free)

theorem giveBack_cases (capacity : Nat) (free : List Nat) (i : Nat) :
    (capacity ≤ i ∧ giveBack capacity free i = .quiet (.error (.foreignIndex i)) free) ∨
      (i ∈ free ∧ giveBack capacity free i = .quiet (.error (.doubleFree i)) free) ∨
      (i < capacity ∧ i ∉ free ∧ giveBack capacity free i = .quiet (.ok ()) (i :: free)) := by
  unfold giveBack
  by_cases hlt : capacity ≤ i
  · exact .inl ⟨hlt, if_pos hlt⟩
  rw [if_neg hlt]
  by_cases hi : i ∈ free
  · exact .inr (.inl ⟨hi, if_pos hi⟩)
  · exact .inr (.inr ⟨Nat.not_le.mp hlt, hi, if_neg hi⟩)

theorem HasStack.reads_deallocate (h : p.HasStack free) (i : Nat) :
    p.Reads (.quiet (p.deallocate i).1 (p.deallocate i).2) (giveBack p.capacity free i) := by
  rcases giveBack_cases p.capacity free i with ⟨hi, he⟩ | ⟨hi, he⟩ | ⟨hlt, hi, he⟩
  · rw [he, deallocate_foreign hi]
    exact ⟨h, rfl, rfl, rfl⟩
  · rw [he, h.deallocate_mem hi]
    exact ⟨h, rfl, rfl, rfl⟩
  · obtain ⟨p', hp, hs, harena, hstride, hcapacity⟩ := h.deallocate_taken hlt hi
    rw [he, hp]
    refine ⟨hs, ?_, rfl, rfl⟩
    simp only [Outcome.quiet_state, grid, harena, hstride, hcapacity]

theorem HasStack.reads_allocate (h : p.HasStack free) :
    p.Reads p.allocate (handOut p.capacity free) := by
  cases free with
  | nil =>
    rw [allocate_nil h]
    exact ⟨h, rfl, rfl, rfl⟩
  | cons i free =>
    obtain ⟨p', hp, hs, harena, hstride, hcapacity⟩ := allocate_cons h
    rw [hp]
    refine ⟨hs, ?_, rfl, rfl⟩
    simp only [Outcome.quiet_state, grid, harena, hstride, hcapacity]

inductive Call where
  | allocate
  | deallocate (i : Nat)
  | deallocateAt (address : Nat)
  | reset
  | overwrite (i : Nat) (bytes : List UInt8)

namespace Call

def Answer : Call → Type
  | .allocate => Option Nat
  | .deallocate _ | .deallocateAt _ => Except PoolError Unit
  | .reset | .overwrite _ _ => Unit

def Fails : (c : Call) → c.Answer → Prop
  | .allocate, answer => answer = none
  | .deallocate _, answer | .deallocateAt _, answer => ∃ e, answer = .error e
  | .reset, _ | .overwrite _ _, _ => False

/-- The blocks that are handed out after a call, going by its answer. -/
def holding (g : Grid) (held : List Nat) : (c : Call) → c.Answer → List Nat
  | .allocate, some i => i :: held
  | .deallocate i, .ok () => held.erase i
  | .deallocateAt address, .ok () => held.filter (g.place · ≠ address)
  | .reset, _ => []
  | .allocate, none | .deallocate _, .error _ | .deallocateAt _, .error _ => held
  | .overwrite _ _, _ => held

end Call

def serve (p : BlockPool) : (c : Call) → Outcome BlockPool c.Answer
  | .allocate => p.allocate
  | .deallocate i => .quiet (p.deallocate i).1 (p.deallocate i).2
  | .deallocateAt address => .quiet (p.deallocateAt address).1 (p.deallocateAt address).2
  | .reset => .quiet () p.reset
  | .overwrite i bytes => .quiet () (p.overwrite i bytes)

def after (p : BlockPool) (calls : List Call) : BlockPool :=
  calls.foldl (fun p c => (p.serve c).state) p

def heldAfter (p : BlockPool) (held : List Nat) : List Call → List Nat
  | [] => held
  | c :: calls => (p.serve c).state.heldAfter (c.holding p.grid held (p.serve c).answer) calls

/-- A call on the stack of free blocks. -/
def serveStack (g : Grid) (free : List Nat) : (c : Call) → Outcome (List Nat) c.Answer
  | .allocate => handOut g.capacity free
  | .deallocate i => giveBack g.capacity free i
  | .deallocateAt address =>
    match g.blockAt? address with
    | none => .quiet (.error (.foreignIndex nullIndex.toNat)) free
    | some i => giveBack g.capacity free i
  | .reset => .quiet () (List.range g.capacity)
  | .overwrite _ _ => .quiet () free

def stackAfter (g : Grid) (free : List Nat) (calls : List Call) : List Nat :=
  calls.foldl (fun free c => (serveStack g free c).state) free

theorem pos_of_strideFor {blockSize alignment stride : Nat}
    (h : strideFor blockSize alignment = .ok stride) : 0 < stride := by
  unfold strideFor at h
  split at h
  · cases h
  next hsize =>
  split at h
  · cases h
  next halign =>
  split at h
  · next hceil =>
    cases h
    obtain ⟨-, rfl⟩ := ceilTo?_eq_some_iff.mp hceil
    have hpos := pos_of_isPowerOfTwo (Bool.not_eq_false _ ▸ halign)
    have hle := le_ceilTo blockSize hpos
    unfold minBlockSize at hsize
    omega
  · cases h

theorem ofArena_eq_ok {arena : Arena} {blockSize capacity alignment : Nat} {log : List Record}
    (h : ofArena arena blockSize capacity alignment = .ok (p, log)) :
    ∃ stride, p = untouched arena blockSize stride capacity ∧ capacity ≤ maxPoolCapacity ∧
      0 < stride ∧ stride * capacity ≤ arena.size := by
  unfold ofArena at h
  split at h
  · cases h
  next hcapacity =>
  split at h
  · cases h
  next stride hstride =>
  split at h
  · cases h
  split at h
  · cases h
  next bytes hbytes =>
  split at h
  · cases h
  next hsize =>
  cases h
  refine ⟨stride, rfl, Nat.not_lt.mp hcapacity, pos_of_strideFor hstride, ?_⟩
  unfold bytesFor checkedMul at hbytes
  split at hbytes
  · next hb =>
    cases hbytes
    split at hb <;> cases hb
    exact Nat.not_lt.mp hsize
  · cases hbytes

inductive IsNew (capacity : Nat) (p : BlockPool) : Prop where
  | ofArena {arena : Arena} {blockSize alignment : Nat} {log : List Record}
      (h : BlockPool.ofArena arena blockSize capacity alignment = .ok (p, log))
  | withCapacity {system : Arena.System} {blockSize alignment : Nat} {log : List Record}
      (h : BlockPool.withCapacity system blockSize capacity alignment = .ok (p, log))

theorem IsNew.exists_arena {capacity : Nat} (h : IsNew capacity p) :
    ∃ arena blockSize alignment log,
      BlockPool.ofArena arena blockSize capacity alignment = .ok (p, log) := by
  cases h with
  | ofArena h => exact ⟨_, _, _, _, h⟩
  | withCapacity h =>
    unfold BlockPool.withCapacity at h
    split at h
    · cases h
    split at h
    · cases h
    split at h
    · cases h
    · exact ⟨_, _, _, _, h⟩

theorem IsNew.hasStack {capacity : Nat} (h : IsNew capacity p) :
    p.HasStack (List.range capacity) ∧ p.grid.Fits ∧ p.grid.capacity = capacity ∧
      capacity ≤ maxPoolCapacity := by
  obtain ⟨arena, blockSize, alignment, log, h⟩ := h.exists_arena
  obtain ⟨stride, rfl, hcapacity, hpos, hsize⟩ := ofArena_eq_ok h
  have hblocks := capacity_untouched arena blockSize stride capacity
  refine ⟨hasStack_untouched .., ⟨hpos, ?_⟩, hblocks, hcapacity⟩
  rw [show (untouched arena blockSize stride capacity).grid.capacity = capacity from hblocks,
    Nat.mul_comm]
  exact hsize

theorem HasStack.serve (h : p.HasStack free) (hfits : p.grid.Fits) (c : Call) :
    p.Reads (p.serve c) (serveStack p.grid free c) := by
  cases c with
  | allocate => exact h.reads_allocate
  | deallocate i => exact h.reads_deallocate i
  | deallocateAt address =>
    simp only [BlockPool.serve, serveStack, deallocateAt, indexOf?_eq hfits]
    cases p.grid.blockAt? address with
    | none => exact ⟨h, rfl, rfl, rfl⟩
    | some i => exact h.reads_deallocate i
  | reset =>
    refine ⟨hasStack_untouched .., ?_, rfl, rfl⟩
    exact congrArg (Grid.mk _ _) (capacity_untouched ..)
  | overwrite i bytes =>
    refine ⟨h.overwrite i bytes, ?_, rfl, rfl⟩
    simp only [BlockPool.serve, BlockPool.overwrite]
    split <;> rfl

theorem HasStack.after (h : p.HasStack free) (hfits : p.grid.Fits) (calls : List Call) :
    (p.after calls).HasStack (stackAfter p.grid free calls) ∧ (p.after calls).grid = p.grid := by
  induction calls generalizing p free with
  | nil => exact ⟨h, rfl⟩
  | cons c calls ih =>
    obtain ⟨hs, hgrid, -, -⟩ := h.serve hfits c
    obtain ⟨hs', hgrid'⟩ := ih hs (hgrid ▸ hfits)
    rw [hgrid] at hs' hgrid'
    exact ⟨hs', hgrid'⟩

/-- After any calls the links of a new pool and its top are what words tell of them. -/
theorem IsNew.ofWord_toWord {capacity : Nat} (h : IsNew capacity p) (calls : List Call) :
    (∀ (i : Nat) (l : Link), (p.after calls).links[i]? = some l → Link.ofWord l.toWord = l) ∧
      Link.placeOfWord (Link.placeWord (p.after calls).top) = (p.after calls).top := by
  obtain ⟨hs, hfits, hcapacity, hle⟩ := h.hasStack
  obtain ⟨hs', hgrid⟩ := hs.after hfits calls
  have hcap : (p.after calls).capacity = p.grid.capacity := congrArg Grid.capacity hgrid
  exact hs'.ofWord_toWord (by rwa [hcap, hcapacity])

theorem state_serve_of_fails {c : Call} (h : c.Fails (p.serve c).answer) :
    (p.serve c).state = p := by
  have hdeallocate {i : Nat} {e : PoolError} (he : (p.deallocate i).1 = .error e) :
      (p.deallocate i).2 = p := by
    unfold BlockPool.deallocate at he ⊢
    split at he
    · rfl
    · rfl
    · cases he
  cases c with
  | allocate =>
    simp only [Call.Fails, serve] at h ⊢
    unfold BlockPool.allocate at h ⊢
    split at h
    · rfl
    · split at h
      · cases h
      · rfl
  | deallocate i =>
    obtain ⟨e, he⟩ := h
    exact hdeallocate he
  | deallocateAt address =>
    obtain ⟨e, he⟩ := h
    simp only [serve, deallocateAt] at he ⊢
    split at he
    · rfl
    · exact hdeallocate he
  | reset | overwrite => cases h

section Held

variable {g : Grid} {held : List Nat}

theorem perm_giveBack (h : (held ++ free).Perm (List.range g.capacity)) (hlt : i < g.capacity)
    (hi : i ∉ free) : (held.erase i ++ i :: free).Perm (List.range g.capacity) := by
  have hmem : i ∈ held := by
    have hall := h.mem_iff.mpr (List.mem_range.mpr hlt)
    exact (List.mem_append.mp hall).resolve_right hi
  calc (held.erase i ++ i :: free).Perm (i :: held.erase i ++ free) := List.perm_middle
    _ |>.Perm (held ++ free) := (List.perm_cons_erase hmem).symm.append_right free
    _ |>.Perm (List.range g.capacity) := h

theorem filter_place_eq_erase (hfits : g.Fits) (hnodup : held.Nodup) (i : Nat) :
    held.filter (g.place · ≠ g.place i) = held.erase i := by
  rw [hnodup.erase_eq_filter]
  refine List.filter_congr fun j _ => ?_
  by_cases hj : j = i
  · simp [hj]
  · simp [hj, mt (Grid.place_inj hfits) hj]

theorem perm_holding (hfits : g.Fits) (h : (held ++ free).Perm (List.range g.capacity))
    (c : Call) :
    (c.holding g held (serveStack g free c).answer ++ (serveStack g free c).state).Perm
      (List.range g.capacity) := by
  cases c with
  | allocate =>
    cases free with
    | nil => exact h
    | cons i free => exact List.perm_middle.symm.trans h
  | deallocate i =>
    simp only [serveStack]
    rcases giveBack_cases g.capacity free i with ⟨-, he⟩ | ⟨-, he⟩ | ⟨hlt, hi, he⟩
    · rw [he]
      exact h
    · rw [he]
      exact h
    · rw [he]
      exact perm_giveBack h hlt hi
  | deallocateAt address =>
    have hnodup : held.Nodup := (List.nodup_append.mp (h.nodup_iff.mpr List.nodup_range)).1
    simp only [serveStack]
    cases hat : g.blockAt? address with
    | none => exact h
    | some i =>
      obtain ⟨-, rfl⟩ := (Grid.blockAt?_eq_some_iff hfits).mp hat
      rcases giveBack_cases g.capacity free i with ⟨-, he⟩ | ⟨-, he⟩ | ⟨hlt, hi, he⟩
      · simp only [he]
        exact h
      · simp only [he]
        exact h
      · simp only [he, Call.holding, Outcome.quiet_answer, Outcome.quiet_state]
        rw [filter_place_eq_erase hfits hnodup]
        exact perm_giveBack h hlt hi
  | reset => exact .refl _
  | overwrite => exact h

theorem HasStack.perm_heldAfter (hs : p.HasStack free) (hfits : p.grid.Fits)
    (h : (held ++ free).Perm (List.range p.capacity)) (calls : List Call) :
    (p.heldAfter held calls ++ stackAfter p.grid free calls).Perm (List.range p.capacity) := by
  induction calls generalizing p held free with
  | nil => exact h
  | cons c calls ih =>
    obtain ⟨hs', hgrid, hanswer, -⟩ := hs.serve hfits c
    have hcapacity : (p.serve c).state.capacity = p.capacity := congrArg Grid.capacity hgrid
    have hstep := perm_holding hfits h c
    rw [← hanswer] at hstep
    have hrest := ih hs' (hgrid ▸ hfits) (by rw [hcapacity]; exact hstep)
    rw [hcapacity, hgrid] at hrest
    exact hrest

end Held

/--
After any calls, misuse included, a new pool answers and records every next call as the stack of
its free blocks does, which began with all blocks in order. What fails leaves the pool as it was.
What callers hold, going by the answers, and what lies on the stack are all blocks, once each: none
is handed out a second time before it is returned, and none is lost.
-/
theorem answers_as_stack {capacity : Nat} {fresh : BlockPool} (h : IsNew capacity fresh)
    (calls : List Call) :
    let p := fresh.after calls
    let free := stackAfter fresh.grid (List.range capacity) calls
    let held := fresh.heldAfter [] calls
    fresh.grid.capacity = capacity ∧ free.Nodup ∧ p.available = free.length ∧
      (∀ i, (p.block? i).isSome ↔ i < capacity ∧ i ∉ free) ∧
      (∀ c, (p.serve c).answer = (serveStack fresh.grid free c).answer ∧
        (p.serve c).log = (serveStack fresh.grid free c).log) ∧
      (∀ c, c.Fails (p.serve c).answer → (p.serve c).state = p) ∧
      (held ++ free).Perm (List.range capacity) ∧
      ∀ i, (p.serve .allocate).answer = some i → i ∉ held := by
  intro p free held
  obtain ⟨hs, hfits, hcapacity, -⟩ := h.hasStack
  obtain ⟨hs', hgrid⟩ := hs.after hfits calls
  have hcap : p.capacity = capacity := (congrArg Grid.capacity hgrid).trans hcapacity
  have hserve (c : Call) : p.Reads (p.serve c) (serveStack fresh.grid free c) := by
    have hread := hs'.serve (hgrid ▸ hfits) c
    rwa [hgrid] at hread
  have hperm : (held ++ free).Perm (List.range capacity) := by
    have hstart : ([] ++ List.range capacity).Perm (List.range fresh.capacity) :=
      .of_eq (congrArg List.range hcapacity.symm)
    have hall := hs.perm_heldAfter hfits hstart calls
    rwa [show fresh.capacity = capacity from hcapacity] at hall
  refine ⟨hcapacity, hs'.nodup, hs'.available_eq, fun i => ?_, fun c => ?_,
    fun c => state_serve_of_fails, hperm, fun i hi hheld => ?_⟩
  · rw [hs'.isSome_block?_iff, hcap]
  · exact ⟨(hserve c).answer_eq, (hserve c).log_eq⟩
  · rw [(hserve .allocate).answer_eq] at hi
    have htop : i ∈ free := by
      cases hfree : free with
      | nil =>
        rw [hfree] at hi
        cases hi
      | cons j rest =>
        rw [hfree] at hi
        cases hi
        exact List.mem_cons_self
    exact (List.nodup_append.mp (hperm.nodup_iff.mpr List.nodup_range)).2.2 i hheld i htop rfl

def pairPool : BlockPool :=
  untouched { start := 4096, size := 32, owned := true, memory := .zeroed } 16 16 2

def pairCalls : List Call :=
  [.allocate, .allocate, .allocate, .deallocate 0, .deallocate 0, .deallocate 2,
    .deallocateAt 4112]

theorem answers_as_stack_pair :
    IsNew 2 pairPool ∧
      (pairPool.after pairCalls).available = 2 ∧
      ((pairPool.after pairCalls).serve .allocate).answer = some 1 ∧
      ((pairPool.after pairCalls).serve (.deallocate 1)).answer = .error (.doubleFree 1) ∧
      ((pairPool.after pairCalls).serve (.deallocateAt 4104)).answer =
        .error (.foreignIndex 4294967295) := by
  have h : IsNew 2 pairPool := @IsNew.withCapacity 2 pairPool (fun _ _ => some 4096) 16 8 _ rfl
  obtain ⟨-, -, havailable, -, hserve, -⟩ := answers_as_stack h pairCalls
  refine ⟨h, havailable, ?_, ?_, ?_⟩
  · exact (hserve .allocate).1
  · exact (hserve (.deallocate 1)).1
  · exact (hserve (.deallocateAt 4104)).1

end MemoryKit.BlockPool
