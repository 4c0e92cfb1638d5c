import Mathlib.Algebra.BigOperators.Group.List.Basic
import Mathlib.Algebra.GroupWithZero.Nat
import Mathlib.Algebra.Order.BigOperators.Group.List
import Mathlib.Algebra.Order.Group.Nat
import MemoryKit.Proofs.SlotPool.Ownership

/-! # The count of free slots

Threads update the count of free slots after the stack. A slot that was just taken is counted still,
and one that was just put back is not counted yet. While more returns are not counted than there are
slots on the stack or counted still, the count is below zero and wraps around.
-/

namespace MemoryKit.SlotPool

variable {α : Type} {p : SlotPool α} {free : List UInt32} {a : Access}

/-- A slot was taken from the stack and is counted as free. -/
def Access.taking : Access → Nat
  | .markTaken _ | .countTaken _ => 1
  | _ => 0

/-- A slot was put on the stack and is not counted as free. -/
def Access.returning : Access → Nat
  | .countReturned => 1
  | _ => 0

def Access.debit : Access → Nat
  | .markReturned _ | .loadHeadToReturn _ | .storeNext _ _ | .swapHeadToReturn _ _
  | .countReturned => 1
  | _ => 0

def Next.debit : Next → Nat
  | .access a => a.debit
  | .finished (.taken _) => 1
  | .finished _ => 0

namespace Worker

def taking (worker : Worker) : Nat := worker.pending.elim 0 Access.taking

def returning (worker : Worker) : Nat := worker.pending.elim 0 Access.returning

/-- The slots that a thread has counted out and not counted in. -/
def debit (worker : Worker) : Nat := worker.pending.elim 0 Access.debit + worker.owned.length

theorem length_holds_add (worker : Worker) :
    worker.holds.length + worker.returning = worker.debit + worker.taking := by
  obtain ⟨pending, owned, since⟩ := worker
  have h : ∀ a : Access, a.held.length + a.returning = a.debit + a.taking := by
    intro a
    cases a <;> rfl
  cases pending with
  | none => simp [holds, returning, debit, taking]
  | some a =>
    simp only [holds, returning, debit, taking, Option.elim_some, List.length_append]
    have := h a
    omega

theorem taking_le (worker : Worker) : worker.taking ≤ worker.holds.length := by
  obtain ⟨pending, owned, since⟩ := worker
  rw [holds, List.length_append]
  refine Nat.le_add_right_of_le ?_
  cases pending with
  | none => exact Nat.zero_le _
  | some a => cases a <;> simp [taking, Access.taking, Access.held]

theorem returning_le (worker : Worker) : worker.returning ≤ 1 := by
  obtain ⟨pending, owned, since⟩ := worker
  cases pending with
  | none => exact Nat.zero_le 1
  | some a => cases a <;> simp [returning, Access.returning]

theorem debit_proceed (worker : Worker) (next : Next) :
    (Crew.Worker.proceed worker next).debit = next.debit + worker.owned.length := by
  cases next with
  | access a => rfl
  | finished r =>
    cases r with
    | taken i =>
      simp only [Crew.Worker.proceed, debit, Next.debit, Option.elim_none, List.length_cons]
      omega
    | exhausted | returned | rejected => rfl

end Worker

theorem debit_afterHead (head : TaggedIndex) : (Access.afterHead head).debit = 0 := by
  unfold Access.afterHead
  split <;> rfl

theorem perform_debit (h : ∀ e, (a.perform p).1 ≠ .finished (.rejected e)) :
    (a.perform p).2.available + .ofNat (a.perform p).1.debit =
      p.available + .ofNat a.debit := by
  cases a with
  | loadHeadToTake =>
    simp only [Access.perform, debit_afterHead]
    rfl
  | loadNext head =>
    simp only [Access.perform]
    split <;> rfl
  | swapHeadToTake head next =>
    simp only [Access.perform]
    obtain ⟨-, hswap⟩ | ⟨-, hswap⟩ := p.swapHead_cases head (head.withIndex next)
    · rw [hswap]
      rfl
    · rw [hswap]
      simp only [debit_afterHead]
      rfl
  | markTaken i =>
    simp only [Access.perform]
    split <;> rfl
  | countTaken i => exact (UInt64.sub_add_cancel p.available 1).trans (UInt64.add_zero _).symm
  | markReturned i =>
    simp only [Access.perform] at h ⊢
    split
    · next hs =>
      simp only [hs] at h
      exact absurd rfl (h _)
    · next s hs =>
      simp only [hs] at h
      cases hused : s.inUse with
      | true => rfl
      | false =>
        simp only [hused] at h
        exact absurd rfl (h _)
  | loadHeadToReturn i => rfl
  | storeNext i head =>
    simp only [Access.perform]
    split <;> rfl
  | swapHeadToReturn i head =>
    simp only [Access.perform]
    obtain ⟨-, hswap⟩ | ⟨-, hswap⟩ := p.swapHead_cases head (head.withIndex i)
    · rw [hswap]
      rfl
    · rw [hswap]
      rfl
  | countReturned => exact UInt64.add_zero _

namespace Crew

variable {c c' : Crew α} {w count : Nat} {worker : Worker}

def total (c : Crew α) (f : Worker → Nat) : Nat := (c.workers.map f).sum

theorem total_modify (c' : Crew α) (hw : c.workers[w]? = some worker) {f : Worker → Worker}
    (hworkers : c'.workers = c.workers.modify w f) (g : Worker → Nat) :
    c'.total g + g worker = c.total g + g (f worker) := by
  obtain ⟨others, hperm, hmodify⟩ := exists_others hw
  have h := (hperm.map g).sum_eq
  have h' := ((hworkers ▸ hmodify f).map g).sum_eq
  rw [List.map_cons, List.sum_cons] at h h'
  rw [total, total, h, h']
  omega

theorem IsOrderly.length_add (h : c.IsOrderly free) :
    free.length + c.total Worker.debit + c.total Worker.taking =
        c.pool.capacity + c.total Worker.returning ∧
      free.length + c.total Worker.taking ≤ c.pool.capacity := by
  have hall := h.shared.length_eq
  rw [List.length_append, List.length_flatMap, List.length_map, List.length_range] at hall
  have hsum : c.total (fun worker => worker.holds.length) + c.total Worker.returning =
      c.total Worker.debit + c.total Worker.taking := by
    simp only [total, ← List.sum_map_add, Worker.length_holds_add]
  have hle : c.total Worker.taking ≤ c.total fun worker => worker.holds.length :=
    List.sum_le_sum fun worker _ => worker.taking_le
  change free.length + c.total (fun worker => worker.holds.length) = c.pool.capacity at hall
  omega

/-- Together with what was counted out, the count of free slots stays the same. -/
theorem IsOrderly.step_debit (h : c.IsOrderly free) (hstep : Step c c') :
    c'.pool.available + .ofNat (c'.total Worker.debit) =
      c.pool.available + .ofNat (c.total Worker.debit) := by
  cases hstep with
  | beginTake w worker hw hidle =>
    have hpool : (c.beginTake w).pool = c.pool := rfl
    have hsame : worker.debit = 0 + worker.owned.length := by rw [Worker.debit, hidle]; rfl
    have hsum := total_modify (c.beginTake w) hw rfl Worker.debit
    rw [hsame] at hsum
    rw [hpool, Nat.add_right_cancel hsum]
  | beginReturn w worker i hw hidle hi =>
    have hpool : (c.beginReturn w i).pool = c.pool := rfl
    have hsame : worker.debit = 1 + (worker.owned.erase i).length := by
      have hpos := List.length_pos_of_mem hi
      rw [Worker.debit, hidle, Option.elim_none, List.length_erase_of_mem hi]
      omega
    have hsum := total_modify (c.beginReturn w i) hw rfl Worker.debit
    rw [hsame] at hsum
    rw [hpool, Nat.add_right_cancel hsum]
  | advance w worker hw hpending =>
    obtain ⟨a, ha⟩ := Option.isSome_iff_exists.mp hpending
    have hsound := (h.sound worker (List.mem_of_getElem? hw)).pending a ha
    have hperform := perform_debit hsound.ne_rejected
    have hsum := total_modify (c.advance w) hw (by rw [advance_eq hw ha]) Worker.debit
    rw [Worker.debit_proceed, Worker.debit, ha, Option.elim_some] at hsum
    have hpool : (c.advance w).pool = (a.perform c.pool).2 := by rw [advance_eq hw ha]
    rw [hpool]
    rw [← UInt64.toNat_inj, UInt64.toNat_add, UInt64.toNat_add, UInt64.toNat_ofNat',
      UInt64.toNat_ofNat'] at hperform ⊢
    omega

theorem Step.length_workers_eq (h : Step c c') : c'.workers.length = c.workers.length := by
  cases h with
  | beginTake | beginReturn => exact List.length_modify ..
  | advance w worker hw hpending =>
    obtain ⟨a, ha⟩ := Option.isSome_iff_exists.mp hpending
    rw [advance_eq hw ha]
    exact List.length_modify ..

theorem total_debit_atRest (p : SlotPool α) (count : Nat) :
    (atRest p count).total Worker.debit = 0 := by
  rw [total, atRest, List.map_replicate, List.sum_replicate_nat]
  rfl

theorem Reachable.exists_debit {capacity : Nat} {init : UInt32 → α}
    (hp : create capacity init = .ok p) (h : Reachable p count c) :
    c.pool.capacity = capacity ∧ c.workers.length = count ∧ ∃ free, c.IsOrderly free ∧
      c.pool.available + .ofNat (c.total Worker.debit) = .ofNat capacity := by
  induction h with
  | atRest =>
    refine ⟨(le_of_create hp).2, List.length_replicate, _, isOrderly_atRest hp count, ?_⟩
    have hfull := (hasStack_create hp).available_eq
    rw [List.length_map, List.length_range] at hfull
    rw [total_debit_atRest, ← hfull, UInt64.ofNat_toNat]
    exact UInt64.add_zero _
  | step _ hbrisk hstep ih =>
    obtain ⟨hcapacity, hlength, free, ho, hdebit⟩ := ih
    obtain ⟨free', ho'⟩ := ho.step hbrisk hstep
    exact ⟨hstep.capacity_eq.trans hcapacity, hstep.length_workers_eq.trans hlength, free', ho',
      (ho.step_debit hstep).trans hdebit⟩

theorem total_returning_le (c : Crew α) : c.total Worker.returning ≤ c.workers.length := by
  have hle : c.total Worker.returning ≤ c.total fun _ => 1 :=
    List.sum_le_sum fun worker _ => worker.returning_le
  rwa [total, total, List.map_const', List.sum_replicate_nat, Nat.mul_one] at hle

/--
However many threads take and return the slots of a new pool, the count of free slots is the number
of those on the stack or counted still, less the returns that are not counted yet, and wraps around
below zero. So it is a number of slots of the pool exactly while no more returns are not counted.
-/
theorem Reachable.available_counts_stack {capacity : Nat} {init : UInt32 → α}
    (hp : create capacity init = .ok p) (h : Reachable p count c) :
    ∃ free, c.pool.Stacked c.pool.head.index free ∧ free.Nodup ∧
      free.length + c.total Worker.taking ≤ capacity ∧ c.total Worker.returning ≤ count ∧
      (c.pool.available.toNat : Int) =
        (free.length + c.total Worker.taking - c.total Worker.returning) % 2 ^ 64 ∧
      (c.total Worker.returning ≤ free.length + c.total Worker.taking →
        c.pool.available.toNat ≤ capacity) ∧
      (count + capacity < 2 ^ 64 → c.pool.available.toNat ≤ capacity →
        c.total Worker.returning ≤ free.length + c.total Worker.taking) := by
  obtain ⟨rfl, rfl, free, ho, hdebit⟩ := h.exists_debit hp
  obtain ⟨hall, hle⟩ := ho.length_add
  have hreturning := c.total_returning_le
  have hnd : (free ++ c.workers.flatMap Worker.holds).Nodup :=
    ho.shared.nodup_iff.mpr (nodup_indices ho.capacity_le)
  have hlt := c.pool.available.toNat_lt
  rw [← UInt64.toNat_inj, UInt64.toNat_add, UInt64.toNat_ofNat', UInt64.toNat_ofNat'] at hdebit
  refine ⟨free, ho.stacked, hnd.of_append_left, hle, hreturning, ?_, ?_, ?_⟩
  all_goals omega

def singlePool : SlotPool Unit := ⟨#[⟨nullIndex, false, ()⟩], ⟨0, 0⟩, 1⟩

/--
The first thread takes the slot and puts it back, and sleeps before it counts the return. The second
one takes the slot and counts that.
-/
def hastyCrew : Crew Unit :=
  (atRest singlePool 2).play (.replicate 11 0 ++ .replicate 6 1)

theorem Reachable.available_counts_stack_hasty :
    create 1 (fun _ => ()) = .ok singlePool ∧ Reachable singlePool 2 hastyCrew ∧
      hastyCrew.total Worker.returning = 1 ∧
      ∃ free, hastyCrew.pool.Stacked hastyCrew.pool.head.index free ∧
        free.length + hastyCrew.total Worker.taking = 0 := by
  have hp : create 1 (fun _ => ()) = .ok singlePool := rfl
  have h : Reachable singlePool 2 hastyCrew := Reachable.atRest.play (by decide)
  have hreturning : hastyCrew.total Worker.returning = 1 := by decide +kernel
  have hout : ¬ hastyCrew.pool.available.toNat ≤ 1 := by decide +kernel
  obtain ⟨free, hstacked, -, -, -, -, hin, -⟩ := h.available_counts_stack hp
  refine ⟨hp, h, hreturning, free, hstacked, ?_⟩
  by_contra hne
  exact hout (hin (by omega))

theorem exists_available_wrapped :
    create 1 (fun _ => ()) = .ok singlePool ∧ Reachable singlePool 2 hastyCrew ∧
      hastyCrew.workers = [⟨some .countReturned, [], 1⟩, ⟨none, [0], 2⟩] ∧
      hastyCrew.pool.capacity < hastyCrew.pool.available.toNat :=
  ⟨rfl, Reachable.atRest.play (by decide), by decide +kernel, by decide +kernel⟩

end Crew

end MemoryKit.SlotPool
