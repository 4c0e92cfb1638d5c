import MemoryKit.Proofs.SlotPool.FreeStack
import MemoryKit.Queue.Basic

/-! # The chain of a queue

The links of a queue lead from its dummy through one node for each value, front to back, and end at
the tail. Every other node is on the stack of free ones. A node on the chain has been released once
if it is the dummy and not at all if it holds a value, so that the second release of a node comes
exactly when its value is taken and the node after it is the dummy.
-/

namespace MemoryKit.Queue

variable {α : Type} {q q' : Queue α} {i j dummy : UInt32} {chain free : List UInt32}
  {cells : List (UInt32 × α)} {value : α} {n : Node α}

/-- The links lead from a node through those of a list and end at the last of them. -/
def Linked (q : Queue α) : UInt32 → List UInt32 → Prop
  | i, [] => (q.next i).index = nullIndex
  | i, j :: chain => (q.next i).index = j ∧ j ≠ nullIndex ∧ q.Linked j chain

theorem next_of_get? (h : q.nodes.get? i = some n) : q.next i = n.next := by rw [next, h]

theorem Linked.congr (h : q.Linked i chain) (hn : ∀ j ∈ i :: chain, q'.next j = q.next j) :
    q'.Linked i chain := by
  induction chain generalizing i with
  | nil => rwa [Linked, hn i List.mem_cons_self]
  | cons j chain ih =>
    obtain ⟨hi, hj, hrest⟩ := h
    exact ⟨hn i List.mem_cons_self ▸ hi, hj, ih hrest fun k hk => hn k (List.mem_cons_of_mem _ hk)⟩

theorem Linked.append (h : q.Linked i chain) (hnd : (i :: chain).Nodup) (hj : j ≠ nullIndex)
    (hlast : (q'.next (chain.getLastD i)).index = j) (hnew : (q'.next j).index = nullIndex)
    (hn : ∀ k ∈ i :: chain, k ≠ chain.getLastD i → q'.next k = q.next k) :
    q'.Linked i (chain ++ [j]) := by
  induction chain generalizing i with
  | nil => exact ⟨hlast, hj, hnew⟩
  | cons k chain ih =>
    obtain ⟨hi, hk, hrest⟩ := h
    obtain ⟨hni, hnd⟩ := List.nodup_cons.mp hnd
    rw [List.getLastD_cons] at hlast hn
    have hne : i ≠ chain.getLastD k := fun he => hni (he ▸ List.getLastD_mem_cons)
    exact ⟨hn i List.mem_cons_self hne ▸ hi, hk,
      ih hrest hnd hlast fun m hm => hn m (List.mem_cons_of_mem _ hm)⟩

theorem Linked.index_next_getLastD (h : q.Linked i chain) :
    (q.next (chain.getLastD i)).index = nullIndex := by
  induction chain generalizing i with
  | nil => exact h
  | cons j chain ih =>
    rw [List.getLastD_cons]
    exact ih h.2.2

structure Exhausts (l : List UInt32) (bound : Nat) : Prop where
  nodup : l.Nodup
  mem_iff : ∀ i, i ∈ l ↔ i.toNat < bound

theorem Exhausts.perm {l l' : List UInt32} {bound : Nat} (h : Exhausts l bound) (hp : l.Perm l') :
    Exhausts l' bound :=
  ⟨hp.nodup_iff.mp h.nodup, fun i => hp.mem_iff.symm.trans (h.mem_iff i)⟩

/--
The nodes of a queue: the dummy, a node for each value, front to back, and the free ones. A cell is
a node with its value.
-/
structure Holds (q : Queue α) (dummy : UInt32) (cells : List (UInt32 × α)) (free : List UInt32) :
    Prop where
  stack : q.nodes.HasStack free
  exhausts : Exhausts (dummy :: cells.map Prod.fst ++ free) q.nodes.capacity
  capacity_eq : q.nodes.capacity = q.capacity + 1
  head_eq : q.head.index = dummy
  tail_eq : q.tail.index = (cells.map Prod.fst).getLastD dummy
  linked : q.Linked dummy (cells.map Prod.fst)
  spent : ∃ n, q.nodes.get? dummy = some n ∧ n.released = true
  filled : ∀ c ∈ cells, ∃ n, q.nodes.get? c.1 = some n ∧ n.value = some c.2 ∧ n.released = false

namespace Holds

section

variable (h : q.Holds dummy cells free)

include h

theorem nodup : (dummy :: cells.map Prod.fst).Nodup :=
  (List.nodup_append.mp h.exhausts.nodup).1

theorem notMem_free (hi : i ∈ dummy :: cells.map Prod.fst) : i ∉ free := fun hf =>
  (List.nodup_append.mp h.exhausts.nodup).2.2 i hi i hf rfl

theorem exists_node (hi : i ∈ dummy :: cells.map Prod.fst) : ∃ n, q.nodes.get? i = some n := by
  obtain ⟨s, hs⟩ := SlotPool.exists_slot? ((h.exhausts.mem_iff i).mp (List.mem_append_left _ hi))
  exact ⟨s.value, by rw [SlotPool.get?, hs]; rfl⟩

theorem tail_mem : q.tail.index ∈ dummy :: cells.map Prod.fst :=
  h.tail_eq ▸ List.getLastD_mem_cons

/-- The tail never lags behind once an operation has ended. -/
theorem isNull_next_tail : (q.next q.tail.index).isNull = true := by
  rw [h.tail_eq]
  exact beq_iff_eq.mpr h.linked.index_next_getLastD

theorem head_eq_tail_iff : q.head.index = q.tail.index ↔ cells = [] := by
  rw [h.head_eq, h.tail_eq]
  constructor
  · intro he
    by_contra hne
    have hlast : (cells.map Prod.fst).getLastD dummy ∈ cells.map Prod.fst := by
      rw [List.getLastD_eq_getLast?, List.getLast?_eq_some_getLast (by simpa using hne)]
      exact List.getLast_mem _
    exact (List.nodup_cons.mp h.nodup).1 (he ▸ hlast)
  · rintro rfl
    rfl

theorem length_eq : cells.length + free.length = q.capacity := by
  have hcount := SlotPool.countP_slots (q := fun _ => true) h.exhausts.nodup h.stack.capacity_le
    fun i => by
      rw [h.exhausts.mem_iff]
      constructor
      · intro hi
        obtain ⟨s, hs⟩ := SlotPool.exists_slot? hi
        exact ⟨s, hs, rfl⟩
      · rintro ⟨s, hs, -⟩
        exact SlotPool.lt_of_slot? hs
  have hcapacity := h.capacity_eq
  rw [SlotPool.capacity, ← Array.length_toList] at hcapacity
  rw [List.countP_true, hcapacity] at hcount
  simp only [List.length_append, List.length_cons, List.length_map] at hcount
  omega

theorem available_eq : q.nodes.available.toNat = q.capacity - cells.length := by
  have hlength := h.length_eq
  rw [h.stack.available_eq]
  omega

end

theorem append (h : q.Holds dummy cells (i :: free)) (hstack : q'.nodes.HasStack free)
    (hnodes : q'.nodes.capacity = q.nodes.capacity) (hcapacity : q'.capacity = q.capacity)
    (hhead : q'.head = q.head) (htail : q'.tail.index = i)
    (hlast : (q'.next q.tail.index).index = i)
    (hnew : ∃ n, q'.nodes.get? i = some n ∧ n.next.index = nullIndex ∧ n.value = some value ∧
      n.released = false)
    (hold : ∀ j n, j ∈ dummy :: cells.map Prod.fst → q.nodes.get? j = some n →
      ∃ n', q'.nodes.get? j = some n' ∧ n'.value = n.value ∧ n'.released = n.released ∧
        (j ≠ q.tail.index → n'.next = n.next)) :
    q'.Holds dummy (cells ++ [(i, value)]) free := by
  have hmap : (cells ++ [(i, value)]).map Prod.fst = cells.map Prod.fst ++ [i] := by simp
  obtain ⟨new, hn, hnull, hv, hr⟩ := hnew
  refine ⟨hstack, ?_, by rw [hnodes, hcapacity, h.capacity_eq], by rw [hhead, h.head_eq], ?_, ?_,
    ?_, ?_⟩
  · rw [hmap, hnodes]
    refine h.exhausts.perm ?_
    rw [← List.cons_append, List.append_assoc]
    exact .refl _
  · rw [hmap, List.getLastD_concat, htail]
  · rw [hmap]
    refine h.linked.append h.nodup (h.stack.ne_nullIndex List.mem_cons_self)
      (h.tail_eq ▸ hlast) (by rwa [next_of_get? hn]) fun j hj hne => ?_
    obtain ⟨n, hj'⟩ := h.exists_node hj
    obtain ⟨n', hn', -, -, hnext⟩ := hold j n hj hj'
    rw [next_of_get? hn', next_of_get? hj', hnext (h.tail_eq ▸ hne)]
  · obtain ⟨n, hd, hrd⟩ := h.spent
    obtain ⟨n', hn', -, hr', -⟩ := hold dummy n List.mem_cons_self hd
    exact ⟨n', hn', hr'.trans hrd⟩
  · intro c hc
    rcases List.mem_append.mp hc with hc | hc
    · obtain ⟨n, hc', hvc, hrc⟩ := h.filled c hc
      obtain ⟨n', hn', hv', hr', -⟩ :=
        hold c.1 n (List.mem_cons_of_mem _ (List.mem_map_of_mem hc)) hc'
      exact ⟨n', hn', hv'.trans hvc, hr'.trans hrc⟩
    · cases List.mem_singleton.mp hc
      exact ⟨new, hn, hv, hr⟩

theorem behead (h : q.Holds dummy ((i, value) :: cells) free)
    (hstack : q'.nodes.HasStack (dummy :: free)) (hnodes : q'.nodes.capacity = q.nodes.capacity)
    (hcapacity : q'.capacity = q.capacity) (hhead : q'.head.index = i) (htail : q'.tail = q.tail)
    (hnew : ∃ n, q'.nodes.get? i = some n ∧ n.released = true)
    (hnext : ∀ j, q'.next j = q.next j)
    (hold : ∀ j, i ≠ j → q'.nodes.get? j = q.nodes.get? j) :
    q'.Holds i cells (dummy :: free) := by
  obtain ⟨-, -, hlinked⟩ := h.linked
  refine ⟨hstack, ?_, by rw [hnodes, hcapacity, h.capacity_eq], hhead, ?_, ?_, hnew, ?_⟩
  · rw [hnodes]
    exact h.exhausts.perm List.perm_middle.symm
  · rw [htail, h.tail_eq]
    exact List.getLastD_cons
  · exact hlinked.congr fun j _ => hnext j
  · intro c hc
    have hi := (List.nodup_cons.mp (List.nodup_cons.mp h.nodup).2).1
    rw [hold c.1 fun he => hi (List.mem_map.mpr ⟨c, hc, he.symm⟩)]
    exact h.filled c (List.mem_cons_of_mem _ hc)

end Holds

end MemoryKit.Queue
