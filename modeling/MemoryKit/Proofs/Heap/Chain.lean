import Mathlib.Data.List.Basic

/-! # Doubly linked chains

A chain is a list of nodes that point to each other in both directions. Its two ends point to what
lies before and after it. Chains can be cut and joined, and a node can be put in front or taken out
by changing the links of its neighbours alone.
-/

namespace MemoryKit

/-- Nodes that point to their neighbours, the first one back to `before`, the last on to `after`. -/
def Chained (prev next : Nat → Option Nat) : Option Nat → List Nat → Option Nat → Prop
  | _, [], _ => True
  | before, x :: l, after =>
    prev x = before ∧ next x = l.head?.or after ∧ Chained prev next (some x) l after

namespace Chained

variable {prev next prev' next' : Nat → Option Nat} {before before' after after' : Option Nat}
  {l l₁ l₂ : List Nat} {x : Nat}

theorem append_iff : Chained prev next before (l₁ ++ l₂) after ↔
    Chained prev next before l₁ (l₂.head?.or after) ∧
      Chained prev next (l₁.getLast?.or before) l₂ after := by
  induction l₁ generalizing before with
  | nil => simp [Chained]
  | cons x l₁ ih =>
    have hhead : (l₁ ++ l₂).head?.or after = l₁.head?.or (l₂.head?.or after) := by
      rw [List.head?_append, Option.or_assoc]
    have hlast : (x :: l₁).getLast?.or before = l₁.getLast?.or (some x) := by
      cases l₁ with
      | nil => rfl
      | cons y l₁ => simp [List.getLast?_cons]
    rw [List.cons_append, Chained, Chained, ih, hhead, hlast, and_assoc, and_assoc]

theorem congr (h : Chained prev next before l after)
    (hl : ∀ y ∈ l, prev' y = prev y ∧ next' y = next y) : Chained prev' next' before l after := by
  induction l generalizing before with
  | nil => trivial
  | cons x l ih =>
    obtain ⟨hp, hn, hrest⟩ := h
    obtain ⟨hp', hn'⟩ := hl x List.mem_cons_self
    exact ⟨hp'.trans hp, hn'.trans hn, ih hrest fun y hy => hl y (List.mem_cons_of_mem x hy)⟩

theorem rebase (h : Chained prev next before l after) (hl : l.Nodup)
    (hprev : ∀ y ∈ l, prev' y = if l.head? = some y then before' else prev y)
    (hnext : ∀ y ∈ l, next' y = next y) : Chained prev' next' before' l after := by
  cases l with
  | nil => trivial
  | cons x l =>
    obtain ⟨-, hn, hrest⟩ := h
    obtain ⟨hx, -⟩ := List.nodup_cons.mp hl
    refine ⟨?_, (hnext x List.mem_cons_self).trans hn, hrest.congr fun y hy => ?_⟩
    · simpa using hprev x List.mem_cons_self
    · have hne : x ≠ y := fun he => hx (he ▸ hy)
      have hp := hprev y (List.mem_cons_of_mem x hy)
      simp only [List.head?_cons, Option.some.injEq, if_neg hne] at hp
      exact ⟨hp, hnext y (List.mem_cons_of_mem x hy)⟩

theorem retarget (h : Chained prev next before l after) (hl : l.Nodup)
    (hprev : ∀ y ∈ l, prev' y = prev y)
    (hnext : ∀ y ∈ l, next' y = if l.getLast? = some y then after' else next y) :
    Chained prev' next' before l after' := by
  induction l generalizing before with
  | nil => trivial
  | cons x l ih =>
    obtain ⟨hp, hn, hrest⟩ := h
    obtain ⟨hx, hl'⟩ := List.nodup_cons.mp hl
    have hlast : ∀ y, y ≠ x → ((x :: l).getLast? = some y ↔ l.getLast? = some y) := by
      intro y hy
      cases l with
      | nil => simpa using Ne.symm hy
      | cons z l => simp [List.getLast?_cons]
    refine ⟨(hprev x List.mem_cons_self).trans hp, ?_,
      ih hrest hl' (fun y hy => hprev y (List.mem_cons_of_mem x hy)) fun y hy => ?_⟩
    · rw [hnext x List.mem_cons_self]
      cases l with
      | nil => simp
      | cons z l =>
        have hne : (x :: z :: l).getLast? ≠ some x := by
          intro he
          rw [List.getLast?_cons_cons] at he
          exact hx (List.mem_of_getLast? he)
        rw [if_neg hne]
        exact hn
    · have hne : y ≠ x := fun he => hx (he ▸ hy)
      simp only [hnext y (List.mem_cons_of_mem x hy), hlast y hne]

theorem push (h : Chained prev next none l none) (hl : l.Nodup)
    (hprev : ∀ y ∈ l, prev' y = if l.head? = some y then some x else prev y)
    (hnext : ∀ y ∈ l, next' y = next y) (hpx : prev' x = none) (hnx : next' x = l.head?) :
    Chained prev' next' none (x :: l) none :=
  ⟨hpx, by rw [hnx, Option.or_none], h.rebase hl hprev hnext⟩

theorem unlink (h : Chained prev next none (l₁ ++ x :: l₂) none) (hl : (l₁ ++ x :: l₂).Nodup)
    (hprev : ∀ y ∈ l₁ ++ l₂, prev' y = if l₂.head? = some y then l₁.getLast? else prev y)
    (hnext : ∀ y ∈ l₁ ++ l₂, next' y = if l₁.getLast? = some y then l₂.head? else next y) :
    Chained prev' next' none (l₁ ++ l₂) none := by
  obtain ⟨hl₁, hl₂, hdisj⟩ := List.nodup_append.mp hl
  obtain ⟨h₁, -, -, h₂⟩ := append_iff.mp h
  have hne : ∀ y ∈ l₁, ∀ z ∈ l₂, y ≠ z := fun y hy z hz => hdisj y hy z (List.mem_cons_of_mem x hz)
  refine append_iff.mpr ⟨?_, ?_⟩
  · refine h₁.retarget hl₁ (fun y hy => ?_) (fun y hy => ?_)
    · rw [hprev y (List.mem_append_left _ hy), if_neg]
      exact fun he => hne y hy y (List.mem_of_head? he) rfl
    · rw [hnext y (List.mem_append_left _ hy), Option.or_none]
  · refine h₂.rebase (List.nodup_cons.mp hl₂).2 (fun y hy => ?_) (fun y hy => ?_)
    · rw [hprev y (List.mem_append_right _ hy), Option.or_none]
    · rw [hnext y (List.mem_append_right _ hy), if_neg]
      exact fun he => hne y (List.mem_of_getLast? he) y hy rfl

theorem links (h : Chained prev next none (l₁ ++ x :: l₂) none) :
    prev x = l₁.getLast? ∧ next x = l₂.head? := by
  obtain ⟨-, hp, hn, -⟩ := append_iff.mp h
  exact ⟨by rw [hp, Option.or_none], by rw [hn, Option.or_none]⟩

/-- A chain that ends is known by its first node: each node names the next one. -/
theorem unique (h₁ : Chained prev next before l₁ none) (h₂ : Chained prev next before' l₂ none)
    (hhead : l₁.head? = l₂.head?) : l₁ = l₂ := by
  induction l₁ generalizing l₂ before before' with
  | nil => exact (List.head?_eq_none_iff.mp hhead.symm).symm
  | cons x l₁ ih =>
    cases l₂ with
    | nil => cases hhead
    | cons y l₂ =>
      obtain rfl : x = y := Option.some.inj hhead
      obtain ⟨-, hn₁, hrest₁⟩ := h₁
      obtain ⟨-, hn₂, hrest₂⟩ := h₂
      rw [Option.or_none] at hn₁ hn₂
      rw [ih hrest₁ hrest₂ (hn₁.symm.trans hn₂)]

/-- A chain that ends has each node once, as what follows a node is the same every time. -/
theorem nodup (h : Chained prev next before l none) : l.Nodup := by
  induction l generalizing before with
  | nil => exact List.nodup_nil
  | cons x l ih =>
    refine List.nodup_cons.mpr ⟨fun hx => ?_, ih h.2.2⟩
    obtain ⟨l₁, l₂, rfl⟩ := List.append_of_mem hx
    have hagain := (append_iff.mp h.2.2).2
    have he := congrArg List.length (h.unique hagain rfl)
    simp only [List.length_cons, List.length_append] at he
    omega

end Chained

end MemoryKit
