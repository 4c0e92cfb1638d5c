import Mathlib.Logic.Function.Basic
import MemoryKit.Heap.FreeIndex
import MemoryKit.Proofs.Heap.SizeClass

/-! # The index and the free lists

An index matches free lists if it knows the first block of each and marks the ones that are not
empty. Matching survives the changes of the index that go with taking a block out of a list and with
putting one in front. The search answers a class with a block, not below the one it starts at.
-/

namespace MemoryKit

namespace FreeIndex

open SizeClass

variable {x : FreeIndex} {c d e : SizeClass} {head : Option Nat}

@[simp] theorem bins_setHead (x : FreeIndex) (c : SizeClass) (head : Option Nat) :
    (x.setHead c head).bins = x.bins := rfl

@[simp] theorem subsOf_setHead (x : FreeIndex) (c : SizeClass) (head : Option Nat) (bin : Nat) :
    (x.setHead c head).subsOf bin = x.subsOf bin := rfl

@[simp] theorem head_mark (x : FreeIndex) (c d : SizeClass) : (x.mark c).head d = x.head d := rfl

@[simp] theorem head_unmark (x : FreeIndex) (c d : SizeClass) : (x.unmark c).head d = x.head d :=
  rfl

theorem head_setHead (hc : c.IsValid) (hd : d.IsValid) :
    (x.setHead c head).head d = if c = d then head else x.head d := by
  have hlt : c.index < x.heads.toArray.size := by
    rw [Vector.size_toArray]
    exact index_lt hc
  simp only [FreeIndex.head, setHead, Vector.getElem?_setIfInBounds, index_inj hc hd]
  split
  · rw [if_pos (index_lt hc)]
    rfl
  · rfl

theorem subsOf_mark (hc : c.IsValid) (bin : Nat) :
    (x.mark c).subsOf bin = if c.bin = bin then (x.subsOf bin).insert c.sub else x.subsOf bin := by
  simp only [subsOf, mark, Vector.getElem?_setIfInBounds]
  split
  · next h =>
    subst h
    rw [if_pos hc.1]
    rfl
  · rfl

theorem subsOf_unmark (hc : c.IsValid) (bin : Nat) :
    (x.unmark c).subsOf bin = if c.bin = bin then (x.subsOf bin).erase c.sub else x.subsOf bin := by
  simp only [subsOf, unmark, Vector.getElem?_setIfInBounds]
  split
  · next h =>
    subst h
    rw [if_pos hc.1]
    rfl
  · rfl

theorem lt_of_isValid_sub (hc : c.IsValid) : c.sub < 32 := by
  have := hc.2
  simp only [subCount] at this
  omega

theorem lt_of_isValid_bin (hc : c.IsValid) : c.bin < 32 := by
  have := hc.1
  simp only [binCount] at this
  omega

theorem contains_subsOf_mark (hc : c.IsValid) :
    ((x.mark c).subsOf d.bin).contains d.sub =
      ((x.subsOf d.bin).contains d.sub || decide (c = d)) := by
  rw [subsOf_mark hc]
  obtain ⟨cb, cs⟩ := c
  obtain ⟨db, ds⟩ := d
  by_cases h : cb = db
  · subst h
    rw [if_pos rfl, Bitmap.contains_insert _ (lt_of_isValid_sub hc)]
    simp [beq_eq_decide]
  · simp [h]

theorem contains_subsOf_unmark (hc : c.IsValid) :
    ((x.unmark c).subsOf d.bin).contains d.sub =
      ((x.subsOf d.bin).contains d.sub && !decide (c = d)) := by
  rw [subsOf_unmark hc]
  obtain ⟨cb, cs⟩ := c
  obtain ⟨db, ds⟩ := d
  by_cases h : cb = db
  · subst h
    rw [if_pos rfl, Bitmap.contains_erase]
    simp [bne, beq_eq_decide]
  · simp [h]

/-- Exactly the bins with a marked list are marked. -/
def IsCoherent (x : FreeIndex) : Prop :=
  ∀ bin, x.bins.contains bin = true ↔ ∃ sub, (x.subsOf bin).contains sub = true

theorem isCoherent_mark (h : x.IsCoherent) (hc : c.IsValid) : (x.mark c).IsCoherent := by
  intro bin
  have hb : (x.mark c).bins.contains bin = (x.bins.contains bin || c.bin == bin) :=
    Bitmap.contains_insert _ (lt_of_isValid_bin hc)
  rw [hb, subsOf_mark hc, Bool.or_eq_true, h bin, beq_iff_eq]
  by_cases hbin : c.bin = bin
  · have hsub : ((x.subsOf bin).insert c.sub).contains c.sub = true := by
      simp [Bitmap.contains_insert _ (lt_of_isValid_sub hc)]
    rw [if_pos hbin]
    exact ⟨fun _ => ⟨c.sub, hsub⟩, fun _ => Or.inr hbin⟩
  · simp [hbin]

theorem isCoherent_unmark (h : x.IsCoherent) (hc : c.IsValid) : (x.unmark c).IsCoherent := by
  intro bin
  rw [subsOf_unmark hc]
  have hempty := @Bitmap.isEmpty_iff ((x.subsOf c.bin).erase c.sub)
  by_cases hbin : c.bin = bin
  · subst hbin
    rw [if_pos rfl]
    by_cases hr : ((x.subsOf c.bin).erase c.sub).isEmpty = true
    · have hb : (x.unmark c).bins = x.bins.erase c.bin := if_pos hr
      simp [hb, Bitmap.contains_erase, hempty.mp hr]
    · have hb : (x.unmark c).bins = x.bins := if_neg hr
      obtain ⟨sub, hsub⟩ : ∃ sub, ((x.subsOf c.bin).erase c.sub).contains sub = true := by
        simpa using mt hempty.mpr hr
      have hsub' : (x.subsOf c.bin).contains sub = true := by
        rw [Bitmap.contains_erase, Bool.and_eq_true] at hsub
        exact hsub.1
      rw [hb]
      exact ⟨fun _ => ⟨sub, hsub⟩, fun _ => (h _).mpr ⟨sub, hsub'⟩⟩
  · rw [if_neg hbin, ← h bin]
    have hb : (x.unmark c).bins = x.bins.erase c.bin ∨ (x.unmark c).bins = x.bins := by
      simp only [unmark]
      split
      · exact Or.inl rfl
      · exact Or.inr rfl
    rcases hb with hb | hb <;> simp [hb, Bitmap.contains_erase, hbin]

@[simp] theorem subsOf_empty (bin : Nat) : empty.subsOf bin = Bitmap.empty := by
  simp only [subsOf, empty, Vector.getElem?_replicate]
  split <;> rfl

theorem isCoherent_empty : empty.IsCoherent := by
  intro bin
  have hb : empty.bins = Bitmap.empty := rfl
  simp [hb]

def dropHead (x : FreeIndex) (c : SizeClass) (next : Option Nat) : FreeIndex :=
  if next.isNone then (x.setHead c next).unmark c else x.setHead c next

def pushHead (x : FreeIndex) (c : SizeClass) (b : Nat) : Option Nat → FreeIndex
  | some _ => x.setHead c (some b)
  | none => (x.mark c).setHead c (some b)

theorem search_sound (hs : x.search c = some d) :
    c ≤ d ∧ (x.subsOf d.bin).contains d.sub = true := by
  unfold search at hs
  split at hs
  · next sub hsub =>
    cases hs
    have hc := Bitmap.contains_of_lowest? hsub
    rw [Bitmap.contains_fromOn, Bool.and_eq_true, decide_eq_true_eq] at hc
    exact ⟨Or.inr ⟨rfl, hc.2⟩, hc.1⟩
  · split at hs
    · cases hs
    · next bin hbin =>
      obtain ⟨sub, hsub, rfl⟩ := Option.map_eq_some_iff.mp hs
      have hc := Bitmap.contains_of_lowest? hbin
      rw [Bitmap.contains_fromOn, Bool.and_eq_true, decide_eq_true_eq] at hc
      exact ⟨Or.inl hc.2, Bitmap.contains_of_lowest? hsub⟩

theorem search_complete (h : x.IsCoherent) (hle : c ≤ e)
    (he : (x.subsOf e.bin).contains e.sub = true) : ∃ d, x.search c = some d ∧ d ≤ e := by
  unfold search
  cases hsub : (x.subsOf c.bin).lowestFrom? c.sub with
  | some sub =>
    refine ⟨_, rfl, ?_⟩
    rcases hle with hlt | ⟨hbin, hle⟩
    · exact .inl hlt
    · refine .inr ⟨hbin, Bitmap.lowest?_le hsub ?_⟩
      rw [Bitmap.contains_fromOn, hbin, he, decide_eq_true hle]
      rfl
  | none =>
    have hlt : c.bin < e.bin := by
      rcases hle with hlt | ⟨hbin, hle⟩
      · exact hlt
      · have hempty := Bitmap.lowest?_eq_none_iff.mp hsub e.sub
        rw [Bitmap.contains_fromOn, hbin, he, decide_eq_true hle] at hempty
        cases hempty
    have hmem : (x.bins.fromOn (c.bin + 1)).contains e.bin = true := by
      rw [Bitmap.contains_fromOn, (h e.bin).mpr ⟨e.sub, he⟩,
        decide_eq_true (Nat.succ_le_of_lt hlt)]
      rfl
    cases hbin : x.bins.lowestFrom? (c.bin + 1) with
    | none =>
      rw [Bitmap.lowest?_eq_none_iff.mp hbin e.bin] at hmem
      cases hmem
    | some bin =>
      have hmarked := Bitmap.contains_of_lowest? hbin
      rw [Bitmap.contains_fromOn, Bool.and_eq_true] at hmarked
      obtain ⟨sub, hsub⟩ := (h bin).mp hmarked.1
      cases hlow : (x.subsOf bin).lowest? with
      | none =>
        rw [Bitmap.lowest?_eq_none_iff.mp hlow sub] at hsub
        cases hsub
      | some least =>
        refine ⟨⟨bin, least⟩, by simp only [hlow, Option.map_some], ?_⟩
        rcases Nat.lt_or_eq_of_le (Bitmap.lowest?_le hbin hmem) with hlt | rfl
        · exact .inl hlt
        · exact .inr ⟨rfl, Bitmap.lowest?_le hlow he⟩

/-- The index knows the first blocks of the lists and marks those that are not empty. -/
structure Matches (x : FreeIndex) (lists : SizeClass → List Nat) : Prop where
  valid : ∀ c, lists c ≠ [] → c.IsValid
  head : ∀ c, c.IsValid → x.head c = (lists c).head?
  marked : ∀ c : SizeClass, (x.subsOf c.bin).contains c.sub = true ↔ lists c ≠ []
  coherent : x.IsCoherent

namespace Matches

variable {lists : SizeClass → List Nat}

theorem bins_iff (h : x.Matches lists) (bin : Nat) :
    x.bins.contains bin = true ↔ ∃ sub, lists ⟨bin, sub⟩ ≠ [] :=
  (h.coherent bin).trans (exists_congr fun sub => h.marked ⟨bin, sub⟩)

theorem empty : FreeIndex.empty.Matches fun _ => [] where
  valid _ h := (h rfl).elim
  head c _ := by
    simp only [FreeIndex.head, FreeIndex.empty, Vector.getElem?_replicate]
    split <;> rfl
  marked c := by simp
  coherent := isCoherent_empty

theorem update (h : x.Matches lists) (hc : c.IsValid) {y : FreeIndex} {l : List Nat}
    (hhead : ∀ d, d.IsValid → y.head d = if c = d then l.head? else x.head d)
    (hmark : ∀ d : SizeClass, (y.subsOf d.bin).contains d.sub =
      if c = d then !l.isEmpty else (x.subsOf d.bin).contains d.sub)
    (hy : y.IsCoherent) : y.Matches (Function.update lists c l) where
  valid d hd := by
    by_cases hcd : d = c
    · exact hcd ▸ hc
    · rw [Function.update_of_ne hcd] at hd
      exact h.valid d hd
  head d hd := by
    rw [hhead d hd]
    by_cases hcd : c = d
    · subst hcd
      simp
    · rw [if_neg hcd, Function.update_of_ne (Ne.symm hcd), h.head d hd]
  marked d := by
    rw [hmark d]
    by_cases hcd : c = d
    · subst hcd
      simp
    · rw [if_neg hcd, Function.update_of_ne (Ne.symm hcd), h.marked d]
  coherent := hy

theorem pushHead (h : x.Matches lists) (hc : c.IsValid) (b : Nat) :
    (x.pushHead c b (lists c).head?).Matches (Function.update lists c (b :: lists c)) := by
  cases hl : lists c with
  | nil =>
    apply h.update hc
    · intro d hd
      simp [FreeIndex.pushHead, head_setHead hc hd]
    · intro d
      simp only [FreeIndex.pushHead, List.head?_nil, subsOf_setHead, contains_subsOf_mark hc]
      by_cases hcd : c = d <;> simp [hcd]
    · exact isCoherent_mark h.coherent hc
  | cons first l =>
    apply h.update hc
    · intro d hd
      simp [FreeIndex.pushHead, head_setHead hc hd]
    · intro d
      by_cases hcd : c = d
      · subst hcd
        simpa [FreeIndex.pushHead] using (h.marked c).mpr (by simp [hl])
      · simp [FreeIndex.pushHead, hcd]
    · exact h.coherent

theorem dropHead (h : x.Matches lists) {b : Nat} {l : List Nat} (hl : lists c = b :: l) :
    (x.dropHead c l.head?).Matches (Function.update lists c l) := by
  have hc := h.valid c (by simp [hl])
  have hmark := (h.marked c).mpr (by simp [hl])
  cases l with
  | nil =>
    apply h.update hc
    · intro d hd
      simp [FreeIndex.dropHead, head_setHead hc hd]
    · intro d
      simp only [FreeIndex.dropHead, List.head?_nil, Option.isNone_none, if_true,
        contains_subsOf_unmark hc, subsOf_setHead]
      by_cases hcd : c = d <;> simp [hcd]
    · exact isCoherent_unmark h.coherent hc
  | cons next l =>
    apply h.update hc
    · intro d hd
      simp [FreeIndex.dropHead, head_setHead hc hd]
    · intro d
      by_cases hcd : c = d
      · subst hcd
        simpa [FreeIndex.dropHead] using hmark
      · simp [FreeIndex.dropHead, hcd]
    · exact h.coherent

theorem cut (h : x.Matches lists) {b : Nat} {l l' : List Nat} (hl : lists c = b :: l) :
    x.Matches (Function.update lists c (b :: l')) := by
  have hc := h.valid c (by simp [hl])
  have hmark := (h.marked c).mpr (by simp [hl])
  apply h.update hc
  · intro d hd
    by_cases hcd : c = d
    · subst hcd
      simpa [hl] using h.head c hc
    · rw [if_neg hcd]
  · intro d
    by_cases hcd : c = d
    · subst hcd
      simpa using hmark
    · rw [if_neg hcd]
  · exact h.coherent

theorem search (h : x.Matches lists) (hs : x.search c = some d) : c ≤ d ∧ lists d ≠ [] := by
  obtain ⟨hle, hmark⟩ := search_sound hs
  exact ⟨hle, (h.marked d).mp hmark⟩

theorem search_complete (h : x.Matches lists) (hle : c ≤ e) (hne : lists e ≠ []) :
    ∃ d, x.search c = some d ∧ d ≤ e :=
  FreeIndex.search_complete h.coherent hle ((h.marked e).mpr hne)

end Matches

end FreeIndex

end MemoryKit
