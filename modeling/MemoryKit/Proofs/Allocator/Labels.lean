import Mathlib.Data.Finset.Card
import MemoryKit.Proofs.Allocator.Auditing

/-! # Labels of allocations

Labels that stand at one place are recorded once, and the tag of a block names their position. None
is ever forgotten, so that a position keeps its meaning when blocks come and go and when the
allocator is reset. As long as there are positions for all places and the words at a place do not
change, every allocation that is held carries the label that it was made with.
-/

namespace MemoryKit

namespace Allocator

open Heap

variable {a a' : Allocator} {held held' : List Holding} {L L' : Layout} {b : Block} {user : Nat}
  {x y : Holding} {u : Usage} {call : Call} {label : Label} {labels : Finset Label}

def labelOf? (a : Allocator) (pointer : Nat) : Option Label :=
  match a.locate pointer with
  | .ok (block, _) => a.label? (a.heap.tag block)
  | .error _ => none

theorem IsPlaced.labelOf?_eq (P : a.IsPlaced x b user) (H : a.HasLayout L) (hb : b ∈ L.blocks) :
    a.labelOf? x.pointer = a.label? (a.heap.tag b.offset) := by
  unfold labelOf?
  rw [P.locate_eq H hb]

def Call.label? : Call → Option Label
  | allocate _ label _ => some label
  | reallocate pointer _ => if pointer = 0 then some .resized else none
  | _ => none

/-- The labels that are known are some of a set and stand at different places. -/
def KnowsFrom (a : Allocator) (labels : Finset Label) : Prop :=
  a.LabelsApart ∧ ∀ l ∈ a.labels.toList, l ∈ labels

theorem KnowsFrom.size_le (K : a.KnowsFrom labels) :
    a.labels.size ≤ (labels.image Label.key).card := by
  have hlength : (a.labels.toList.map Label.key).length = a.labels.size := by simp
  rw [← hlength, ← List.toFinset_card_of_nodup K.1]
  apply Finset.card_le_card
  intro key hkey
  obtain ⟨l, hl, rfl⟩ := List.mem_map.mp (List.mem_toFinset.mp hkey)
  exact Finset.mem_image_of_mem _ (K.2 l hl)

theorem KnowsFrom.congr (K : a.KnowsFrom labels) (hl : a'.labels = a.labels) :
    a'.KnowsFrom labels := by
  unfold KnowsFrom LabelsApart
  rwa [hl]

theorem knowsFrom_of_unlabelled (h : a.labels = #[]) (labels : Finset Label) :
    a.KnowsFrom labels := by
  unfold KnowsFrom LabelsApart
  rw [h]
  exact ⟨List.nodup_nil, fun l hl => absurd hl List.not_mem_nil⟩

theorem labels_recordLabel_eq (a : Allocator) (label : Label) :
    (a.recordLabel label).state.labels = a.labels ∨
      (∀ l ∈ a.labels, l.key ≠ label.key) ∧ a.labels.size < noLabel ∧
        (a.recordLabel label).state.labels = a.labels.push label := by
  unfold recordLabel
  cases hi : a.labels.findIdx? (·.key == label.key) with
  | some i => exact Or.inl rfl
  | none =>
    dsimp only
    split
    · exact Or.inl rfl
    · next hlt =>
      refine Or.inr ⟨fun l hl he => ?_, Nat.lt_of_not_le hlt, rfl⟩
      have hne := Array.findIdx?_eq_none_iff.mp hi l hl
      simp [he] at hne

theorem LabelsApart.recordLabel (h : a.LabelsApart) (label : Label) :
    (a.recordLabel label).state.LabelsApart := by
  unfold LabelsApart
  rcases labels_recordLabel_eq a label with he | ⟨hnew, -, he⟩
  · rwa [he]
  · rw [he, Array.toList_push, List.map_append, List.nodup_append]
    refine ⟨h, List.nodup_singleton _, fun key hkey key' hkey' he => ?_⟩
    obtain ⟨l, hl, rfl⟩ := List.mem_map.mp hkey
    rw [List.map_singleton, List.mem_singleton] at hkey'
    exact hnew l (Array.mem_def.mpr hl) (he.trans hkey')

theorem KnowsFrom.recordLabel (K : a.KnowsFrom labels) (hl : label ∈ labels) :
    (a.recordLabel label).state.KnowsFrom labels := by
  refine ⟨K.1.recordLabel label, fun l hl' => ?_⟩
  rcases labels_recordLabel_eq a label with he | ⟨-, -, he⟩
  · exact K.2 l (he ▸ hl')
  · rw [he, Array.toList_push, List.mem_append, List.mem_singleton] at hl'
    rcases hl' with hl' | rfl
    · exact K.2 l hl'
    · exact hl

/--
There are positions for all places where the labels of a set stand, and the words at one of them
are always the same, as words that stay for as long as the program runs are.
-/
structure Suits (labels : Finset Label) : Prop where
  injOn : Set.InjOn Label.key labels
  card_lt : (labels.image Label.key).card < noLabel

theorem KnowsFrom.labels_recordLabel (K : a.KnowsFrom labels) (hs : Suits labels)
    (hl : label ∈ labels) :
    (a.recordLabel label).state.labels[(a.recordLabel label).answer]? = some label := by
  have hkey := a.labels_recordLabel label (Nat.lt_of_le_of_lt K.size_le hs.card_lt)
  obtain ⟨l, hfound, hkey⟩ := Option.map_eq_some_iff.mp hkey
  have hmem := (K.recordLabel hl).2 l (Array.mem_toList_iff.mpr (Array.mem_of_getElem? hfound))
  rw [hfound, hs.injOn hmem hl hkey]

/-- The allocator knows labels of a set, and holdings carry the labels they were made with. -/
structure Labelled (u : Usage) (labels : Finset Label) : Prop where
  knows : u.allocator.KnowsFrom labels
  carries : ∀ x ∈ u.held, u.allocator.labelOf? x.pointer = some x.label

theorem Moves.labelOf?_eq {gone new : Option Block} {dropped added : Option Holding}
    (M : Moves a held L a' held' L' gone new dropped added) (S : Serves a held L)
    (B : a.Balanced L) (hr : a.region.InRange) (hy : y ∈ held) (hd : y ∉ dropped) :
    a'.labelOf? y.pointer = a.labelOf? y.pointer := by
  obtain ⟨b, hb, user, P⟩ := S.placed y hy
  obtain ⟨hb', P'⟩ := M.of_not_dropped hy hd hb P
  have hused : b ∈ L.used := Layout.mem_used.mpr ⟨hb, P.used⟩
  have hgone : b ∉ gone := fun hg => hd ((M.gone_iff y hy b hb user P).mp hg)
  rw [P.labelOf?_eq S.layout hb, P'.labelOf?_eq M.layout hb', M.trades.tag_eq hused hgone]
  exact (B.tags b hused).label?_eq (M.books hr).labels M.layout.labels_le

section Calls

variable (S : Serves u.allocator u.held L) (B : u.allocator.Balanced L)
  (hr : u.allocator.region.InRange) (hs : Suits labels) (Lu : Labelled u labels)

include S B hr Lu

theorem Labelled.after_reallocate (hx : x ∈ u.held) (bytes : Nat) :
    Labelled (u.after (.reallocate x.pointer bytes)) labels := by
  obtain ⟨L', gone, new, dropped, added, M, hd⟩ := S.moves_reallocate hx bytes
  have hkept : ∀ y ∈ u.held, y.pointer ≠ x.pointer → _ := fun y hy hne =>
    M.labelOf?_eq S B hr hy fun hy' => hne (congrArg Holding.pointer (hd y hy'))
  obtain ⟨b, hb, user, P⟩ := S.placed x hx
  have h := P.resizes S.layout hb bytes
  have hlabel := Lu.carries x hx
  rw [P.labelOf?_eq S.layout hb] at hlabel
  unfold Usage.after at hkept ⊢
  simp only [P.pointer_ne_zero, if_false] at hkept ⊢
  generalize u.allocator.reallocate x.pointer bytes = r at *
  cases h with
  | refused => exact Lu
  | lost hout => exact absurd hr hout
  | @placed a' pointer L' b' user' log H hregion T P' _ K _ hl =>
    obtain ⟨hlabels, hcarried⟩ := hl Lu.knows.1 x.label hlabel
    refine ⟨Lu.knows.congr hlabels, fun y hy => ?_⟩
    obtain ⟨z, hz, rfl⟩ := List.mem_map.mp hy
    by_cases hzx : z.pointer = x.pointer
    · obtain rfl := S.distinct hz hx hzx
      rw [Holding.resized, if_pos rfl]
      exact (P'.labelOf?_eq H T.new_mem).trans hcarried
    · rw [Holding.resized, if_neg hzx]
      exact (hkept z hz hzx).trans (Lu.carries z hz)

theorem Labelled.after_deallocate (hx : x ∈ u.held) :
    Labelled (u.after (.deallocate x.pointer)) labels := by
  obtain ⟨L', gone, dropped, M, hd⟩ := S.moves_deallocate hx
  have hkept : ∀ y ∈ u.held, y.pointer ≠ x.pointer → _ := fun y hy hne =>
    M.labelOf?_eq S B hr hy fun hy' => hne (congrArg Holding.pointer (hd y hy'))
  obtain ⟨b, hb, user, P⟩ := S.placed x hx
  unfold Usage.after at hkept ⊢
  dsimp only at hkept ⊢
  rw [P.deallocate_eq S.layout hb B.unpoisoned] at hkept ⊢
  refine ⟨Lu.knows.congr rfl, fun y hy => ?_⟩
  obtain ⟨hy, hne⟩ := List.mem_filter.mp hy
  exact (hkept y hy (bne_iff_ne.mp hne)).trans (Lu.carries y hy)

include hs

theorem Labelled.after_allocate (bytes : Nat) {label : Label} (hl : label ∈ labels)
    (options : AllocationOptions) :
    Labelled (u.after (.allocate bytes label options)) labels := by
  obtain ⟨L', new, added, M⟩ := S.moves_allocate bytes label options
  have hkept : ∀ y ∈ u.held, _ := fun y hy => M.labelOf?_eq S B hr hy (by simp)
  have h := S.layout.allocates bytes label options
  unfold Usage.after Allocator.allocate at hkept ⊢
  dsimp only at hkept ⊢
  generalize u.allocator.allocateAligned bytes label options.alignment = r at *
  cases h with
  | refused => exact Lu
  | lost hout => exact absurd hr hout
  | @placed a' pointer L' b user log H hregion _ T P K _ hlabels hlabel =>
    refine ⟨(Lu.knows.recordLabel hl).congr hlabels, List.forall_mem_cons.mpr ⟨?_, fun y hy => ?_⟩⟩
    · rw [(P label).labelOf?_eq H T.new_mem, hlabel, hlabels]
      exact Lu.knows.labels_recordLabel hs hl
    · exact (hkept y hy).trans (Lu.carries y hy)

theorem Labelled.after (hp : u.Permits call) (hl : ∀ l ∈ call.label?, l ∈ labels) :
    Labelled (u.after call) labels := by
  cases call with
  | allocate bytes label options => exact Lu.after_allocate S B hr hs bytes (hl label rfl) options
  | reallocate pointer bytes =>
    rcases hp with rfl | ⟨x, hx, rfl⟩
    · rw [after_reallocate_zero]
      exact Lu.after_allocate S B hr hs bytes (hl .resized rfl) .standard
    · exact Lu.after_reallocate S B hr hx bytes
  | deallocate pointer =>
    rcases hp with rfl | ⟨x, hx, rfl⟩
    · exact ⟨Lu.knows.congr rfl, fun y hy => Lu.carries y (List.mem_filter.mp hy).1⟩
    · exact Lu.after_deallocate S B hr hx
  | reset => exact ⟨Lu.knows.congr rfl, by simp [Usage.after]⟩
  | valid =>
    have hsame : (u.after .valid).allocator = u.allocator :=
      congrArg Outcome.state (S.valid_eq B hr)
    exact ⟨hsame ▸ Lu.knows, hsame ▸ Lu.carries⟩
  | write offset bytes =>
    obtain ⟨x, b, hb, user, P, hm⟩ := S.exists_of_write hp
    have S' : Serves (u.allocator.write offset bytes) u.held L := S.write hb P hm
    refine ⟨Lu.knows.congr rfl, fun y hy => ?_⟩
    obtain ⟨c, hc, user', Py⟩ := S.placed y hy
    obtain ⟨c', hc', user'', Py'⟩ := S'.placed y hy
    obtain ⟨rfl, -⟩ := Py.eq_of_region Py' S.layout hc hc' rfl rfl
    rw [← Lu.carries y hy, Py.labelOf?_eq S.layout hc]
    exact (Py'.labelOf?_eq S'.layout hc).trans
      (congrArg u.allocator.label? (P.tag_eq_of_write S.layout hb hc hm))

end Calls

end Allocator

end MemoryKit
