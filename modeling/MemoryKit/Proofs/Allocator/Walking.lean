import MemoryKit.Proofs.Allocator.StartingOver

/-! # Labels of the blocks

A walk reports the blocks of a heap in the order of their offsets. Each used block is the one of an
allocation that is held, and the report names the label that the allocation was made with, however
it was resized or moved and whatever became of the others.
-/

namespace MemoryKit

open Allocator

namespace Usage

variable {arena : Arena} {u : Usage} {call : Call} {said : List Label} {labels : Finset Label}

/-- The states that a new allocator can come to, with the labels that its callers have named. -/
inductive Reaches (arena : Arena) : List Label → Usage → Prop where
  | start {a : Allocator} {log : List Record} :
      ofArena arena = .ok (a, log) → Reaches arena [] ⟨a, []⟩
  | step {said : List Label} {u : Usage} {call : Call} :
      Reaches arena said u → u.Permits call →
        Reaches arena (call.label?.toList ++ said) (u.after call)

theorem Reachable.exists_reaches (h : Reachable arena u) : ∃ said, Reaches arena said u := by
  induction h with
  | start h => exact ⟨_, .start h⟩
  | step _ hp ih =>
    obtain ⟨said, h⟩ := ih
    exact ⟨_, h.step hp⟩

theorem Reaches.reachable (h : Reaches arena said u) : Reachable arena u := by
  induction h with
  | start h => exact .start h
  | step _ hp ih => exact .step ih hp

theorem Reaches.exists_runs (h : Reaches arena said u) (hr : arena.toRegion.InRange)
    (hs : Suits labels) (hl : ∀ l ∈ said, l ∈ labels) : ∃ L, Runs u labels L := by
  induction h with
  | start h =>
    obtain ⟨a₀, rfl, hsized, hregion, hlabels⟩ := exists_reset_of_ofArena h
    exact ⟨_, hsized.runs_reset (hregion ▸ hr) (knowsFrom_of_unlabelled hlabels labels)⟩
  | @step said u call _ hp ih =>
    obtain ⟨L, R⟩ := ih fun l hm => hl l (List.mem_append_right _ hm)
    apply R.after hs hp
    intro l hm
    exact hl l (List.mem_append_left _ (Option.mem_toList.mpr hm))

/--
What is held after a call was made by it with the label it brought along, or was held before with
the same label: the pointer is the same, or the call handed it in.
-/
theorem label_of_mem_after {y : Holding} (hy : y ∈ (u.after call).held) :
    call.label? = some y.label ∨
      ∃ x ∈ u.held, (x.pointer = y.pointer ∨ call.pointer? = some x.pointer) ∧
        y.label = x.label := by
  have hkept : y ∈ u.held → ∃ x ∈ u.held,
      (x.pointer = y.pointer ∨ call.pointer? = some x.pointer) ∧ y.label = x.label :=
    fun hm => ⟨y, hm, .inl rfl, rfl⟩
  unfold after at hy
  cases call with
  | allocate bytes label options =>
    dsimp only at hy
    split at hy
    · rcases List.mem_cons.mp hy with rfl | hm
      · exact .inl rfl
      · exact .inr (hkept hm)
    · exact .inr (hkept hy)
  | reallocate pointer bytes =>
    dsimp only at hy
    split at hy
    · split at hy
      · next hnull =>
        rcases List.mem_cons.mp hy with rfl | hm
        · exact .inl (if_pos hnull)
        · exact .inr (hkept hm)
      · obtain ⟨x, hx, rfl⟩ := List.mem_map.mp hy
        refine .inr ⟨x, hx, ?_⟩
        unfold Holding.resized
        split
        · next hp => exact ⟨.inr (congrArg some hp.symm), rfl⟩
        · exact ⟨.inl rfl, rfl⟩
    · exact .inr (hkept hy)
  | deallocate pointer =>
    dsimp only at hy
    split at hy
    · exact .inr (hkept (List.mem_filter.mp hy).1)
    · exact .inr (hkept hy)
  | reset => cases hy
  | valid => exact .inr (hkept hy)
  | write offset bytes => exact .inr (hkept hy)

end Usage

namespace Allocator

open Heap

variable {a : Allocator} {u : Usage} {L : Layout} {labels : Finset Label} {x y : Holding}
  {b c : Block} {user : Nat} {i : BlockInfo}

/-- A pointer leads to the data of a block that is reported. -/
def Holding.LiesIn (x : Holding) (start : Nat) (i : BlockInfo) : Prop :=
  start + i.offset + headerSize ≤ x.pointer ∧ x.pointer < start + i.offset + i.size

instance (x : Holding) (start : Nat) (i : BlockInfo) : Decidable (x.LiesIn start i) :=
  inferInstanceAs (Decidable (_ ∧ _))

/-- The report is in order, and its used blocks are those of the allocations, with their labels. -/
structure Tells (infos : List BlockInfo) (held : List Holding) (start : Nat) : Prop where
  increasing : (infos.map BlockInfo.offset).Pairwise (· < ·)
  unlabelled : ∀ i ∈ infos, i.used = false → i.label = none
  labelled : ∀ i ∈ infos, i.used = true → ∃ x ∈ held, x.LiesIn start i ∧ i.label = some x.label ∧
    ∀ y ∈ held, y.LiesIn start i → y = x
  reported : ∀ x ∈ held, ∃ i ∈ infos, i.used = true ∧ x.LiesIn start i

theorem IsPlaced.liesIn (P : a.IsPlaced x b user) : x.LiesIn a.region.start (a.info b) := by
  have hfront := P.header_le
  have hlt := P.user_lt
  rw [Holding.LiesIn, P.pointer_eq]
  simp only [Region.address, info]
  omega

theorem Runs.eq_of_liesIn (R : Runs u labels L) (hx : x ∈ u.held) (hy : y ∈ u.held)
    (hb : b ∈ L.blocks) (P : u.allocator.IsPlaced x b user)
    (hin : y.LiesIn u.allocator.region.start (u.allocator.info b)) : y = x := by
  obtain ⟨c, hc, user', P'⟩ := R.serves.placed y hy
  obtain ⟨hlo, hhi⟩ := hin
  obtain ⟨hlo', hhi'⟩ := P'.liesIn
  simp only [info] at hlo hhi hlo' hhi'
  obtain rfl : b = c := (R.serves.layout.heap.valid.tiles.apart hb hc).resolve_right (by omega)
  exact R.serves.distinct hy hx (P'.pointer_eq_of_eq P)

theorem Runs.tells (R : Runs u labels L) :
    Tells u.allocator.walk u.held u.allocator.region.start := by
  rw [R.serves.layout.walk_eq]
  constructor
  case increasing =>
    rw [List.map_map]
    exact R.serves.layout.heap.valid.tiles.pairwise_lt
  case unlabelled =>
    intro i hi hu
    obtain ⟨b, -, rfl⟩ := List.mem_map.mp hi
    simp only [info] at hu ⊢
    rw [hu]
    rfl
  case labelled =>
    intro i hi hu
    obtain ⟨b, hb, rfl⟩ := List.mem_map.mp hi
    obtain ⟨x, hx, user, P⟩ := R.serves.covered R.inRange b hb hu
    refine ⟨x, hx, P.liesIn, ?_, fun y hy => R.eq_of_liesIn hx hy hb P⟩
    rw [R.info_eq hx hb P]
  case reported =>
    intro x hx
    obtain ⟨b, hb, user, P⟩ := R.serves.placed x hx
    exact ⟨_, List.mem_map_of_mem hb, P.used, P.liesIn⟩

theorem Runs.label_mem (R : Runs u labels L) (hx : x ∈ u.held) :
    x.label ∈ u.allocator.labels.toList := by
  obtain ⟨b, hb, user, P⟩ := R.serves.placed x hx
  have hlabel := R.labelled.carries x hx
  rw [P.labelOf?_eq R.serves.layout hb, label?] at hlabel
  exact Array.mem_toList_iff.mpr (Array.mem_of_getElem? hlabel)

end Allocator

namespace Usage.Reaches

open Usage.Reachable (smallArena smallUsage cacheLine)

variable {arena : Arena} {u : Usage} {said : List Label}

/--
Whatever was asked before, with positions for all places of the labels and words that do not change,
a walk tells the blocks in order and names for every allocation the label that it was made with.
Calls make allocations with the labels that they bring along and leave all others with their labels.
Labels of one address and length are recorded once.
-/
theorem walk_tells_labels (h : Reaches arena said u) (hr : arena.toRegion.InRange)
    (hs : Suits said.toFinset) :
    Tells u.allocator.walk u.held arena.start ∧
    (∀ call, ∀ y ∈ (u.after call).held, call.label? = some y.label ∨
      ∃ x ∈ u.held, (x.pointer = y.pointer ∨ call.pointer? = some x.pointer) ∧
        y.label = x.label) ∧
    (u.allocator.labels.toList.map Label.key).Nodup ∧
      (∀ x ∈ u.held, x.label ∈ u.allocator.labels.toList) ∧
        ∀ l ∈ u.allocator.labels.toList, l ∈ said := by
  obtain ⟨L, R⟩ := h.exists_runs hr hs fun l => List.mem_toFinset.mpr
  obtain ⟨hapart, hknown⟩ := R.labelled.knows
  have htells := R.tells
  rw [h.reachable.serves.2] at htells
  refine ⟨htells, fun call y => label_of_mem_after, hapart, fun x => R.label_mem, ?_⟩
  exact fun l hl => List.mem_toFinset.mp (hknown l hl)

/--
The small allocator is reset. A label comes back, and a null pointer is resized; then the first one
of the two is resized and moves.
-/
def movedUsage : Usage :=
  (((smallUsage.after .reset).after (.allocate 40 ⟨16, "second"⟩ .standard)).after
    (.reallocate 0 20)).after (.reallocate 4112 100)

theorem reaches_unused :
    Reaches smallArena [] ⟨⟨smallArena.toRegion, .create .zeroed 512, #[], 0, 0, 0, false⟩, []⟩ :=
  .start rfl

theorem reaches_movedUsage : Reaches smallArena
    [.resized, ⟨16, "second"⟩, ⟨16, "second"⟩, ⟨8, "first"⟩] movedUsage := by
  have hsmall : Reaches smallArena [⟨16, "second"⟩, ⟨8, "first"⟩] smallUsage :=
    @step _ _ _ (.allocate 40 ⟨16, "second"⟩ .standard)
      (@step _ _ _ (.allocate 100 ⟨8, "first"⟩ cacheLine) reaches_unused trivial) trivial
  have hreset := @step _ _ _ .reset hsmall trivial
  have hagain := @step _ _ _ (.allocate 40 ⟨16, "second"⟩ .standard) hreset trivial
  have hnull := @step _ _ _ (.reallocate 0 20) hagain (.inl rfl)
  exact @step _ _ _ (.reallocate 4112 100) hnull (.inr (by decide +kernel))

theorem walk_tells_labels_moved :
    movedUsage.held.map (·.pointer) = [4176, 4224] ∧
      movedUsage.allocator.walk.map BlockInfo.label =
        [none, some .resized, some ⟨16, "second"⟩, none] ∧
      Tells movedUsage.allocator.walk movedUsage.held 4096 ∧
      (movedUsage.allocator.labels.toList.map Label.key).Nodup := by
  have hs : Suits
      [.resized, ⟨16, "second"⟩, ⟨16, "second"⟩, ⟨8, "first"⟩].toFinset := {
    injOn := by simp [Set.InjOn, Label.key, Label.resized]
    card_lt := by decide }
  obtain ⟨htells, -, hapart, -⟩ := reaches_movedUsage.walk_tells_labels
    (by simp only [Region.InRange]; decide) hs
  exact ⟨by decide +kernel, by decide +kernel, htells, hapart⟩

def echoedUsage : Usage :=
  ((Usage.mk ⟨smallArena.toRegion, .create .zeroed 512, #[], 0, 0, 0, false⟩ []).after
    (.allocate 16 ⟨8, "reallocate"⟩ .standard)).after (.reallocate 0 16)

/-- The same words at two addresses are recorded twice. -/
theorem equal_words_recorded_twice :
    Reaches smallArena [.resized, ⟨8, "reallocate"⟩] echoedUsage ∧
      Suits [.resized, ⟨8, "reallocate"⟩].toFinset ∧
      ¬ (echoedUsage.allocator.labels.toList.map Label.words).Nodup := by
  refine ⟨?_, ⟨by simp [Set.InjOn, Label.key, Label.resized], by decide⟩, by decide +kernel⟩
  exact @step _ _ _ (.reallocate 0 16)
    (@step _ _ _ (.allocate 16 ⟨8, "reallocate"⟩ .standard) reaches_unused trivial) (.inl rfl)

end Usage.Reaches

end MemoryKit
