import Mathlib.Data.List.Nodup
import MemoryKit.Proofs.Allocator.Resizing

/-! # Serving callers

While an allocator serves its callers, every allocation that they hold lies in a used block of its
own. Each request trades at most one block for another and drops or adds the holding that goes with
it; all other holdings stay in place.
-/

namespace MemoryKit.Allocator

open Heap

variable {a a' : Allocator} {held held' : List Holding} {L L' : Layout} {b c : Block}
  {user user' bytes : Nat} {x y : Holding} {gone new : Option Block}
  {dropped added : Option Holding}

/-- The allocations that are held lie in used blocks of a settled layout. -/
structure Serves (a : Allocator) (held : List Holding) (L : Layout) : Prop where
  layout : a.HasLayout L
  placed : ∀ x ∈ held, ∃ b ∈ L.blocks, ∃ user, a.IsPlaced x b user
  nodup : (held.map Holding.pointer).Nodup
  /-- A used block can only be lost at the end of the range of addresses. -/
  covered : a.region.InRange →
    ∀ b ∈ L.blocks, b.used = true → ∃ x ∈ held, ∃ user, a.IsPlaced x b user

theorem Serves.distinct (S : Serves a held L) (hx : x ∈ held) (hy : y ∈ held)
    (hp : x.pointer = y.pointer) : x = y :=
  List.inj_on_of_nodup_map S.nodup hx hy hp

structure Moves (a : Allocator) (held : List Holding) (L : Layout) (a' : Allocator)
    (held' : List Holding) (L' : Layout) (gone new : Option Block)
    (dropped added : Option Holding) : Prop where
  trades : Trades a.heap L a'.heap L' gone new
  layout : a'.HasLayout L'
  region_eq : a'.region = a.region
  /-- One holding is exchanged for another. -/
  exchange : ∃ kept, held.Perm (dropped.toList ++ kept) ∧ held'.Perm (added.toList ++ kept)
  gone_iff : ∀ y ∈ held, ∀ c ∈ L.blocks, ∀ user, a.IsPlaced y c user → (c ∈ gone ↔ y ∈ dropped)
  added_placed : ∀ y ∈ added, ∃ c ∈ new, ∃ user, a'.IsPlaced y c user
  new_covered : a.region.InRange → ∀ c ∈ new, ∃ y ∈ added, ∃ user, a'.IsPlaced y c user
  /-- A block that nobody gets is not entered in the accounts. -/
  books : a.region.InRange → KeepsBooks a L a' L'

namespace Moves

theorem of_not_dropped (M : Moves a held L a' held' L' gone new dropped added) (hy : y ∈ held)
    (hd : y ∉ dropped) (hc : c ∈ L.blocks) (P : a.IsPlaced y c user) :
    c ∈ L'.blocks ∧ a'.IsPlaced y c user :=
  P.of_trades hc M.trades M.region_eq fun hg => hd ((M.gone_iff y hy c hc user P).mp hg)

theorem pointer_ne (M : Moves a held L a' held' L' gone new dropped added) (S : Serves a held L)
    (hx : x ∈ held) (hd : x ∉ dropped) (hy : y ∈ added) : x.pointer ≠ y.pointer := by
  intro hp
  obtain ⟨b, hb, user, P⟩ := S.placed x hx
  obtain ⟨hb', P'⟩ := M.of_not_dropped hx hd hb P
  obtain ⟨c, hc, user', Pc⟩ := M.added_placed y hy
  obtain rfl : new = some c := hc
  obtain rfl := P'.block_eq Pc M.layout hb' M.trades.new_mem hp
  exact hd ((M.gone_iff x hx b hb user P).mp ((M.trades.fresh b rfl).2 hb))

theorem mem_iff (M : Moves a held L a' held' L' gone new dropped added) (S : Serves a held L) :
    y ∈ held' ↔ y ∈ held ∧ y ∉ dropped ∨ y ∈ added := by
  obtain ⟨kept, hheld, hheld'⟩ := M.exchange
  have hnd := List.Nodup.of_map _ S.nodup
  rw [hheld.nodup_iff, List.nodup_append'] at hnd
  rw [hheld'.mem_iff, hheld.mem_iff, List.mem_append, List.mem_append, Option.mem_toList,
    Option.mem_toList, or_comm]
  refine or_congr_left ⟨fun hy => ⟨Or.inr hy, fun hd => ?_⟩, fun ⟨hy, hd⟩ => hy.resolve_left hd⟩
  exact hnd.2.2 (Option.mem_toList.mpr hd) hy

theorem serves (M : Moves a held L a' held' L' gone new dropped added) (S : Serves a held L) :
    Serves a' held' L' where
  layout := M.layout
  placed x hx := by
    rcases (M.mem_iff S).mp hx with ⟨hx, hd⟩ | hx
    · obtain ⟨b, hb, user, P⟩ := S.placed x hx
      obtain ⟨hb', P'⟩ := M.of_not_dropped hx hd hb P
      exact ⟨b, hb', user, P'⟩
    · obtain ⟨b, hb, user, P⟩ := M.added_placed x hx
      obtain rfl : new = some b := hb
      exact ⟨b, M.trades.new_mem, user, P⟩
  nodup := by
    obtain ⟨kept, hheld, hheld'⟩ := M.exchange
    have hnd := S.nodup
    have hnd' := List.Nodup.of_map _ S.nodup
    rw [(hheld.map _).nodup_iff, List.map_append] at hnd
    rw [hheld.nodup_iff, List.nodup_append'] at hnd'
    rw [(hheld'.map _).nodup_iff, List.map_append]
    cases hadded : added with
    | none => exact hnd.of_append_right
    | some y =>
      refine List.nodup_cons.mpr ⟨fun hp => ?_, hnd.of_append_right⟩
      obtain ⟨x, hx, hp⟩ := List.mem_map.mp hp
      have hd : x ∉ dropped := fun hd => hnd'.2.2 (Option.mem_toList.mpr hd) hx
      exact M.pointer_ne S (hheld.mem_iff.mpr (List.mem_append_right _ hx)) hd hadded hp
  covered hr b hb hu := by
    rw [M.region_eq] at hr
    rcases (M.trades.used b hu).mp hb with ⟨hb, hg⟩ | hb
    · obtain ⟨x, hx, user, P⟩ := S.covered hr b hb hu
      have hd : x ∉ dropped := fun hd => hg ((M.gone_iff x hx b hb user P).mpr hd)
      exact ⟨x, (M.mem_iff S).mpr (Or.inl ⟨hx, hd⟩), user, (M.of_not_dropped hx hd hb P).2⟩
    · obtain ⟨x, hx, user, P⟩ := M.new_covered hr b hb
      exact ⟨x, (M.mem_iff S).mpr (Or.inr hx), user, P⟩

theorem same (S : Serves a held L) (hstate : a' = a) (hheld : held' = held) :
    Moves a held L a' held' L none none none none := by
  subst hstate
  exact ⟨.same S.layout.heap S.layout.settled, S.layout, rfl, ⟨held, .rfl, .of_eq hheld⟩, by simp,
    by simp, by simp, fun _ => .same rfl rfl rfl rfl rfl⟩

theorem lost {heap : Heap} (S : Serves a held L) (hr : ¬ a.region.InRange)
    (T : Trades a.heap L heap L' none (some b)) :
    Moves a held L { a with heap } held L' none (some b) none none :=
  ⟨T, S.layout.of_trades T rfl S.layout.labels_le, rfl, ⟨held, .rfl, .rfl⟩, by simp, by simp,
    fun h => absurd h hr, fun h => absurd h hr⟩

end Moves

variable {u : Usage}

theorem Serves.moves_allocate (S : Serves u.allocator u.held L) (bytes : Nat) (label : Label)
    (options : AllocationOptions) :
    ∃ L' new added, Moves u.allocator u.held L (u.after (.allocate bytes label options)).allocator
      (u.after (.allocate bytes label options)).held L' none new none added := by
  have h := S.layout.allocates bytes label options
  unfold Usage.after Allocator.allocate
  dsimp only
  generalize u.allocator.allocateAligned bytes label options.alignment = r at *
  cases h with
  | refused => exact ⟨L, none, none, .same S rfl rfl⟩
  | lost hr T => exact ⟨_, _, none, .lost S hr T⟩
  | @placed a' pointer L' b user log H hregion _ T P K =>
    refine ⟨L', some b, some ⟨pointer, bytes, label, options⟩, T, H, hregion,
      ⟨u.held, .rfl, .rfl⟩, by simp, ?_, ?_, fun _ => K⟩
    · rintro y hy
      obtain rfl := Option.some.inj hy
      exact ⟨b, rfl, user, P label⟩
    · rintro - c hc
      obtain rfl := Option.some.inj hc
      exact ⟨_, rfl, user, P label⟩

theorem after_reallocate_zero (u : Usage) (bytes : Nat) :
    u.after (.reallocate 0 bytes) = u.after (.allocate bytes .resized .standard) := by
  simp only [Usage.after, Allocator.reallocate, if_true]

theorem Serves.gone_iff (S : Serves a held L) (hx : x ∈ held) (hb : b ∈ L.blocks)
    (P : a.IsPlaced x b user) : ∀ y ∈ held, ∀ c ∈ L.blocks, ∀ user', a.IsPlaced y c user' →
      (c ∈ some b ↔ y ∈ some x) := by
  intro y hy c hc user' Py
  rw [Option.mem_some_iff, Option.mem_some_iff]
  constructor
  · rintro rfl
    exact S.distinct hx hy (P.pointer_eq_of_eq Py)
  · rintro rfl
    exact P.block_eq Py S.layout hb hc rfl

theorem Serves.exists_split (S : Serves a held L) (hx : x ∈ held) :
    ∃ s t, held = s ++ x :: t ∧ ∀ y, y ∈ s ∨ y ∈ t → y.pointer ≠ x.pointer := by
  obtain ⟨s, t, rfl⟩ := List.append_of_mem hx
  have hnd := S.nodup
  rw [(List.perm_middle.map _).nodup_iff, List.map_cons, List.nodup_cons, List.mem_map] at hnd
  exact ⟨s, t, rfl, fun y hy hp => hnd.1 ⟨y, List.mem_append.mpr hy, hp⟩⟩

theorem Serves.exchange_resized (S : Serves a held L) (hx : x ∈ held) (moved bytes : Nat) :
    ∃ kept, held.Perm (x :: kept) ∧
      (held.map (·.resized x.pointer moved bytes)).Perm
        ({ x with pointer := moved, bytes } :: kept) := by
  obtain ⟨s, t, rfl, hne⟩ := S.exists_split hx
  have hself : x.resized x.pointer moved bytes = { x with pointer := moved, bytes } := if_pos rfl
  have hs : s.map (·.resized x.pointer moved bytes) = s.map id :=
    List.map_congr_left fun y hy => if_neg (hne y (Or.inl hy))
  have ht : t.map (·.resized x.pointer moved bytes) = t.map id :=
    List.map_congr_left fun y hy => if_neg (hne y (Or.inr hy))
  refine ⟨s ++ t, List.perm_middle, ?_⟩
  rw [List.map_append, List.map_cons, hself, hs, ht, List.map_id, List.map_id]
  exact List.perm_middle

theorem Serves.exchange_filter (S : Serves a held L) (hx : x ∈ held) :
    ∃ kept, held.Perm (x :: kept) ∧ (held.filter (·.pointer != x.pointer)).Perm kept := by
  obtain ⟨s, t, rfl, hne⟩ := S.exists_split hx
  have hs : s.filter (·.pointer != x.pointer) = s :=
    List.filter_eq_self.mpr fun y hy => bne_iff_ne.mpr (hne y (Or.inl hy))
  have ht : t.filter (·.pointer != x.pointer) = t :=
    List.filter_eq_self.mpr fun y hy => bne_iff_ne.mpr (hne y (Or.inr hy))
  refine ⟨s ++ t, List.perm_middle, .of_eq ?_⟩
  rw [List.filter_append, List.filter_cons, hs, ht, bne_self_eq_false, if_neg Bool.false_ne_true]

theorem Serves.moves_reallocate (S : Serves u.allocator u.held L) (hx : x ∈ u.held) (bytes : Nat) :
    ∃ L' gone new dropped added, Moves u.allocator u.held L
      (u.after (.reallocate x.pointer bytes)).allocator (u.after (.reallocate x.pointer bytes)).held
        L' gone new dropped added ∧ ∀ y ∈ dropped, y = x := by
  obtain ⟨b, hb, user, P⟩ := S.placed x hx
  have h := P.resizes S.layout hb bytes
  unfold Usage.after
  simp only [P.pointer_ne_zero, if_false]
  generalize u.allocator.reallocate x.pointer bytes = r at *
  cases h with
  | refused => exact ⟨L, none, none, none, none, .same S rfl rfl, by simp⟩
  | lost hr T => exact ⟨_, _, _, none, none, .lost S hr T, by simp⟩
  | @placed a' pointer L' b' user' log H hregion T P' _ K =>
    refine ⟨L', some b, some b', some x, some { x with pointer, bytes },
      ⟨T, H, hregion, S.exchange_resized hx pointer bytes, S.gone_iff hx hb P, ?_, ?_, fun _ => K⟩,
      by simp⟩
    · rintro y hy
      obtain rfl := Option.some.inj hy
      exact ⟨b', rfl, user', P'⟩
    · rintro - c hc
      obtain rfl := Option.some.inj hc
      exact ⟨_, rfl, user', P'⟩

theorem Serves.moves_deallocate (S : Serves u.allocator u.held L) (hx : x ∈ u.held) :
    ∃ L' gone dropped, Moves u.allocator u.held L (u.after (.deallocate x.pointer)).allocator
      (u.after (.deallocate x.pointer)).held L' gone none dropped none ∧ ∀ y ∈ dropped, y = x := by
  obtain ⟨b, hb, user, P⟩ := S.placed x hx
  unfold Usage.after
  dsimp only
  by_cases hp : u.allocator.poisoned = true
  · have herror : u.allocator.deallocate x.pointer = (.error .corrupted, u.allocator) := by
      unfold deallocate
      rw [if_neg P.pointer_ne_zero, if_pos hp]
    rw [herror]
    exact ⟨L, none, none, .same S rfl rfl, by simp⟩
  · obtain ⟨L', T, H, K, -⟩ := S.layout.freeBlock hb P.used
    rw [P.deallocate_eq S.layout hb (Bool.eq_false_iff.mpr hp)]
    exact ⟨L', some b, some x,
      ⟨T, H, rfl, S.exchange_filter hx, S.gone_iff hx hb P, by simp, by simp, fun _ => K⟩, by simp⟩

end MemoryKit.Allocator
