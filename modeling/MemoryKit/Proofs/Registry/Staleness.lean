import MemoryKit.Proofs.Registry.Showing

/-! # Entries that are stale

The generation of a record counts how often its slot was given up. An entry that was unmade carries
a generation that has passed, so that nothing finds it again before the count begins anew. An entry
that was answered and not unmade carries the generation of a record in use.
-/

namespace MemoryKit.Registry

variable {σ P H : Type} {life : Lifetime σ P H} {passages : List (Passage life)}
  {events : List (Event P H)} {m m' : Moment σ P H} {r r' : Registry P H} {i : UInt32}
  {d d' : EntryRecord P H} {e : Entry} {tries : List (Except String H)} {closed : Bool}

theorem freed_append_singleton (i : UInt32) (passages : List (Passage life)) (p : Passage life) :
    freed i (passages ++ [p]) =
      freed i passages + p.before.unmaking?.toList.countP fun e => e.index == i := by
  rw [freed, unmade_append_singleton, List.countP_append, freed]

theorem History.generation_eq (h : History life passages m)
    (hd : m.registry.record? i = some d) : d.generation = .ofNat (freed i passages) := by
  induction h generalizing d with
  | start h => exact ((Flusher.isNew_of_create h).record i d hd).1
  | pass p h ih =>
    obtain ⟨_, hrun⟩ := h.exists_run
    obtain ⟨d₀, hd₀, hfate⟩ := hrun.exists_fate_of_record p.step hd
    have hgeneration := ih hd₀
    rw [freed_append_singleton]
    cases hfate with
    | turn ht hu =>
      have hnone : (p.before.unmaking?.toList.countP fun e => e.index == i) = 0 :=
        List.countP_eq_zero.mpr fun e he hi => hu e (Option.mem_toList.mp he) (beq_iff_eq.mp hi)
      rw [hnone, ht.generation_eq]
      exact hgeneration
    | ends _ _ hu =>
      have hone : (p.before.unmaking?.toList.countP fun e => e.index == i) = 1 := by simp [hu]
      rw [hone, UInt32.ofNat_add, ← hgeneration]
      rfl

theorem Effect.generation_eq (he : Effect r r') (hd' : r'.record? i = some d') :
    ∃ d, r.record? i = some d ∧ d'.generation = d.generation := by
  have hrel : Option.Rel (fun d d' => d'.generation = d.generation) (r.record? i)
      (r'.record? i) := by
    cases he with
    | none hr => exact hr.rel fun _ => rfl
    | again _ _ _ _ hr | new _ _ _ _ hr | condemn _ _ _ hr =>
      exact hr.rel (fun _ => rfl) fun _ _ => rfl
  rw [hd'] at hrel
  exact exists_of_rel_some_right hrel

end MemoryKit.Registry
