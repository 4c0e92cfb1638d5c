import MemoryKit.Proofs.Registry.Ledger
import MemoryKit.Proofs.Registry.Showing

/-! # Handles that can be seen

What an entry shows is held by a record: its own, or that of a placeholder. A handle leaves its
record before it is handed over to be destroyed, so that a handle that can be seen is none of those
that were destroyed, wherever the look comes from.
-/

namespace MemoryKit.Registry

open scoped List

variable {σ P H : Type} {life : Lifetime σ P H} {events : List (Event P H)} {m : Moment σ P H}
  {r : Registry P H} {i : UInt32} {d : EntryRecord P H} {e : Entry} {handle : H}

theorem Agrees.mem_handles (ha : r.Agrees) (hd : r.record? i = some d)
    (hh : d.handle = some handle) : handle ∈ handles r.slots := by
  obtain ⟨free, ha⟩ := ha
  exact List.mem_filterMap.mpr ⟨d, (SlotPool.mem_values_iff ha.stack.capacity_le).mpr ⟨i, hd⟩, hh⟩

theorem Run.mem_handles_of_placeholder (h : Run life events m) (ho : m.registry.closed = false)
    {p : Entry × H} (hp : p ∈ m.registry.placeholders.toList) :
    p.2 ∈ handles m.registry.slots := by
  obtain ⟨d, hd, -, -, hh⟩ := h.exists_placeholder hp
  exact h.agrees.mem_handles hd (hh ho)

theorem exists_of_value (hv : r.value e = some handle) :
    r.closed = false ∧ ∃ d, r.find? e = some d := by
  unfold value at hv
  split at hv
  · cases hv
  · next ho =>
    obtain ⟨d, hd, -⟩ := Option.map_eq_some_iff.mp hv
    exact ⟨Bool.not_eq_true _ ▸ ho, d, hd⟩

theorem Run.mem_handles_of_value (h : Run life events m)
    (hv : m.registry.value e = some handle) : handle ∈ handles m.registry.slots := by
  obtain ⟨ho, d, hd⟩ := exists_of_value hv
  rw [value_of_find? ho hd] at hv
  cases hh : d.handle with
  | some held =>
    obtain rfl : held = handle := by simpa [hh] using hv
    exact h.agrees.mem_handles (find?_eq_some_iff.mp hd).1.1 hh
  | none =>
    rw [hh, Option.getD_none, Option.some.injEq] at hv
    rw [← hv]
    split
    · exact h.mem_handles_of_placeholder ho (.tail _ (.head _))
    · exact h.mem_handles_of_placeholder ho (.tail _ (.tail _ (.head _)))

theorem Run.exists_rest_of_value (h : Run life events m)
    (hv : m.registry.value e = some handle) :
    ∃ rest, created events ~ handle :: (destroyed events ++ rest) := by
  obtain ⟨front, rest, hheld⟩ := List.append_of_mem (h.mem_handles_of_value hv)
  refine ⟨front ++ rest, ?_⟩
  calc created events ~ destroyed events ++ handles m.registry.slots := h.balanced
    _ = destroyed events ++ front ++ handle :: rest := by rw [hheld, List.append_assoc]
    _ ~ handle :: (destroyed events ++ front ++ rest) := List.perm_middle
    _ = handle :: (destroyed events ++ (front ++ rest)) := by rw [List.append_assoc]

theorem Run.notMem_destroyed_of_value (h : Run life events m)
    (hv : m.registry.value e = some handle) (hnd : (created events).Nodup) :
    handle ∉ destroyed events := by
  obtain ⟨rest, hperm⟩ := h.exists_rest_of_value hv
  intro hmem
  exact (List.nodup_cons.mp (hperm.nodup_iff.mp hnd)).1 (List.mem_append_left _ hmem)

theorem Run.value_of_isLeaving (h : Run life events m) (hl : m.activity.IsLeaving) (e : Entry) :
    m.registry.value e = none := by
  rw [value, h.closed_iff.mpr hl, if_pos rfl]

/--
At every moment of every run, a handle that an entry shows is among those created besides the ones
that were handed over to be destroyed; so if no two of the handles created are equal, it was not
handed over. Once the flusher has begun to go away, no entry shows anything, and no entry does when
it has gone away. What was handed over is what a ledger tells, as it does when a flush returns.
-/
theorem destroyed_not_shown (life : Lifetime σ P H) :
    (∀ events m, Run life events m →
      (∀ e handle, m.registry.value e = some handle →
        (∃ rest, created events ~ handle :: (destroyed events ++ rest)) ∧
        ((created events).Nodup → handle ∉ destroyed events)) ∧
      (m.activity.IsLeaving → ∀ e, m.registry.value e = none)) ∧
    (∀ events f, Run life events ⟨f, .idle⟩ → ∀ e, (f.close life).state.registry.value e = none) ∧
    (∀ events m, LedgerRun life events m → m.Keeps (ledger events)) ∧
    ∀ events f, LedgerRun life events ⟨f, .idle⟩ → ∀ limit e handle,
      let f' := (f.flush life.withLedger limit).state
      f'.registry.value e = some handle → f'.lifetime.2.created.Nodup →
        handle ∉ f'.lifetime.2.destroyed := by
  refine ⟨?_, ?_, fun events m h => h.keeps, ?_⟩
  · intro events m h
    constructor
    · intro e handle hv
      exact ⟨h.exists_rest_of_value hv, h.notMem_destroyed_of_value hv⟩
    · exact h.value_of_isLeaving
  · intro events f h e
    obtain ⟨events', h'⟩ := h.close
    exact h'.value_of_isLeaving trivial e
  · intro events f h limit e handle f' hv hnd
    obtain ⟨events', h'⟩ := h.flush limit
    have hledger : f'.lifetime.2 = _ := Moment.keeps_idle.mp h'.keeps
    rw [hledger] at hnd ⊢
    exact h'.run.notMem_destroyed_of_value hv hnd

/-- A run in which the first handle of an entry is being destroyed once it has a second one. -/
theorem exists_run_replacing : ∃ events f s,
    Run promptLife events ⟨f, .inside (.destroy (.flush 0)) s⟩ ∧ (created events).Nodup ∧
      "first" ∈ destroyed events ∧ f.registry.value ⟨3, 0⟩ = some "second" := by
  have h := Run.start create_promptRegistry
  have h := h.step (.ask (.make (forcedRequest (.ok "first"))) (.inl rfl))
  have h := h.step (.flush 1)
  have h := h.step (@Step.make _ _ _ _ _ 0 3 (.ok "first") "five" _ (by decide +kernel)
    (Prod.ext (by decide +kernel) rfl))
  have h := h.step (.succeed_replacing none (by decide +kernel))
  have h := h.step .finish
  have h := h.step (.ask (.make (forcedRequest (.ok "second"))) (.inl rfl))
  have h := h.step (.flush 1)
  have h := h.step (@Step.make _ _ _ _ _ 0 3 (.ok "second") "five" _ (by decide +kernel)
    (Prod.ext (by decide +kernel) rfl))
  have h := h.step (.succeed_replacing (some "first") (by decide +kernel))
  exact ⟨_, _, _, h, by decide +kernel, by decide +kernel, by decide +kernel⟩

/--
While the first handle is destroyed, the entry shows the second one, which was not. A placeholder is
shown until its flusher has gone away.
-/
theorem destroyed_not_shown_replacing :
    (∃ events f s, Run promptLife events ⟨f, .inside (.destroy (.flush 0)) s⟩ ∧
      "first" ∈ destroyed events ∧ f.registry.value ⟨3, 0⟩ = some "second" ∧
      "second" ∉ destroyed events) ∧
    ∃ events f, Run promptLife events ⟨f, .idle⟩ ∧ f.registry.value ⟨0, 0⟩ = some "missing" ∧
      (f.close promptLife).state.registry.value ⟨0, 0⟩ = none := by
  obtain ⟨hshown, hclosed, -, -⟩ := destroyed_not_shown promptLife
  constructor
  · obtain ⟨events, f, s, h, hnd, hfirst, hv⟩ := exists_run_replacing
    exact ⟨events, f, s, h, hfirst, hv, ((hshown _ _ h).1 _ _ hv).2 hnd⟩
  · have h := Run.start create_promptRegistry
    exact ⟨_, _, h, by decide +kernel, hclosed _ _ h _⟩

end MemoryKit.Registry
