import MemoryKit.Proofs.Registry.Ledger

/-! # Handles that are destroyed once

Every handle is destroyed at most once, and once the flusher has gone away, every handle was. A
registry whose creation fails leaves no handle behind.
-/

namespace MemoryKit.Registry

variable {σ P H : Type}

/--
At every moment of every run the handles created are those destroyed and those held by records in
use, so that no handle is destroyed twice, nor while it is held, and none is left once the flusher
has gone away. A ledger tells of the same handles whenever no callback runs, and in particular when
a flush returns and when the flusher has gone away; both go as they do without one. A registry whose
creation fails has destroyed the handles that were created for it.
-/
theorem handles_destroyed_once (life : Lifetime σ P H) :
    (∀ events m, Run life events m →
      (ledger events).Balances (held m.registry.slots) ∧
      (m.activity = .gone → (ledger events).Balances [])) ∧
    (∀ events m, LedgerRun life events m → m.Keeps (ledger events)) ∧
    (∀ events f, LedgerRun life events ⟨f, .idle⟩ →
      f.lifetime.2.Balances (held f.registry.slots) ∧
      (∀ limit, let f' := (f.flush life.withLedger limit).state
        f'.lifetime.2.Balances (held f'.registry.slots) ∧
        ∃ events', LedgerRun life (events ++ events') ⟨f', .idle⟩) ∧
      let f' := (f.close life.withLedger).state
      f'.lifetime.2.Balances [] ∧ ∃ events', LedgerRun life (events ++ events') ⟨f', .gone⟩) ∧
    (∀ f : Flusher (σ × Ledger H) P H,
      (∀ limit, (f.flush life.withLedger limit).lift Flusher.forget =
        f.forget.flush life limit) ∧
      (f.close life.withLedger).lift Flusher.forget = f.forget.close life) ∧
    ∀ config s payloads,
      Accounted (Flusher.create life config s payloads)
        (Flusher.create life.withLedger config (s, {}) payloads)
        fun r => r.placeholders.toList.map Prod.snd := by
  refine ⟨?_, fun events m h => h.keeps, ?_, ?_, Flusher.accounted_create life⟩
  · intro events m h
    refine ⟨h.balances, fun hg => ?_⟩
    rw [← h.held_eq_nil hg]
    exact h.balances
  · intro events f h
    refine ⟨h.balances_flusher h.keeps, fun limit => ?_, ?_⟩
    · obtain ⟨events', h'⟩ := h.flush limit
      exact ⟨h'.balances_flusher h'.keeps, events', h'⟩
    · obtain ⟨events', h'⟩ := h.close
      have hbalances := h'.balances_flusher h'.keeps
      rw [h'.run.held_eq_nil rfl] at hbalances
      exact ⟨hbalances, events', h'⟩
  · intro f
    exact ⟨Flusher.forget_flush life f, Flusher.forget_close life f⟩

/-- Code that takes the payload for the handle, but no empty one. -/
def fussyLife : Lifetime Unit String String where
  create _ payload _ :=
    .done (if payload = "" then .error "nothing to make" else .ok payload, ())
  destroy _ _ := .done ()

def unmadePlaceholders : Placeholders String := ⟨"missing", "failed", ""⟩

theorem create_unmadePlaceholders :
    (Flusher.create fussyLife.withLedger { capacity := 2 } ((), {}) unmadePlaceholders).answer =
      .error (.placeholder "making" "nothing to make") := by
  rfl

theorem create_curiousLife_withLedger :
    (Flusher.create curiousLife.withLedger { capacity := 2 } ((), {})
      ⟨"missing", "failed", "making"⟩).answer = .ok smallRegistry :=
  (Flusher.accounted_create ..).answer_eq.trans create_smallRegistry

theorem handles_destroyed_once_closed :
    (∃ events f, LedgerRun curiousLife events ⟨f, .idle⟩ ∧
      "making" ∈ (f.close curiousLife.withLedger).state.lifetime.2.destroyed) ∧
      (Flusher.create fussyLife.withLedger { capacity := 2 } ((), {})
        unmadePlaceholders).state.2.destroyed = ["missing", "failed"] := by
  constructor
  · have h := (LedgerRun.start create_curiousLife_withLedger).step
      (.ask (.make fiveRequest) (.inl rfl))
    obtain ⟨-, hkeeps, hcalls, -, -⟩ := handles_destroyed_once curiousLife
    obtain ⟨-, hflush, -⟩ := hcalls _ _ h
    obtain ⟨-, events, h⟩ := hflush 1
    obtain ⟨-, -, hbalances, events', hgone⟩ := hcalls _ _ h
    have hledger := Moment.keeps_gone.mp (hkeeps _ _ hgone)
    refine ⟨_, _, h, ?_⟩
    have hperm := hbalances.perm
    rw [List.append_nil] at hperm
    refine hperm.mem_iff.mp ?_
    rw [hledger, ledger, created_append, created_append, created_append]
    have hmaking : smallRegistry.placeholders.making.2 = "making" := by decide +kernel
    let event : Event String String :=
      .created smallRegistry.placeholders.making.1.index (.ok smallRegistry.placeholders.making.2)
    refine List.mem_append_left _ (List.mem_append_left _ (List.mem_append_left _
      (List.mem_filterMap.mpr ⟨event, ?_, congrArg some hmaking⟩)))
    exact List.mem_map.mpr ⟨_, .tail _ (.tail _ (.head _)), rfl⟩
  · obtain ⟨-, -, -, -, hcreate⟩ := handles_destroyed_once fussyLife
    rw [(hcreate { capacity := 2 } () unmadePlaceholders).of_error _ create_unmadePlaceholders]
    rfl

end MemoryKit.Registry
