import MemoryKit.Proofs.Registry.Flushing
import MemoryKit.Proofs.Registry.Opening
import MemoryKit.Proofs.Registry.Run

/-! # What the lookup of a registry says

The lookup and the records agree at every moment of every run. So `get` and `len` tell of the
records in use, between the calls as well as inside of callbacks.
-/

namespace MemoryKit.Registry

variable {σ P H : Type} {life : Lifetime σ P H} {events : List (Event P H)}
  {m m' : Moment σ P H}

@[simp] theorem Moment.registry_mk (f : Flusher σ P H) (a : Activity σ P H) :
    (Moment.mk f a).registry = f.registry := rfl

@[simp] theorem Moment.registry_destroying (f : Flusher σ P H) (task : Task) (handle : Option H) :
    (Moment.destroying life f task handle).registry = f.registry := by
  cases handle <;> rfl

theorem Step.agrees (hs : Step life m events m') (h : m.registry.Agrees) : m'.registry.Agrees := by
  cases hs with
  | ask q _ => exact h.serve q
  | askInside => exact h.serve _
  | @skipMake f _ i r _ ht =>
    have h' := (h.of_kept (kept_dequeueMake f.registry)).takeRequest i
    rwa [ht] at h'
  | @make f _ i _ _ r _ ht =>
    have h' := (h.of_kept (kept_dequeueMake f.registry)).takeRequest i
    rwa [ht] at h'
  | skipUnmake _ _ hg =>
    exact ((h.of_kept (kept_dequeueMake _)).of_kept (kept_dequeueUnmake _)).of_giveUp_none hg
  | unmake _ _ hg =>
    rw [Moment.registry_destroying]
    exact ((h.of_kept (kept_dequeueMake _)).of_kept (kept_dequeueUnmake _)).of_giveUp_some hg
  | exhaust => exact (h.of_kept (kept_dequeueMake _)).of_kept (kept_dequeueUnmake _)
  | finish => exact Flusher.agrees_compactIfDue h
  | @succeed f i _ _ handle =>
    rw [Moment.registry_destroying]
    exact h.installHandle i handle
  | @fail f i => exact h.noteFailure i
  | close => exact h.of_kept ⟨rfl, rfl, rfl⟩
  | @closeSlot f i =>
    rw [Moment.registry_destroying]
    exact h.modifyRecord fun _ _ => rfl
  | flush | note | resume | skipSlot | vanish => exact h

theorem Run.agrees (h : Run life events m) : m.registry.Agrees := by
  induction h with
  | start h => exact Flusher.agrees_of_create h
  | step _ hs ih => exact hs.agrees ih

/--
At every moment of every run, `get` finds the one record that is in use under a key, two records in
use have different keys, a request to make a key answers with the entry that `get` then finds, and
`len` counts the records in use that are no placeholders.
-/
theorem Run.lookup_tells_records (h : Run life events m) :
    (∀ key ≠ nullKey, ∀ e, m.registry.get key = some e ↔
      (∃ d, InUse m.registry.slots e.index d ∧ d.key = key ∧ d.generation = e.generation) ∧
        ∀ i d, InUse m.registry.slots i d → d.key = key → i = e.index) ∧
    (∀ key ≠ nullKey, m.registry.get key = none ↔
      ∀ i d, InUse m.registry.slots i d → d.key ≠ key) ∧
    (∀ i j d d', InUse m.registry.slots i d → InUse m.registry.slots j d' → d.key = d'.key →
      i = j) ∧
    (∀ q e, (m.registry.make q).answer = .ok e → (m.registry.make q).state.get q.key = some e) ∧
    m.registry.len = usedCount m.registry.slots := by
  have hr := h.agrees
  obtain ⟨free, ha⟩ := h.agrees
  refine ⟨fun key _ e => ?_, fun key _ => hr.get_eq_none_iff, fun i j d d' hu hu' hk => ?_,
    fun q => (hr.made_make q).get_eq, hr.len_eq⟩
  · rw [hr.get_eq_some_iff]
    constructor
    · rintro ⟨d, hu, hk, hg⟩
      exact ⟨⟨d, hu, hk, hg⟩, fun i d' hu' hk' => ha.eq_of_key_eq hu' hu (hk'.trans hk.symm)⟩
    · rintro ⟨hd, -⟩
      exact hd
  · exact ha.eq_of_key_eq hu hu' hk

/-- Code that takes the payload for the handle and looks up a key before. -/
def curiousLife : Lifetime Unit String String where
  create _ payload _ := .ask (.get 5) fun _ => .done (.ok payload, ())
  destroy _ _ := .done ()

def smallRegistry : Registry String String :=
  (Flusher.create curiousLife { capacity := 2 } ()
    ⟨"missing", "failed", "making"⟩).answer.toOption.get (by decide +kernel)

def fiveRequest : MakeRequest String := ⟨5, "five", "payload", none, false⟩

theorem eq_ok_of_isSome {ε α : Type} (x : Except ε α) (h : x.toOption.isSome = true) :
    x = .ok (x.toOption.get h) := by
  cases x with
  | ok r => rfl
  | error e => cases h

theorem create_smallRegistry :
    (Flusher.create curiousLife { capacity := 2 } () ⟨"missing", "failed", "making"⟩).answer =
      .ok smallRegistry := eq_ok_of_isSome _ _

theorem exists_run_inside :
    ∃ events f s, Run curiousLife events ⟨f, .inside (.create 3 "five" 0) s⟩ := by
  have hd : (smallRegistry.make fiveRequest).state.dequeueMake.answer = some 3 := by
    decide +kernel
  have ht : ((smallRegistry.make fiveRequest).state.dequeueMake.state.takeRequest 3).1 =
      some ("payload", "five") := by
    decide +kernel
  have h := ((Run.start create_smallRegistry).step (.ask (.make fiveRequest) (.inl rfl))).step
    (.flush 1)
  exact ⟨_, _, _, h.step (.make hd (Prod.ext ht rfl))⟩

theorem Run.lookup_tells_records_inside :
    ∃ events f s, Run curiousLife events ⟨f, .inside (.create 3 "five" 0) s⟩ ∧
      (∀ e, f.registry.get 5 = some e ↔
        (∃ d, InUse f.registry.slots e.index d ∧ d.key = 5 ∧ d.generation = e.generation) ∧
          ∀ i d, InUse f.registry.slots i d → d.key = 5 → i = e.index) ∧
      f.registry.len = usedCount f.registry.slots := by
  obtain ⟨events, f, s, h⟩ := exists_run_inside
  obtain ⟨hget, -, -, -, hlen⟩ := Run.lookup_tells_records h
  exact ⟨events, f, s, h, hget 5 (by decide), hlen⟩

end MemoryKit.Registry
