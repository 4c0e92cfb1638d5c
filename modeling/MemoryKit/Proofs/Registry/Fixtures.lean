import MemoryKit.Proofs.Registry.Working

/-! # What stays with a registry

The placeholders of a registry are never exchanged. It is closed from the moment on at which its
flusher begins to go away, and nothing opens it again.
-/

namespace MemoryKit.Registry

variable {σ P H : Type} {life : Lifetime σ P H} {events : List (Event P H)}
  {m m' : Moment σ P H} {r r' : Registry P H} {i : UInt32}

def fixtures (r : Registry P H) : Placeholders (Entry × H) × Bool := (r.placeholders, r.closed)

theorem fixtures_enqueueMake (r : Registry P H) (i : UInt32) :
    (r.enqueueMake i).state.fixtures = r.fixtures := by
  unfold enqueueMake
  dsimp only
  split <;> rfl

theorem fixtures_enqueueUnmake (r : Registry P H) (i : UInt32) :
    (r.enqueueUnmake i).state.fixtures = r.fixtures := by
  unfold enqueueUnmake
  dsimp only
  split <;> rfl

theorem fixtures_releaseSlot (r : Registry P H) (i : UInt32) :
    (r.releaseSlot i).state.fixtures = r.fixtures := by
  rw [releaseSlot_state]
  rfl

theorem fixtures_remake (r : Registry P H) (i : UInt32) (d : EntryRecord P H)
    (q : MakeRequest P) : (r.remake i d q).state.fixtures = r.fixtures := by
  unfold remake
  dsimp only
  split
  · rfl
  split
  · rfl
  split <;> exact fixtures_enqueueMake r i

theorem fixtures_start (r : Registry P H) (i : UInt32) (q : MakeRequest P) :
    (r.start i q).state.fixtures = r.fixtures := by
  have hqueued := fixtures_enqueueMake (r.modifyRecord i (·.started q)) i
  unfold start
  dsimp only
  split
  · exact hqueued
  · exact (fixtures_releaseSlot ..).trans hqueued

theorem fixtures_makeNew (r : Registry P H) (q : MakeRequest P) :
    (r.makeNew q).state.fixtures = r.fixtures := by
  unfold makeNew
  split
  · rfl
  split
  · exact fixtures_releaseSlot ..
  dsimp only
  split
  · exact fixtures_start ..
  · exact fixtures_releaseSlot ..

theorem fixtures_make (r : Registry P H) (q : MakeRequest P) :
    (r.make q).state.fixtures = r.fixtures := by
  unfold make
  split
  · rfl
  split
  · rfl
  split
  · exact fixtures_remake ..
  · exact fixtures_makeNew ..

theorem fixtures_unmake (r : Registry P H) (e : Entry) :
    (r.unmake e).state.fixtures = r.fixtures := by
  have hqueued := fixtures_enqueueUnmake (r.modifyRecord e.index EntryRecord.condemned) e.index
  unfold unmake
  split
  · rfl
  split
  · rfl
  split
  · rfl
  dsimp only
  split
  · rfl
  split <;> exact hqueued

theorem fixtures_serve (r : Registry P H) (q : Request P) :
    (r.serve q).state.fixtures = r.fixtures := by
  cases q with
  | make q => exact fixtures_make r q
  | unmake e => exact fixtures_unmake r e
  | _ => rfl

theorem fixtures_of_takeRequest {taken : Option (P × String)}
    (ht : r.takeRequest i = (taken, r')) : r'.fixtures = r.fixtures := by
  unfold takeRequest at ht
  split at ht
  · cases ht
    rfl
  split at ht <;> cases ht <;> rfl

theorem fixtures_of_giveUp {given : Option (Option H)} (hg : r.giveUp i = (given, r')) :
    r'.fixtures = r.fixtures := by
  unfold giveUp at hg
  split at hg
  · cases hg
    rfl
  split at hg <;> cases hg <;> rfl

theorem Flusher.fixtures_compactIfDue (f : Flusher σ P H) :
    f.compactIfDue.state.registry.fixtures = f.registry.fixtures := by
  unfold compactIfDue
  split <;> rfl

def Task.IsClose : Task → Prop
  | .close _ => True
  | .flush _ => False

def Callback.IsOfClose : Callback → Prop
  | .create .. => False
  | .destroy task => task.IsClose

/-- The flusher has begun to go away. -/
def Activity.IsLeaving : Activity σ P H → Prop
  | .idle => False
  | .working task => task.IsClose
  | .inside callback _ => callback.IsOfClose
  | .gone => True

@[simp] theorem Moment.isLeaving_destroying (f : Flusher σ P H) (task : Task)
    (handle : Option H) :
    (Moment.destroying life f task handle).activity.IsLeaving ↔ task.IsClose := by
  cases handle <;> rfl

/-- A step of a run begins to close the registry, or it leaves it as open as it was. -/
theorem Step.fixtures (hs : Step life m events m') :
    m'.registry.fixtures = m.registry.fixtures ∧
        (m'.activity.IsLeaving ↔ m.activity.IsLeaving) ∨
      m'.registry.fixtures = (m.registry.placeholders, true) ∧ m'.activity.IsLeaving := by
  cases hs with
  | ask q _ => exact .inl ⟨fixtures_serve _ q, .rfl⟩
  | askInside => exact .inl ⟨fixtures_serve _ _, .rfl⟩
  | skipMake _ ht | make _ ht =>
    have htaken := fixtures_of_takeRequest ht
    exact .inl ⟨htaken, .rfl⟩
  | skipUnmake _ _ hg =>
    have hkept := fixtures_of_giveUp hg
    exact .inl ⟨hkept, .rfl⟩
  | unmake _ _ hg =>
    have hgiven := fixtures_of_giveUp hg
    rw [Moment.registry_destroying, Moment.isLeaving_destroying]
    exact .inl ⟨(fixtures_releaseSlot ..).trans hgiven, .rfl⟩
  | finish => exact .inl ⟨Flusher.fixtures_compactIfDue _, .rfl⟩
  | succeed | closeSlot =>
    rw [Moment.registry_destroying, Moment.isLeaving_destroying]
    exact .inl ⟨rfl, .rfl⟩
  | close => exact .inr ⟨rfl, trivial⟩
  | flush | exhaust | note | fail | resume | skipSlot | vanish => exact .inl ⟨rfl, .rfl⟩

theorem Step.placeholders_eq (hs : Step life m events m') :
    m'.registry.placeholders = m.registry.placeholders := by
  obtain ⟨h, -⟩ | ⟨h, -⟩ := hs.fixtures <;> exact congrArg Prod.fst h

theorem Step.fixed_eq (hs : Step life m events m') : m'.registry.fixed = m.registry.fixed := by
  rw [fixed, hs.placeholders_eq, fixed]

theorem Step.open_of_open (hs : Step life m events m') (ho : m'.registry.closed = false) :
    m.registry.closed = false := by
  obtain ⟨h, -⟩ | ⟨h, -⟩ := hs.fixtures
  · exact (congrArg Prod.snd h).symm.trans ho
  · rw [show m'.registry.closed = true from congrArg Prod.snd h] at ho
    cases ho

theorem Flusher.closed_of_create {config : RegistryConfig} {s : σ} {payloads : Placeholders P}
    (h : (create life config s payloads).answer = .ok r) : r.closed = false := by
  unfold create at h
  split at h
  · cases h
  · dsimp only at h
    split at h <;> cases h
    rfl

theorem Run.closed_iff (h : Run life events m) :
    m.registry.closed = true ↔ m.activity.IsLeaving := by
  induction h with
  | start h =>
    rw [Moment.registry_mk, Flusher.closed_of_create h]
    exact iff_of_false Bool.false_ne_true id
  | step _ hs ih =>
    obtain ⟨hf, hl⟩ | ⟨hf, hl⟩ := hs.fixtures
    · exact (Eq.congr_left (congrArg Prod.snd hf)).trans (ih.trans hl.symm)
    · exact iff_of_true (congrArg Prod.snd hf) hl

end MemoryKit.Registry
