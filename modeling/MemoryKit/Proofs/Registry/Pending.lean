import MemoryKit.Proofs.Registry.Founding
import MemoryKit.Proofs.Registry.Working

/-! # Requests that wait

No request is lost, doubled or turned away for lack of room in a queue, whatever callbacks ask for
while a handle is created or destroyed. A flush whose callbacks ask for nothing to be made or unmade
carries out as many requests as it may and as there are, and nothing is left in between once it has
carried out all.
-/

namespace MemoryKit.Registry

variable {σ P H : Type} {life : Lifetime σ P H} {events : List (Event P H)}
  {m m' : Moment σ P H} {f : Flusher σ P H} {r : Registry P H} {c : Option UInt32}

theorem Run.orderly (h : Run life events m) : Orderly m.registry m.activity.creating? := by
  induction h with
  | start h => exact (Flusher.atRest_of_create h).1
  | step h hs ih => exact hs.orderly h.agrees ih

theorem Leads.orderly (hl : Leads life m m') (ha : m.registry.Agrees)
    (h : Orderly m.registry m.activity.creating?) :
    m'.registry.Agrees ∧ Orderly m'.registry m'.activity.creating? := by
  induction hl with
  | refl => exact ⟨ha, h⟩
  | tail _ hs ih =>
    obtain ⟨-, _, hs⟩ := hs
    exact ⟨hs.agrees ih.1, hs.orderly ih.1 ih.2⟩

def Request.isChange : Request P → Bool
  | .make _ | .unmake _ => true
  | .get _ | .value _ | .state _ | .name _ | .path _ | .len | .pending | .placeholders | .config =>
    false

def Activity.AsksForChange : Activity σ P H → Prop
  | .inside _ (.ask q _) => q.isChange = true
  | .inside _ (.done _) | .inside _ (.note ..) | .idle | .working _ | .gone => False

/-- No callback asks for an entry to be made or unmade until the flusher returns. -/
def Undisturbed (life : Lifetime σ P H) (m : Moment σ P H) : Prop :=
  ∀ m', Leads life m m' → ¬m'.activity.AsksForChange

theorem Undisturbed.leads (hu : Undisturbed life m) (hl : Leads life m m') :
    Undisturbed life m' := fun _ hl' => hu _ (hl.trans hl')

theorem serve_of_not_change {q : Request P} (hq : q.isChange = false) (r : Registry P H) :
    (r.serve q).state = r := by
  cases q with
  | make | unmake => cases hq
  | _ => rfl

theorem Undisturbed.run_state {c : Callback} {s : Session P H (c.Result σ H)}
    (hu : Undisturbed life ⟨f, .inside c s⟩) : (s.run f.registry).state = f.registry := by
  induction s with
  | done a => rfl
  | note record next ih => exact ih (hu.leads (.step .note trivial))
  | ask q next ih =>
    have hq : q.isChange = false := Bool.eq_false_iff.mpr (hu _ .refl)
    have hserve := serve_of_not_change hq f.registry
    have hnext := hu.leads (.step .askInside trivial)
    rw [Flusher.serve, hserve] at hnext
    rw [Session.run, Outcome.after_state, hserve]
    exact ih _ hnext

theorem Undisturbed.registry_destroyAny {task : Task} {handle : Option H}
    (hu : Undisturbed life (.destroying life f task handle)) :
    (f.destroyAny life handle).state.registry = f.registry := by
  cases handle with
  | none => rfl
  | some handle => exact hu.run_state

theorem Undisturbed.pending_finishMake {i : UInt32} {name : String} {left : Nat} {s : σ}
    {result : Except String H}
    (hu : Undisturbed life ⟨f, .inside (.create i name left) (.done (result, s))⟩) :
    ({ f with lifetime := s }.finishMake life i name result).state.registry.pending =
      f.registry.pending := by
  cases result with
  | error reason => rfl
  | ok handle =>
    have hd := (hu.leads (.step .succeed trivial)).registry_destroyAny
    have hp := congrArg Registry.pending hd
    exact hp

theorem Orderly.pending_makeOne (h : Orderly f.registry none) {i : UInt32} {left : Nat}
    (hm : f.registry.dequeueMake.answer = some i)
    (hu : Undisturbed life ⟨f, .working (.flush (left + 1))⟩) :
    ({ f with registry := f.registry.dequeueMake.state }.makeOne life i).state.registry.pending +
      1 = f.registry.pending := by
  unfold Flusher.makeOne
  rcases ht : f.registry.dequeueMake.state.takeRequest i with ⟨- | ⟨payload, name⟩, r⟩
  · exact h.pending_takeRequest hm ht
  · have hcreate := hu.leads (.step (.make hm ht) trivial)
    have hrun := hcreate.run_state
    have hfinish := (hcreate.leads (.session _ _ _)).pending_finishMake
    rw [hrun] at hfinish
    dsimp only [Outcome.after_state] at hrun hfinish ⊢
    rw [hrun, hfinish]
    exact h.pending_takeRequest hm ht

theorem Orderly.pending_unmakeOne (h : Orderly f.registry none) {i : UInt32} {left : Nat}
    (hm : f.registry.dequeueMake.answer = none)
    (hd : f.registry.dequeueMake.state.dequeueUnmake.answer = some i)
    (hu : Undisturbed life ⟨f, .working (.flush (left + 1))⟩) :
    ({ f with registry := f.registry.dequeueMake.state.dequeueUnmake.state }.unmakeOne
      life i).state.registry.pending + 1 = f.registry.pending := by
  unfold Flusher.unmakeOne
  rcases hg : f.registry.dequeueMake.state.dequeueUnmake.state.giveUp i with ⟨- | handle, r⟩
  · exact h.pending_giveUp hm hd hg
  · have hpending := h.pending_giveUp hm hd hg
    have hdestroy := (hu.leads (.step (.unmake hm hd hg) trivial)).registry_destroyAny
    dsimp only [Outcome.after_state] at hdestroy ⊢
    rw [hdestroy, releaseSlot_state]
    exact hpending

theorem Orderly.flushOne (h : Orderly f.registry none) {left : Nat}
    (hu : Undisturbed life ⟨f, .working (.flush (left + 1))⟩) :
    (f.flushOne life).answer = decide (0 < f.registry.pending) ∧
      (f.flushOne life).state.registry.pending = f.registry.pending - 1 := by
  unfold Flusher.flushOne
  cases hm : f.registry.dequeueMake.answer with
  | some i =>
    have hp := h.pending_makeOne hm hu
    simp only [hm]
    exact ⟨(decide_eq_true (by omega)).symm, Nat.eq_sub_of_add_eq hp⟩
  | none =>
    simp only [hm]
    cases hd : f.registry.dequeueMake.state.dequeueUnmake.answer with
    | some i =>
      have hp := h.pending_unmakeOne hm hd hu
      exact ⟨(decide_eq_true (by omega)).symm, Nat.eq_sub_of_add_eq hp⟩
    | none =>
      obtain ⟨hsame, hmakes⟩ := h.resembles_dequeueMake hm
      obtain ⟨hsame', hunmakes⟩ := (h.congr hsame).resembles_dequeueUnmake hd
      have hzero : f.registry.pending = 0 := by
        rw [h.pending_eq, hmakes, ← hsame.unmakes.toList_eq, hunmakes]
        rfl
      have hpending := hsame'.pending_eq.trans hsame.pending_eq
      exact ⟨(decide_eq_false (by omega)).symm, hpending.trans (by omega)⟩

theorem Orderly.flushMany (ha : f.registry.Agrees) (h : Orderly f.registry none) {limit : Nat}
    (hu : Undisturbed life ⟨f, .working (.flush limit)⟩) :
    (f.flushMany life limit).answer = min limit f.registry.pending ∧
      (f.flushMany life limit).state.registry.pending = f.registry.pending - limit := by
  induction limit generalizing f with
  | zero => exact ⟨(Nat.zero_min _).symm, rfl⟩
  | succ limit ih =>
    obtain ⟨hanswer, hpending⟩ := h.flushOne hu
    have hl : Leads life _ _ := Leads.flushOne f limit
    rw [Flusher.flushMany, hanswer]
    by_cases hp : 0 < f.registry.pending
    · simp only [hanswer, decide_eq_true hp, if_true] at hl ⊢
      obtain ⟨ha', h'⟩ := hl.orderly ha h
      obtain ⟨hcount, hrest⟩ := ih ha' h' (hu.leads hl)
      rw [Moment.registry_mk] at *
      simp only [Outcome.after_answer, Outcome.map_answer, Outcome.after_state, Outcome.map_state]
      rw [hcount, hrest, hpending]
      omega
    · simp only [decide_eq_false hp, Bool.false_eq_true, if_false]
      omega

theorem Orderly.flush (ha : f.registry.Agrees) (h : Orderly f.registry none) {limit : Nat}
    (hu : Undisturbed life ⟨f, .working (.flush limit)⟩) :
    (f.flush life limit).answer = min limit f.registry.pending ∧
      (f.flush life limit).state.registry.pending = f.registry.pending - limit := by
  obtain ⟨hanswer, hpending⟩ := h.flushMany ha hu
  have hl : Leads life _ _ := Leads.flushMany f limit
  obtain ⟨-, h'⟩ := hl.orderly ha h
  exact ⟨hanswer, (Flusher.resembles_compactIfDue h').pending_eq.trans hpending⟩

theorem Orderly.state_of_pending_eq_zero (h : Orderly r none) (hz : r.pending = 0) {i : UInt32}
    {d : EntryRecord P H} (hd : InUse r.slots i d) :
    d.state = some .made ∨ d.state = some .failed ∨ d.state = some .placeholder := by
  obtain ⟨hm, hu⟩ := h.flags_of_pending_eq_zero hz hd.1
  have hsound := h.sound i d hd.1
  obtain ⟨state, hs⟩ := Option.ne_none_iff_exists'.mp hd.2
  cases state with
  | making =>
    rw [(hsound.pending_of_making hs nofun).2] at hm
    cases hm
  | unmaking =>
    rw [hsound.unmaking hs] at hu
    cases hu
  | made => exact Or.inl hs
  | failed => exact Or.inr (Or.inl hs)
  | placeholder => exact Or.inr (Or.inr hs)

theorem Orderly.state_after_flush (ha : f.registry.Agrees) (h : Orderly f.registry none)
    (limit : Nat) (hz : (f.flush life limit).state.registry.pending = 0) {i : UInt32}
    {d : EntryRecord P H} (hd : InUse (f.flush life limit).state.registry.slots i d) :
    d.state = some .made ∨ d.state = some .failed ∨ d.state = some .placeholder := by
  have hl : Leads life _ _ := Leads.flush f limit
  obtain ⟨-, h'⟩ := hl.orderly ha h
  exact h'.state_of_pending_eq_zero hz hd

/--
At every moment of every run, a record that is to be made has a payload and waits to be made, unless
its handle is being created just then, and one that is to be unmade waits for that. The slots that
wait are those whose records are flagged, each of them waits once, and all of them are pending.
There is room for every other slot, so that no request fails to be queued. A flush whose callbacks
ask for no change answers how many requests there were up to its limit, and leaves none of them half
done.
-/
theorem Run.requests_wait_once (h : Run life events m) :
    (∀ i d, InUse m.registry.slots i d → d.state = some .making →
      m.activity.creating? ≠ some i →
      d.pending.isSome = true ∧ i ∈ m.registry.makes.toList) ∧
    (∀ i d, InUse m.registry.slots i d → d.state = some .unmaking →
      i ∈ m.registry.unmakes.toList) ∧
    m.registry.makes.toList.Nodup ∧ m.registry.unmakes.toList.Nodup ∧
    (∀ i, i ∈ m.registry.makes.toList ↔
      ∃ d, m.registry.record? i = some d ∧ d.queuedMake = true) ∧
    (∀ i, i ∈ m.registry.unmakes.toList ↔
      ∃ d, m.registry.record? i = some d ∧ d.queuedUnmake = true) ∧
    m.registry.pending = m.registry.makes.size + m.registry.unmakes.size ∧
    (∀ i d, m.registry.record? i = some d →
      (d.queuedMake = false → (m.registry.enqueueMake i).answer = true) ∧
      (d.queuedUnmake = false → (m.registry.enqueueUnmake i).answer = true)) ∧
    (∀ q, (m.registry.serve q).log = []) ∧
    (m.activity = .idle → ∀ limit,
      Undisturbed life ⟨m.flusher, .working (.flush limit)⟩ →
      (m.flusher.flush life limit).answer = min limit m.registry.pending ∧
      (m.registry.pending ≤ limit →
        (m.flusher.flush life limit).state.registry.pending = 0 ∧
        ∀ i d, InUse (m.flusher.flush life limit).state.registry.slots i d →
          d.state = some .made ∨ d.state = some .failed ∨ d.state = some .placeholder)) := by
  have ho := h.orderly
  refine ⟨?_, ?_, ho.makes.nodup, ho.unmakes.nodup, ho.makes.mem_iff, ho.unmakes.mem_iff, ?_, ?_,
    fun q => (ho.serves h.agrees q).1, ?_⟩
  · intro i d hu hs hc
    obtain ⟨hp, hf⟩ := (ho.sound i d hu.1).pending_of_making hs hc
    exact ⟨hp, (ho.makes.mem_iff i).mpr ⟨d, hu.1, hf⟩⟩
  · intro i d hu hs
    exact (ho.unmakes.mem_iff i).mpr ⟨d, hu.1, (ho.sound i d hu.1).unmaking hs⟩
  · rw [ho.makes.wellFormed.size_eq, ho.unmakes.wellFormed.size_eq, ho.pending_eq]
  · intro i d hd
    constructor
    · intro hf
      obtain ⟨ha, hlog, -⟩ := ho.makes.push hd hf
      rw [enqueueMake_of_push ha hlog]
      rfl
    · intro hf
      obtain ⟨ha, hlog, -⟩ := ho.unmakes.push hd hf
      rw [enqueueUnmake_of_push ha hlog]
      rfl
  · intro hidle limit hu
    have ho' : Orderly m.flusher.registry none := by rwa [hidle] at ho
    obtain ⟨hanswer, hpending⟩ := ho'.flush h.agrees hu
    constructor
    · exact hanswer
    · intro hle
      have hzero := hpending.trans (Nat.sub_eq_zero_of_le hle)
      exact ⟨hzero, fun i d hd => ho'.state_after_flush h.agrees limit hzero hd⟩

def Session.IsPassive {α : Type} : Session P H α → Prop
  | .done _ => True
  | .note _ next => next.IsPassive
  | .ask q next => q.isChange = false ∧ ∀ answer, (next answer).IsPassive

structure Lifetime.IsPassive (life : Lifetime σ P H) : Prop where
  create : ∀ s payload name, (life.create s payload name).IsPassive
  destroy : ∀ s handle, (life.destroy s handle).IsPassive

def Activity.IsPassive : Activity σ P H → Prop
  | .inside _ s => s.IsPassive
  | .idle | .working _ | .gone => True

theorem Moment.isPassive_destroying (hl : life.IsPassive) (f : Flusher σ P H) (task : Task)
    (handle : Option H) : (Moment.destroying life f task handle).activity.IsPassive := by
  cases handle with
  | none => trivial
  | some handle => exact hl.destroy _ handle

theorem Step.isPassive (hl : life.IsPassive) (hs : Step life m events m')
    (h : m.activity.IsPassive) : m'.activity.IsPassive := by
  cases hs with
  | make => exact hl.create ..
  | note => exact h
  | askInside => exact h.2 _
  | unmake | succeed | closeSlot => exact Moment.isPassive_destroying hl ..
  | ask => exact h
  | _ => trivial

theorem Lifetime.IsPassive.undisturbed (hl : life.IsPassive) (f : Flusher σ P H) (task : Task) :
    Undisturbed life ⟨f, .working task⟩ := by
  intro m' hleads
  have hpassive : m'.activity.IsPassive := by
    induction hleads with
    | refl => trivial
    | tail _ hs ih =>
      obtain ⟨-, _, hs⟩ := hs
      exact hs.isPassive hl ih
  obtain ⟨f', a⟩ := m'
  rcases a with - | - | ⟨c, - | - | ⟨q, next⟩⟩ | -
  · exact id
  · exact id
  · exact id
  · exact id
  · exact fun hq => Bool.false_ne_true (hpassive.1.symm.trans hq)
  · exact id

theorem isPassive_curiousLife : curiousLife.IsPassive :=
  ⟨fun _ _ _ => ⟨rfl, fun _ => trivial⟩, fun _ _ => trivial⟩

theorem Run.requests_wait_once_flushed :
    ∃ events f, Run curiousLife events ⟨f, .idle⟩ ∧ f.registry.makes.toList = [3] ∧
      (∀ q, (f.registry.serve q).log = []) ∧ (f.flush curiousLife 5).answer = 1 ∧
      (f.flush curiousLife 5).state.registry.pending = 0 := by
  have h := (Run.start create_smallRegistry).step (.ask (.make fiveRequest) (.inl rfl))
  have hpending : (smallRegistry.make fiveRequest).state.pending = 1 := by decide +kernel
  obtain ⟨-, -, -, -, -, -, -, -, hlog, hflush⟩ := Run.requests_wait_once h
  obtain ⟨hanswer, hdone⟩ := hflush rfl 5 (isPassive_curiousLife.undisturbed _ _)
  refine ⟨_, _, h, by decide +kernel, hlog, hanswer.trans ?_, (hdone ?_).1⟩
  · exact congrArg (min 5) hpending
  · exact Nat.le_trans (Nat.le_of_eq hpending) (by decide)

end MemoryKit.Registry
