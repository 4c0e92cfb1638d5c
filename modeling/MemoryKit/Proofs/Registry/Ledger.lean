import MemoryKit.Proofs.Registry.Accounts

/-! # A ledger of handles

Code that creates and destroys handles can keep a ledger of them beside its state, and does the same
as without one otherwise. What the functions of a flusher have passed to the code is read from that
ledger; it tells the handles that the events of a run show as created and as destroyed. The ledger
also tells what happens before there is a registry that could be looked into.
-/

namespace MemoryKit.Registry

open scoped List

variable {σ P H α β : Type} {life : Lifetime σ P H} {events events' : List (Event P H)}

structure Ledger (H : Type) where
  created : List H := []
  destroyed : List H := []
  deriving DecidableEq

def ledger (events : List (Event P H)) : Ledger H := ⟨created events, destroyed events⟩

namespace Ledger

def add (l : Ledger H) : Except String H → Ledger H
  | .ok handle => { l with created := l.created ++ [handle] }
  | .error _ => l

def discard (l : Ledger H) (handle : H) : Ledger H :=
  { l with destroyed := l.destroyed ++ [handle] }

/--
What was created is what was destroyed and what is held. If no two of the handles created are equal,
none of them was destroyed twice, and none is held that was destroyed.
-/
structure Balances (l : Ledger H) (held : List H) : Prop where
  perm : l.created ~ l.destroyed ++ held
  once : l.created.Nodup → l.destroyed.Nodup
  disjoint : l.created.Nodup → l.destroyed.Disjoint held

theorem balances_of_perm {l : Ledger H} {held : List H} (h : l.created ~ l.destroyed ++ held) :
    l.Balances held := by
  have hnodup : l.created.Nodup → l.destroyed.Nodup ∧ l.destroyed.Disjoint held := by
    intro hnd
    obtain ⟨hd, -, hdisjoint⟩ := List.nodup_append'.mp (h.nodup_iff.mp hnd)
    exact ⟨hd, hdisjoint⟩
  exact ⟨h, fun hnd => (hnodup hnd).1, fun hnd => (hnodup hnd).2⟩

def after (l : Ledger H) (events : List (Event P H)) : Ledger H :=
  ⟨l.created ++ Registry.created events, l.destroyed ++ Registry.destroyed events⟩

theorem after_of_asked (l : Ledger H) (q : Request P) (answer : q.Answer H) :
    l.after [.asked q answer] = l := by
  simp [after, Registry.created, Registry.destroyed]

@[simp] theorem after_nil (l : Ledger H) : l.after ([] : List (Event P H)) = l := by
  simp [after, Registry.created, Registry.destroyed]

theorem after_created (l : Ledger H) (i : UInt32) (result : Except String H)
    (events : List (Event P H)) :
    l.after (.created i result :: events) = (l.add result).after events := by
  cases result <;> simp [after, add, Registry.created, Registry.destroyed]

theorem after_destroyed (l : Ledger H) (handle : H) :
    l.after [(.destroyed handle : Event P H)] = l.discard handle := by
  simp [after, discard, Registry.created, Registry.destroyed]

end Ledger

/-- The same code with a ledger beside its state. -/
def Lifetime.withLedger (life : Lifetime σ P H) : Lifetime (σ × Ledger H) P H where
  create s payload name :=
    (life.create s.1 payload name).bind fun a => .done (a.1, a.2, s.2.add a.1)
  destroy s handle := (life.destroy s.1 handle).bind fun s' => .done (s', s.2.discard handle)

theorem Session.run_bind_done (s : Session P H α) (f : α → β) (r : Registry P H) :
    (s.bind fun a => .done (f a)).run r = (s.run r).map f := by
  induction s generalizing r with
  | done a => rfl
  | note record next ih =>
    rw [bind, run, ih]
    rfl
  | ask q next ih =>
    rw [bind, run, ih]
    rfl

theorem Session.runAlone_bind_done (s : Session P H α) (f : α → β) :
    (s.bind fun a => .done (f a)).runAlone = (f s.runAlone.1, s.runAlone.2) := by
  induction s with
  | done a => rfl
  | note record next ih =>
    rw [bind, runAlone, ih]
    rfl
  | ask q next ih => exact ih q.unserved

namespace Flusher

def forget (f : Flusher (σ × Ledger H) P H) : Flusher σ P H := { f with lifetime := f.lifetime.1 }

variable (life) (f : Flusher (σ × Ledger H) P H)

@[simp] theorem forget_registry : f.forget.registry = f.registry := rfl

@[simp] theorem forget_removed : f.forget.removed = f.removed := rfl

theorem forget_destroy (handle : H) :
    (f.destroy life.withLedger handle).lift forget = f.forget.destroy life handle := by
  simp only [destroy, Lifetime.withLedger, Session.run_bind_done]
  rfl

theorem forget_destroyAny (handle : Option H) :
    (f.destroyAny life.withLedger handle).lift forget = f.forget.destroyAny life handle := by
  cases handle with
  | none => rfl
  | some handle => exact forget_destroy life f handle

theorem forget_finishMake (i : UInt32) (name : String) (result : Except String H) :
    (f.finishMake life.withLedger i name result).lift forget =
      f.forget.finishMake life i name result := by
  cases result with
  | error reason => rfl
  | ok handle => exact forget_destroyAny life { f with registry := _ } _

theorem forget_makeOne (i : UInt32) :
    (f.makeOne life.withLedger i).lift forget = f.forget.makeOne life i := by
  unfold makeOne
  rw [forget_registry]
  rcases f.registry.takeRequest i with ⟨- | ⟨payload, name⟩, r⟩
  · rfl
  · simp only [Lifetime.withLedger, Session.run_bind_done]
    rw [Outcome.lift_after, ← Lifetime.withLedger, forget_finishMake]
    rfl

theorem forget_unmakeOne (i : UInt32) :
    (f.unmakeOne life.withLedger i).lift forget = f.forget.unmakeOne life i := by
  unfold unmakeOne
  rw [forget_registry]
  rcases f.registry.giveUp i with ⟨- | handle, r⟩
  · rfl
  · dsimp only
    rw [Outcome.lift_after, forget_destroyAny]
    rfl

theorem forget_flushOne :
    (f.flushOne life.withLedger).lift forget = f.forget.flushOne life := by
  unfold flushOne
  rw [forget_registry]
  cases hm : f.registry.dequeueMake.answer with
  | some i =>
    simp only [hm]
    rw [Outcome.lift_after, Outcome.lift_map, forget_makeOne]
    rfl
  | none =>
    simp only [hm]
    cases f.registry.dequeueMake.state.dequeueUnmake.answer with
    | some i =>
      dsimp only
      rw [Outcome.lift_after, Outcome.lift_map, forget_unmakeOne]
      rfl
    | none => rfl

theorem forget_flushMany (limit : Nat) :
    (f.flushMany life.withLedger limit).lift forget = f.forget.flushMany life limit := by
  induction limit generalizing f with
  | zero => rfl
  | succ limit ih =>
    rw [flushMany, flushMany, ← forget_flushOne life f, apply_ite (Outcome.lift forget)]
    dsimp only [Outcome.lift_answer, Outcome.lift_state, Outcome.lift_log]
    rw [Outcome.lift_after, Outcome.lift_map, ih]
    rfl

theorem forget_compactIfDue : f.compactIfDue.lift forget = f.forget.compactIfDue := by
  unfold compactIfDue
  rw [forget_registry, forget_removed]
  split <;> rfl

theorem forget_flush (limit : Nat) :
    (f.flush life.withLedger limit).lift forget = f.forget.flush life limit := by
  rw [flush, flush, ← forget_flushMany life f limit]
  dsimp only [Outcome.lift_answer, Outcome.lift_state, Outcome.lift_log]
  rw [← forget_compactIfDue]
  rfl

theorem forget_destroyAll (slots : List UInt32) :
    (f.destroyAll life.withLedger slots).lift forget = f.forget.destroyAll life slots := by
  induction slots generalizing f with
  | nil => rfl
  | cons i rest ih =>
    unfold destroyAll
    rw [forget_registry]
    cases (f.registry.record? i).bind EntryRecord.handle with
    | none => exact ih f
    | some handle =>
      dsimp only
      rw [Outcome.lift_after, Outcome.lift_map, ih, ← Outcome.lift_state forget, forget_destroy]
      have hone := forget_destroy life
        { f with registry := f.registry.modifyRecord i ({ · with handle := none }) } handle
      exact congrArg (fun o => Outcome.after o.log _) hone

theorem forget_close : (f.close life.withLedger).lift forget = f.forget.close life := by
  have hall := forget_destroyAll life
    { f with registry := { f.registry with closed := true } } f.allSlots
  exact congrArg (fun o : Outcome (Flusher σ P H) Nat =>
    (⟨(), o.state, o.log ++ [.debug s!"Destroyed {o.answer} registry handles"]⟩ : Outcome _ _)) hall

end Flusher

/--
A creation with a ledger goes like the one without. If it succeeds, the handles created are those
it answers with, and if it fails, those created before were destroyed.
-/
structure Accounted (u : Outcome σ (Except RegistryError α))
    (v : Outcome (σ × Ledger H) (Except RegistryError α)) (handles : α → List H) : Prop where
  answer_eq : v.answer = u.answer
  state_eq : v.state.1 = u.state
  log_eq : v.log = u.log
  of_ok : ∀ a, v.answer = .ok a → v.state.2 = { created := handles a }
  of_error : ∀ e, v.answer = .error e → v.state.2.destroyed = v.state.2.created

theorem Accounted.after {u : Outcome σ (Except RegistryError α)}
    {v : Outcome (σ × Ledger H) (Except RegistryError α)} {handles : α → List H}
    (h : Accounted u v handles) (log : List Record) :
    Accounted (u.after log) (v.after log) handles :=
  ⟨h.answer_eq, h.state_eq, congrArg (log ++ ·) h.log_eq, h.of_ok, h.of_error⟩

namespace Flusher

variable {config : RegistryConfig} {payloads : Placeholders P} {o o' : Opening P H} {s : σ}
  {l : Ledger H}

theorem destroyAlone_withLedger (handles : List H) :
    destroyAlone life.withLedger (s, l) handles =
      (((destroyAlone life s handles).1, { l with destroyed := l.destroyed ++ handles }),
        (destroyAlone life s handles).2) := by
  induction handles generalizing s l with
  | nil =>
    rw [List.append_nil]
    rfl
  | cons handle handles ih =>
    rw [destroyAlone, Lifetime.withLedger, Session.runAlone_bind_done]
    dsimp only
    rw [← Lifetime.withLedger, ih, destroyAlone, Ledger.discard, List.append_assoc]
    rfl

def Opening.handles (o : Opening P H) : List H := o.created.reverse.map Prod.snd

theorem Opening.handles_of_adds {name : String} {handle : H} {i : UInt32} {d : EntryRecord P H}
    (ha : o.Adds o' name handle i d) : o'.handles = o.handles ++ [handle] := by
  rw [handles, ha.created_eq, List.reverse_cons, List.map_append]
  rfl

theorem accounted_openAll (life : Lifetime σ P H) (named : List (String × P)) (s : σ)
    (h : o.Awaits (named.map Prod.fst)) :
    Accounted (openAll life s o named)
      (openAll life.withLedger (s, { created := o.handles }) o named) Opening.handles := by
  induction named generalizing s o with
  | nil =>
    refine ⟨rfl, rfl, rfl, ?_, ?_⟩
    · intro a ha
      cases ha
      rfl
    · intro e he
      cases he
  | cons p named ih =>
    obtain ⟨name, payload⟩ := p
    rw [openAll, openAll, Lifetime.withLedger, Session.runAlone_bind_done]
    rcases (life.create s payload name).runAlone with ⟨⟨- | handle, s'⟩, log⟩
    · dsimp only
      rw [← Lifetime.withLedger, Ledger.add, destroyAlone_withLedger]
      refine ⟨rfl, rfl, rfl, ?_, fun _ _ => rfl⟩
      intro a ha
      cases ha
    · obtain ⟨o', ha, h', i, d, hadds⟩ := h.add handle
      simp only [ha]
      rw [← Lifetime.withLedger, Ledger.add, ← Opening.handles_of_adds hadds]
      exact (ih s' h').after log

theorem length_created (named : List (String × P)) (h : o.Awaits (named.map Prod.fst))
    (ho : (openAll life s o named).answer = .ok o') :
    o'.created.length = o.created.length + named.length := by
  have hlength := (h.openAll (motive := fun o₁ names =>
    o₁.created.length + names.length = o.created.length + named.length)
    (fun o₁ o₂ name names handle i d hadds hl => ?_) named ho (by rw [List.length_map])).2
  · exact hlength
  · rw [hadds.created_eq, List.length_cons, ← hl, List.length_cons]
    omega

theorem accounted_create (life : Lifetime σ P H) (config : RegistryConfig) (s : σ)
    (payloads : Placeholders P) :
    Accounted (create life config s payloads) (create life.withLedger config (s, {}) payloads)
      fun r => r.placeholders.toList.map Prod.snd := by
  unfold create
  cases hf : (foundations config :
      Except ConfigError (SlotPool (EntryRecord P H) × KeyTable × Queue UInt32)) with
  | error e => exact ⟨rfl, rfl, rfl, nofun, fun _ _ => rfl⟩
  | ok built =>
    obtain ⟨slots, lookup, requests⟩ := built
    obtain ⟨hawaits, -⟩ := awaits_of_foundations hf
    have h := accounted_openAll life payloads.named s hawaits
    have ha := h.answer_eq
    dsimp only
    cases ho : (openAll life s ⟨slots, lookup, []⟩ payloads.named).answer with
    | error e =>
      rw [ho] at ha
      rw [show (openAll life.withLedger (s, {}) ⟨slots, lookup, []⟩ payloads.named).answer = _
        from ha]
      exact ⟨rfl, h.state_eq, h.log_eq, nofun, fun _ _ => h.of_error e ha⟩
    | ok o' =>
      have hlength := length_created payloads.named hawaits ho
      obtain ⟨slots', lookup', created⟩ := o'
      obtain ⟨making, failed, missing, rfl⟩ := List.length_eq_three.mp hlength
      rw [ho] at ha
      rw [show (openAll life.withLedger (s, {}) ⟨slots, lookup, []⟩ payloads.named).answer = _
        from ha]
      refine ⟨rfl, h.state_eq, congrArg (· ++ _) h.log_eq, ?_, nofun⟩
      intro r hr
      cases hr
      exact h.of_ok _ ha

end Flusher

def Session.IsMap (s : Session P H β) (f : α → β) : Prop :=
  ∃ s₀ : Session P H α, s = s₀.bind fun a => .done (f a)

theorem Session.IsMap.note {f : α → β} {record : Record} {next : Session P H β}
    (h : (Session.note record next).IsMap f) : next.IsMap f := by
  obtain ⟨s₀, hs⟩ := h
  cases s₀ <;> cases hs
  exact ⟨_, rfl⟩

theorem Session.IsMap.ask {f : α → β} {q : Request P} {next : q.Answer H → Session P H β}
    (h : (Session.ask q next).IsMap f) (answer : q.Answer H) : (next answer).IsMap f := by
  obtain ⟨s₀, hs⟩ := h
  cases s₀ <;> cases hs
  exact ⟨_, rfl⟩

theorem Session.IsMap.exists_eq {f : α → β} {b : β}
    (h : (Session.done b : Session P H β).IsMap f) : ∃ a, f a = b := by
  obtain ⟨s₀, hs⟩ := h
  cases s₀ <;> cases hs
  exact ⟨_, rfl⟩

/--
The flusher has a ledger. While a callback runs, it is the ledger that the code was called with, and
the code answers with the one that is due then.
-/
def Activity.Keeps (a : Activity (σ × Ledger H) P H) (now l : Ledger H) : Prop :=
  match a with
  | .idle | .working _ | .gone => now = l
  | .inside (.create ..) s =>
    now = l ∧ s.IsMap fun a : Except String H × σ => (a.1, a.2, l.add a.1)
  | .inside (.destroy _) s => (∃ handle, l = now.discard handle) ∧ s.IsMap fun a : σ => (a, l)

def Moment.Keeps (m : Moment (σ × Ledger H) P H) (l : Ledger H) : Prop :=
  m.activity.Keeps m.flusher.lifetime.2 l

variable {l : Ledger H}

@[simp] theorem Moment.keeps_idle {f : Flusher (σ × Ledger H) P H} :
    Moment.Keeps ⟨f, .idle⟩ l ↔ f.lifetime.2 = l := .rfl

@[simp] theorem Moment.keeps_gone {f : Flusher (σ × Ledger H) P H} :
    Moment.Keeps ⟨f, .gone⟩ l ↔ f.lifetime.2 = l := .rfl

theorem Moment.keeps_destroying {f : Flusher (σ × Ledger H) P H} (hl : f.lifetime.2 = l)
    (task : Task) (handle : Option H) :
    (Moment.destroying life.withLedger f task handle).Keeps
      (l.after (Event.destroyedAny (P := P) handle)) := by
  cases handle with
  | none =>
    rw [show Event.destroyedAny (P := P) (none : Option H) = [] from rfl, Ledger.after_nil]
    exact hl
  | some handle =>
    rw [show Event.destroyedAny (P := P) (some handle) = [.destroyed handle] from rfl,
      Ledger.after_destroyed, ← hl]
    exact ⟨⟨handle, rfl⟩, _, rfl⟩

/-- What a step shows is what it enters in the ledger. -/
theorem Step.keeps {m m' : Moment (σ × Ledger H) P H} (hs : Step life.withLedger m events m')
    (h : m.Keeps l) : m'.Keeps (l.after events) := by
  cases hs with
  | ask q ha =>
    rw [Ledger.after_of_asked]
    rcases ha with rfl | rfl <;> exact h
  | make hd ht =>
    rw [Ledger.after_nil, ← show _ = l from h]
    exact ⟨rfl, _, rfl⟩
  | unmake =>
    apply Moment.keeps_destroying
    exact h
  | @closeSlot _ _ _ handle =>
    refine Moment.keeps_destroying ?_ _ (some handle)
    exact h
  | @note _ c =>
    rw [Ledger.after_nil]
    cases c <;> exact ⟨h.1, h.2.note⟩
  | @askInside _ c =>
    rw [Ledger.after_of_asked]
    cases c <;> exact ⟨h.1, h.2.ask _⟩
  | succeed =>
    obtain ⟨⟨result, s⟩, ha⟩ := h.2.exists_eq
    cases ha
    rw [Ledger.after_created]
    exact Moment.keeps_destroying rfl ..
  | fail =>
    obtain ⟨⟨result, s⟩, ha⟩ := h.2.exists_eq
    cases ha
    rw [Ledger.after_created, Ledger.after_nil]
    rfl
  | resume =>
    obtain ⟨a, ha⟩ := h.2.exists_eq
    cases ha
    rw [Ledger.after_nil]
    rfl
  | finish =>
    rw [Ledger.after_nil]
    refine Eq.trans ?_ (show _ = l from h)
    unfold Flusher.compactIfDue
    split <;> rfl
  | _ =>
    rw [Ledger.after_nil]
    exact h

theorem Run.balances {m : Moment σ P H} (h : Run life events m) :
    (ledger events).Balances (held m.registry.slots) := by
  apply Ledger.balances_of_perm
  rw [h.held_eq]
  exact h.balanced

/-- The runs of code with a ledger that is empty at first. -/
inductive LedgerRun (life : Lifetime σ P H) :
    List (Event P H) → Moment (σ × Ledger H) P H → Prop where
  | start {config : RegistryConfig} {s : σ} {payloads : Placeholders P} {r : Registry P H}
    (h : (Flusher.create life.withLedger config (s, {}) payloads).answer = .ok r) :
    LedgerRun life (r.placeholders.toList.map fun p => .created p.1.index (.ok p.2))
      ⟨⟨r, (Flusher.create life.withLedger config (s, {}) payloads).state, 0⟩, .idle⟩
  | step {events events' : List (Event P H)} {m m' : Moment (σ × Ledger H) P H}
    (h : LedgerRun life events m) (hs : Step life.withLedger m events' m') :
    LedgerRun life (events ++ events') m'

namespace LedgerRun

variable {m m' : Moment (σ × Ledger H) P H} {f : Flusher (σ × Ledger H) P H}

theorem run (h : LedgerRun life events m) : Run life.withLedger events m := by
  induction h with
  | start h => exact .start h
  | step _ hs ih => exact ih.step hs

theorem keeps (h : LedgerRun life events m) :
    m.Keeps (ledger events) := by
  induction h with
  | @start config s payloads r h =>
    have hl := (Flusher.accounted_create life config s payloads).of_ok r h
    refine Eq.trans hl ?_
    simp [ledger, created, destroyed, List.filterMap_map]
  | step _ hs ih =>
    rw [ledger, created_append, destroyed_append]
    exact hs.keeps ih

theorem leads (h : LedgerRun life events m) (hl : Leads life.withLedger m m') :
    ∃ events', LedgerRun life (events ++ events') m' :=
  hl.carry h fun h hs => ⟨_, h.step hs⟩

theorem flush (h : LedgerRun life events ⟨f, .idle⟩) (limit : Nat) :
    ∃ events', LedgerRun life (events ++ events')
      ⟨(f.flush life.withLedger limit).state, .idle⟩ := by
  have h' := h.step (.flush limit)
  rw [List.append_nil] at h'
  exact h'.leads (.flush f limit)

theorem close (h : LedgerRun life events ⟨f, .idle⟩) :
    ∃ events', LedgerRun life (events ++ events')
      ⟨(f.close life.withLedger).state, .gone⟩ := by
  have h' := h.step .close
  rw [List.append_nil] at h'
  exact h'.leads (.close f)

theorem balances_flusher (h : LedgerRun life events m) (hk : m.flusher.lifetime.2 = ledger events) :
    m.flusher.lifetime.2.Balances (held m.registry.slots) := by
  rw [hk]
  exact h.run.balances

end LedgerRun

end MemoryKit.Registry
