import Mathlib.Logic.Relation
import MemoryKit.Registry.Flusher

/-! # Runs of a registry

Callers ask a registry and let its flusher work, one call after the other. The work is interrupted
by callbacks, which create and destroy handles and may ask the registry themselves. A run goes in
steps through the moments between the calls, between the requests of a flush, and inside of
callbacks. The functions of a flusher are such runs.
-/

namespace MemoryKit.Registry

variable {σ P H : Type}

inductive Event (P H : Type) where
  | asked (q : Request P) (answer : q.Answer H)
  | created (i : UInt32) (result : Except String H)
  | destroyed (handle : H)

inductive Task where
  /-- To carry out up to so many requests. -/
  | flush (left : Nat)
  /-- To destroy the handles of these slots. -/
  | close (slots : List UInt32)

/-- A call of the code that creates and destroys handles. -/
inductive Callback where
  /-- It creates a handle for a slot with a name, with so many requests of the flush left. -/
  | create (i : UInt32) (name : String) (left : Nat)
  /-- It destroys a handle, after which the flusher goes on. -/
  | destroy (task : Task)

abbrev Callback.Result (σ H : Type) : Callback → Type
  | .create .. => Except String H × σ
  | .destroy _ => σ

inductive Activity (σ P H : Type) where
  | idle
  | working (task : Task)
  /-- It waits for a callback, whose code has this left to run. -/
  | inside (callback : Callback) (session : Session P H (callback.Result σ H))
  | gone

structure Moment (σ P H : Type) where
  flusher : Flusher σ P H
  activity : Activity σ P H

def Moment.registry (m : Moment σ P H) : Registry P H := m.flusher.registry

def Moment.destroying (life : Lifetime σ P H) (f : Flusher σ P H) (task : Task) :
    Option H → Moment σ P H
  | some handle => ⟨f, .inside (.destroy task) (life.destroy f.lifetime handle)⟩
  | none => ⟨f, .working task⟩

def Event.destroyedAny (handle : Option H) : List (Event P H) := handle.toList.map .destroyed

def Flusher.serve (f : Flusher σ P H) (q : Request P) : Flusher σ P H :=
  { f with registry := (f.registry.serve q).state }

inductive Step (life : Lifetime σ P H) : Moment σ P H → List (Event P H) → Moment σ P H → Prop where
  /-- A caller asks, also after the flusher has gone away. -/
  | ask {f : Flusher σ P H} {a : Activity σ P H} (q : Request P) (ha : a = .idle ∨ a = .gone) :
    Step life ⟨f, a⟩ [.asked q (f.registry.serve q).answer] ⟨f.serve q, a⟩
  | flush {f : Flusher σ P H} (limit : Nat) :
    Step life ⟨f, .idle⟩ [] ⟨f, .working (.flush limit)⟩
  /-- A request to make a slot was cancelled. -/
  | skipMake {f : Flusher σ P H} {left : Nat} {i : UInt32} {r : Registry P H}
    (hd : f.registry.dequeueMake.answer = some i)
    (ht : f.registry.dequeueMake.state.takeRequest i = (none, r)) :
    Step life ⟨f, .working (.flush (left + 1))⟩ []
      ⟨{ f with registry := r }, .working (.flush left)⟩
  | make {f : Flusher σ P H} {left : Nat} {i : UInt32} {payload : P} {name : String}
    {r : Registry P H} (hd : f.registry.dequeueMake.answer = some i)
    (ht : f.registry.dequeueMake.state.takeRequest i = (some (payload, name), r)) :
    Step life ⟨f, .working (.flush (left + 1))⟩ []
      ⟨{ f with registry := r },
        .inside (.create i name left) (life.create f.lifetime payload name)⟩
  /-- A request to unmake a slot was cancelled. -/
  | skipUnmake {f : Flusher σ P H} {left : Nat} {i : UInt32} {r : Registry P H}
    (hm : f.registry.dequeueMake.answer = none)
    (hd : f.registry.dequeueMake.state.dequeueUnmake.answer = some i)
    (hg : f.registry.dequeueMake.state.dequeueUnmake.state.giveUp i = (none, r)) :
    Step life ⟨f, .working (.flush (left + 1))⟩ []
      ⟨{ f with registry := r }, .working (.flush left)⟩
  /-- A slot is given up, and its handle is to be destroyed. -/
  | unmake {f : Flusher σ P H} {left : Nat} {i : UInt32} {handle : Option H} {r : Registry P H}
    (hm : f.registry.dequeueMake.answer = none)
    (hd : f.registry.dequeueMake.state.dequeueUnmake.answer = some i)
    (hg : f.registry.dequeueMake.state.dequeueUnmake.state.giveUp i = (some handle, r)) :
    Step life ⟨f, .working (.flush (left + 1))⟩ (Event.destroyedAny handle)
      (.destroying life
        { f with registry := (r.releaseSlot i).state, removed := f.removed + 1 } (.flush left)
        handle)
  | exhaust {f : Flusher σ P H} {left : Nat} (hm : f.registry.dequeueMake.answer = none)
    (hd : f.registry.dequeueMake.state.dequeueUnmake.answer = none) :
    Step life ⟨f, .working (.flush (left + 1))⟩ []
      ⟨{ f with registry := f.registry.dequeueMake.state.dequeueUnmake.state }, .working (.flush 0)⟩
  | finish {f : Flusher σ P H} :
    Step life ⟨f, .working (.flush 0)⟩ [] ⟨f.compactIfDue.state, .idle⟩
  | note {f : Flusher σ P H} {c : Callback} {record : Record}
    {next : Session P H (c.Result σ H)} :
    Step life ⟨f, .inside c (.note record next)⟩ [] ⟨f, .inside c next⟩
  | askInside {f : Flusher σ P H} {c : Callback} {q : Request P}
    {next : q.Answer H → Session P H (c.Result σ H)} :
    Step life ⟨f, .inside c (.ask q next)⟩ [.asked q (f.registry.serve q).answer]
      ⟨f.serve q, .inside c (next (f.registry.serve q).answer)⟩
  /-- A handle was created, and the one that it replaces is to be destroyed. -/
  | succeed {f : Flusher σ P H} {i : UInt32} {name : String} {left : Nat} {handle : H} {s : σ} :
    Step life ⟨f, .inside (.create i name left) (.done (.ok handle, s))⟩
      (.created i (.ok handle) :: Event.destroyedAny (f.registry.installHandle i handle).1)
      (.destroying life
        { f with registry := (f.registry.installHandle i handle).2, lifetime := s } (.flush left)
        (f.registry.installHandle i handle).1)
  | fail {f : Flusher σ P H} {i : UInt32} {name : String} {left : Nat} {reason : String} {s : σ} :
    Step life ⟨f, .inside (.create i name left) (.done (.error reason, s))⟩
      [.created i (.error reason)]
      ⟨{ f with registry := f.registry.noteFailure i, lifetime := s }, .working (.flush left)⟩
  | resume {f : Flusher σ P H} {task : Task} {s : σ} :
    Step life ⟨f, .inside (.destroy task) (.done s)⟩ [] ⟨{ f with lifetime := s }, .working task⟩
  | close {f : Flusher σ P H} :
    Step life ⟨f, .idle⟩ []
      ⟨{ f with registry := { f.registry with closed := true } }, .working (.close f.allSlots)⟩
  | skipSlot {f : Flusher σ P H} {i : UInt32} {rest : List UInt32}
    (hh : (f.registry.record? i).bind EntryRecord.handle = none) :
    Step life ⟨f, .working (.close (i :: rest))⟩ [] ⟨f, .working (.close rest)⟩
  | closeSlot {f : Flusher σ P H} {i : UInt32} {rest : List UInt32} {handle : H}
    (hh : (f.registry.record? i).bind EntryRecord.handle = some handle) :
    Step life ⟨f, .working (.close (i :: rest))⟩ [.destroyed handle]
      (.destroying life
        { f with registry := f.registry.modifyRecord i ({ · with handle := none }) } (.close rest)
        (some handle))
  | vanish {f : Flusher σ P H} : Step life ⟨f, .working (.close [])⟩ [] ⟨f, .gone⟩

/-- The runs that begin with the creation of a registry, and what they have shown so far. -/
inductive Run (life : Lifetime σ P H) : List (Event P H) → Moment σ P H → Prop where
  | start {config : RegistryConfig} {s : σ} {payloads : Placeholders P} {r : Registry P H}
    (h : (Flusher.create life config s payloads).answer = .ok r) :
    Run life (r.placeholders.toList.map fun p => .created p.1.index (.ok p.2))
      ⟨⟨r, (Flusher.create life config s payloads).state, 0⟩, .idle⟩
  | step {events events' : List (Event P H)} {m m' : Moment σ P H} (h : Run life events m)
    (hs : Step life m events' m') : Run life (events ++ events') m'

def Activity.IsBusy : Activity σ P H → Prop
  | .working _ | .inside .. => True
  | .idle | .gone => False

/-- Some steps of a busy flusher lead from one moment to another. -/
def Leads (life : Lifetime σ P H) : Moment σ P H → Moment σ P H → Prop :=
  Relation.ReflTransGen fun m m' => m.activity.IsBusy ∧ ∃ events, Step life m events m'

variable {life : Lifetime σ P H} {f : Flusher σ P H} {m m' : Moment σ P H}

/-- What grows with every step has grown when a busy flusher has gone some steps. -/
theorem Leads.carry {ι : Type*} {motive : List ι → Moment σ P H → Prop} {xs : List ι}
    (hl : Leads life m m') (h : motive xs m)
    (hstep : ∀ {xs events m m'}, motive xs m → Step life m events m' →
      ∃ ys, motive (xs ++ ys) m') :
    ∃ ys, motive (xs ++ ys) m' := by
  induction hl with
  | refl => exact ⟨[], by rwa [List.append_nil]⟩
  | tail _ hs ih =>
    obtain ⟨ys, hy⟩ := ih
    obtain ⟨-, _, hs⟩ := hs
    obtain ⟨zs, hz⟩ := hstep hy hs
    exact ⟨ys ++ zs, by rwa [← List.append_assoc]⟩

theorem Run.leads {events : List (Event P H)} (h : Run life events m) (hl : Leads life m m') :
    ∃ events', Run life (events ++ events') m' := hl.carry h fun h hs => ⟨_, h.step hs⟩

namespace Leads

theorem step {events : List (Event P H)} (hs : Step life m events m') (hb : m.activity.IsBusy) :
    Leads life m m' := .single ⟨hb, events, hs⟩

theorem session (f : Flusher σ P H) (c : Callback) (s : Session P H (c.Result σ H)) :
    Leads life ⟨f, .inside c s⟩
      ⟨{ f with registry := (s.run f.registry).state },
        .inside c (.done (s.run f.registry).answer)⟩ := by
  induction s generalizing f with
  | done a => exact .refl
  | note record next ih => exact .head ⟨trivial, _, .note⟩ (ih f)
  | ask q next ih => exact .head ⟨trivial, _, .askInside⟩ (ih _ (f.serve q))

theorem destroyAny (f : Flusher σ P H) (task : Task) (handle : Option H) :
    Leads life (.destroying life f task handle)
      ⟨(f.destroyAny life handle).state, .working task⟩ := by
  cases handle with
  | none => exact .refl
  | some handle => exact .tail (session f (.destroy task) _) ⟨trivial, _, .resume⟩

theorem finishMake (f : Flusher σ P H) (i : UInt32) (name : String) (left : Nat) (s : σ)
    (result : Except String H) :
    Leads life ⟨f, .inside (.create i name left) (.done (result, s))⟩
      ⟨({ f with lifetime := s }.finishMake life i name result).state,
        .working (.flush left)⟩ := by
  cases result with
  | error reason => exact step .fail trivial
  | ok handle => exact .head ⟨trivial, _, .succeed⟩ (destroyAny _ _ _)

theorem makeOne {i : UInt32} (left : Nat) (hd : f.registry.dequeueMake.answer = some i) :
    Leads life ⟨f, .working (.flush (left + 1))⟩
      ⟨({ f with registry := f.registry.dequeueMake.state }.makeOne life i).state,
        .working (.flush left)⟩ := by
  unfold Flusher.makeOne
  rcases ht : f.registry.dequeueMake.state.takeRequest i with ⟨- | ⟨payload, name⟩, r⟩
  · dsimp only
    exact step (.skipMake hd ht) trivial
  · dsimp only
    exact .head ⟨trivial, _, .make hd ht⟩ (.trans (session _ _ _) (finishMake _ _ _ _ _ _))

theorem unmakeOne {i : UInt32} (left : Nat) (hm : f.registry.dequeueMake.answer = none)
    (hd : f.registry.dequeueMake.state.dequeueUnmake.answer = some i) :
    Leads life ⟨f, .working (.flush (left + 1))⟩
      ⟨({ f with registry := f.registry.dequeueMake.state.dequeueUnmake.state }.unmakeOne
        life i).state, .working (.flush left)⟩ := by
  unfold Flusher.unmakeOne
  rcases hg : f.registry.dequeueMake.state.dequeueUnmake.state.giveUp i with ⟨- | handle, r⟩
  · dsimp only
    exact step (.skipUnmake hm hd hg) trivial
  · dsimp only
    exact .head ⟨trivial, _, .unmake hm hd hg⟩ (destroyAny _ _ _)

theorem flushOne (f : Flusher σ P H) (left : Nat) :
    Leads life ⟨f, .working (.flush (left + 1))⟩
      ⟨(f.flushOne life).state,
        .working (.flush (if (f.flushOne life).answer then left else 0))⟩ := by
  unfold Flusher.flushOne
  cases hm : f.registry.dequeueMake.answer with
  | some i =>
    simp only [hm]
    exact makeOne left hm
  | none =>
    simp only [hm]
    cases hd : f.registry.dequeueMake.state.dequeueUnmake.answer with
    | some i =>
      dsimp only
      exact unmakeOne left hm hd
    | none =>
      dsimp only
      exact step (.exhaust hm hd) trivial

theorem flushMany (f : Flusher σ P H) (limit : Nat) :
    Leads life ⟨f, .working (.flush limit)⟩
      ⟨(f.flushMany life limit).state, .working (.flush 0)⟩ := by
  induction limit generalizing f with
  | zero => exact .refl
  | succ limit ih =>
    have h : Leads life _ _ := flushOne f limit
    rw [Flusher.flushMany]
    cases ha : (f.flushOne life).answer with
    | true =>
      simp only [ha, if_true] at h ⊢
      exact .trans h (ih _)
    | false =>
      simpa only [ha, Bool.false_eq_true, if_false] using h

theorem flush (f : Flusher σ P H) (limit : Nat) :
    Leads life ⟨f, .working (.flush limit)⟩ ⟨(f.flush life limit).state, .idle⟩ :=
  .tail (flushMany f limit) ⟨trivial, _, .finish⟩

theorem destroyAll (f : Flusher σ P H) (slots : List UInt32) :
    Leads life ⟨f, .working (.close slots)⟩
      ⟨(f.destroyAll life slots).state, .working (.close [])⟩ := by
  induction slots generalizing f with
  | nil => exact .refl
  | cons i rest ih =>
    unfold Flusher.destroyAll
    cases hh : (f.registry.record? i).bind EntryRecord.handle with
    | none =>
      dsimp only
      exact .head ⟨trivial, _, .skipSlot hh⟩ (ih f)
    | some handle =>
      dsimp only
      exact .head ⟨trivial, _, .closeSlot hh⟩ (.trans (destroyAny _ _ _) (ih _))

theorem close (f : Flusher σ P H) :
    Leads life
      ⟨{ f with registry := { f.registry with closed := true } }, .working (.close f.allSlots)⟩
      ⟨(f.close life).state, .gone⟩ :=
  .tail (destroyAll _ _) ⟨trivial, _, .vanish⟩

end Leads

theorem Run.flush {events : List (Event P H)} (h : Run life events ⟨f, .idle⟩) (limit : Nat) :
    ∃ events', Run life (events ++ events') ⟨(f.flush life limit).state, .idle⟩ := by
  have h' := h.step (.flush limit)
  rw [List.append_nil] at h'
  exact h'.leads (.flush f limit)

theorem Run.close {events : List (Event P H)} (h : Run life events ⟨f, .idle⟩) :
    ∃ events', Run life (events ++ events') ⟨(f.close life).state, .gone⟩ := by
  have h' := h.step .close
  rw [List.append_nil] at h'
  exact h'.leads (.close f)

end MemoryKit.Registry
