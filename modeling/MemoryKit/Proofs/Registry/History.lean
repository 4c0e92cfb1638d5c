import MemoryKit.Proofs.Registry.Pending

/-! # Histories of a registry

A history keeps every step of a run with the moments before and after it. It tells what cannot be
read off the events: which entries a flush has unmade, and which creations a slot has seen since it
was taken.
-/

namespace MemoryKit.Registry

variable {σ P H : Type} {life : Lifetime σ P H} {events : List (Event P H)} {m : Moment σ P H}

structure Passage (life : Lifetime σ P H) where
  before : Moment σ P H
  events : List (Event P H)
  after : Moment σ P H
  step : Step life before events after

/-- The steps that lead from the creation of a registry to a moment. -/
inductive History (life : Lifetime σ P H) : List (Passage life) → Moment σ P H → Prop where
  | start {config : RegistryConfig} {s : σ} {payloads : Placeholders P} {r : Registry P H}
    (h : (Flusher.create life config s payloads).answer = .ok r) :
    History life [] ⟨⟨r, (Flusher.create life config s payloads).state, 0⟩, .idle⟩
  | pass {passages : List (Passage life)} (p : Passage life) (h : History life passages p.before) :
    History life (passages ++ [p]) p.after

variable {passages : List (Passage life)} {i : UInt32}

theorem History.exists_run (h : History life passages m) :
    ∃ first, Run life (first ++ passages.flatMap Passage.events) m := by
  induction h with
  | start h => exact ⟨_, by simpa using Run.start h⟩
  | pass p _ ih =>
    obtain ⟨first, h⟩ := ih
    refine ⟨first, ?_⟩
    rw [List.flatMap_append, List.flatMap_singleton, ← List.append_assoc]
    exact h.step p.step

theorem Run.exists_history (h : Run life events m) :
    ∃ passages, History life passages m ∧ passages.flatMap Passage.events <:+ events := by
  induction h with
  | start h => exact ⟨[], .start h, List.nil_suffix⟩
  | @step events events' m m' _ hs ih =>
    obtain ⟨passages, h, first, hfirst⟩ := ih
    refine ⟨passages ++ [⟨m, events', m', hs⟩], .pass ⟨m, events', m', hs⟩ h, first, ?_⟩
    rw [List.flatMap_append, List.flatMap_singleton, ← List.append_assoc, hfirst]

theorem History.leads {m' : Moment σ P H} (h : History life passages m) (hl : Leads life m m') :
    ∃ passages', History life (passages ++ passages') m' :=
  hl.carry h fun h hs => ⟨[_], h.pass ⟨_, _, _, hs⟩⟩

theorem History.flush {f : Flusher σ P H} (h : History life passages ⟨f, .idle⟩) (limit : Nat) :
    ∃ passages', History life (passages ++ passages') ⟨(f.flush life limit).state, .idle⟩ := by
  obtain ⟨passages', h'⟩ := (h.pass ⟨_, _, _, .flush limit⟩).leads (.flush f limit)
  exact ⟨_, by rwa [List.append_assoc] at h'⟩

theorem History.close {f : Flusher σ P H} (h : History life passages ⟨f, .idle⟩) :
    ∃ passages', History life (passages ++ passages') ⟨(f.close life).state, .gone⟩ := by
  obtain ⟨passages', h'⟩ := (h.pass ⟨_, _, _, .close⟩).leads (.close f)
  exact ⟨_, by rwa [List.append_assoc] at h'⟩

theorem History.agrees (h : History life passages m) : m.registry.Agrees := by
  obtain ⟨_, h⟩ := h.exists_run
  exact h.agrees

theorem History.orderly (h : History life passages m) :
    Orderly m.registry m.activity.creating? := by
  obtain ⟨_, h⟩ := h.exists_run
  exact h.orderly

def Moment.uses (m : Moment σ P H) (i : UInt32) : Bool :=
  ((m.registry.record? i).bind EntryRecord.state).isSome

def Passage.takes (p : Passage life) (i : UInt32) : Bool := !p.before.uses i && p.after.uses i

def results (i : UInt32) (events : List (Event P H)) : List (Except String H) :=
  events.filterMap fun
    | .created j result => if j = i then some result else none
    | .asked .. | .destroyed _ => none

/-- The entry that is given up when the next request is carried out, if that is what it asks for. -/
def nextUnmade? (r : Registry P H) : Option Entry :=
  if r.dequeueMake.answer.isSome then none
  else
    let unmake := r.dequeueMake.state.dequeueUnmake
    unmake.answer.bind fun i =>
      ((unmake.state.record? i).filter fun d => d.state == some .unmaking).map fun d =>
        ⟨i, d.generation⟩

def Moment.unmaking? (m : Moment σ P H) : Option Entry :=
  match m.activity with
  | .working (.flush (_ + 1)) => m.registry.nextUnmade?
  | .working (.flush 0) | .working (.close _) | .idle | .inside .. | .gone => none

/-- The entries whose unmaking a flush has carried out, in order. -/
def unmade (passages : List (Passage life)) : List Entry :=
  passages.filterMap fun p => p.before.unmaking?

def freed (i : UInt32) (passages : List (Passage life)) : Nat :=
  (unmade passages).countP fun e => e.index == i

theorem unmade_append_singleton (passages : List (Passage life)) (p : Passage life) :
    unmade (passages ++ [p]) = unmade passages ++ p.before.unmaking?.toList := by
  rw [unmade, List.filterMap_append, unmade]
  cases hu : p.before.unmaking? <;> simp [hu]

end MemoryKit.Registry
