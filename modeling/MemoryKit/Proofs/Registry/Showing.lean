import MemoryKit.Proofs.Registry.Turns

/-! # What an entry shows

An entry shows the last handle that was created for it. As long as there is none, it shows the
placeholder for entries that failed if a creation did, and the one for entries that wait otherwise.
So an entry that is made again shows its old handle until there is a new one.
-/

namespace MemoryKit.Registry

variable {σ P H : Type} {life : Lifetime σ P H} {passages : List (Passage life)}
  {m : Moment σ P H} {i : UInt32} {d d' : EntryRecord P H} {e : Entry}
  {tries tries' : List (Except String H)}

def latest (tries : List (Except String H)) : Option H :=
  (tries.filterMap Except.toOption).getLast?

theorem latest_append_ok (tries : List (Except String H)) (handle : H) :
    latest (tries ++ [.ok handle]) = some handle := by
  rw [latest, List.filterMap_append]
  exact List.getLast?_append_of_ne_nil _ (List.cons_ne_nil _ _)

theorem latest_append_of_failed (h : ∀ handle, Except.ok handle ∉ tries') :
    latest (tries ++ tries') = latest tries := by
  have hnil : tries'.filterMap Except.toOption = [] := by
    rw [List.filterMap_eq_nil_iff]
    rintro (reason | handle) hmem
    · rfl
    · exact absurd hmem (h handle)
  rw [latest, List.filterMap_append, hnil, List.append_nil, latest]

/-- A record knows the last handle created for it, and whether there were only failures. -/
structure EntryRecord.Recalls (d : EntryRecord P H) (tries : List (Except String H)) : Prop where
  handle_eq : d.handle = latest tries
  failed_iff : d.failed = true ↔ latest tries = none ∧ tries.all Except.isOk = false
  made : d.state = some .made → d.handle ≠ none
  failed : d.state = some .failed → d.failed = true

namespace EntryRecord.Recalls

theorem succeeded (ha : d.IsAskedFor) (handle : H) :
    (d.succeeded handle).Recalls (tries ++ [.ok handle]) where
  handle_eq := (latest_append_ok ..).symm
  failed_iff := by
    rw [latest_append_ok]
    exact iff_of_false Bool.false_ne_true fun h => Option.some_ne_none _ h.1
  made _ := Option.some_ne_none _
  failed hs := by
    unfold EntryRecord.succeeded at hs
    dsimp only at hs
    split at hs
    · cases hs
    · obtain hm | hu := ha
      · cases hm.symm.trans hs
      · cases hu.symm.trans hs

theorem defeated (h : d.Recalls tries) (reason : String) :
    d.defeated.Recalls (tries ++ [.error reason]) := by
  have hlatest : latest (tries ++ [.error reason]) = latest tries :=
    latest_append_of_failed fun handle hmem => by cases List.mem_singleton.mp hmem
  have hall : (tries ++ [Except.error reason]).all Except.isOk = false := by
    rw [List.all_append]
    exact Bool.and_false _
  refine ⟨h.handle_eq.trans hlatest.symm, ?_, ?_, ?_⟩
  · change (d.handle.isNone || d.failed) = true ↔ _
    have hfailed := h.failed_iff
    rw [hlatest, hall, ← h.handle_eq] at *
    cases hd : d.handle with
    | none => simp
    | some handle => simpa [hd] using hfailed
  · intro hs
    change d.handle ≠ none
    unfold EntryRecord.defeated at hs
    dsimp only at hs
    split at hs
    · split at hs
      · next hh => exact Option.isSome_iff_ne_none.mp hh
      · cases hs
    · exact h.made hs
  · intro hs
    change (d.handle.isNone || d.failed) = true
    unfold EntryRecord.defeated at hs
    dsimp only at hs
    split at hs
    · split at hs
      · cases hs
      · next hh => simp [Option.not_isSome_iff_eq_none.mp hh]
    · rw [h.failed hs, Bool.or_true]

end EntryRecord.Recalls

/-- Code for which the payload says how the creation ends. -/
def promptLife : Lifetime Unit (Except String String) String where
  create _ payload _ := .done (payload, ())
  destroy _ _ := .done ()

def promptRegistry : Registry (Except String String) String :=
  (Flusher.create promptLife { capacity := 2 } ()
    ⟨.ok "missing", .ok "failed", .ok "making"⟩).answer.toOption.get (by decide +kernel)

theorem create_promptRegistry :
    (Flusher.create promptLife { capacity := 2 } ()
      ⟨.ok "missing", .ok "failed", .ok "making"⟩).answer = .ok promptRegistry :=
  eq_ok_of_isSome _ _

def forcedRequest (payload : Except String String) : MakeRequest (Except String String) :=
  ⟨5, "five", payload, none, true⟩

theorem Step.succeed_replacing {f : Flusher σ P H} {i : UInt32} {name : String} {left : Nat}
    {handle : H} {s : σ} (old : Option H) (hold : (f.registry.installHandle i handle).1 = old) :
    Step life ⟨f, .inside (.create i name left) (.done (.ok handle, s))⟩
      (.created i (.ok handle) :: Event.destroyedAny old)
      (.destroying life
        { f with registry := (f.registry.installHandle i handle).2, lifetime := s } (.flush left)
        old) :=
  hold ▸ .succeed

end MemoryKit.Registry
