import Mathlib.Algebra.BigOperators.Group.List.Basic
import Mathlib.Algebra.GroupWithZero.Nat
import MemoryKit.Proofs.KeyTable.Lifetime

/-! # Handing over to another table

A table hands its entries over in as many calls as one likes, and in between others store values in
the target already. Their values are newer, so that they are kept. Apart from them it makes no
difference how the entries were divided among the calls.
-/

namespace MemoryKit.KeyTable

/-- What happens in turn: some entries are copied, or others store a value in the target. -/
inductive Action where
  | migrate (limit : Nat)
  | set (key value : UInt64)
  | insert (key value : UInt64)

def Action.IsProper : Action → Prop
  | .migrate _ => True
  | .set _ value | .insert _ value => value ≠ nullValue

instance : DecidablePred Action.IsProper
  | .migrate _ => inferInstanceAs (Decidable True)
  | .set _ value | .insert _ value => inferInstanceAs (Decidable (value ≠ nullValue))

/-- The two tables of a migration, and what has come to pass so far. -/
structure Handover where
  source : KeyTable
  target : KeyTable
  /-- The value that others stored for a key last. -/
  theirs : UInt64 → UInt64
  /-- What the calls were to copy at most, and what they answered, the last one first. -/
  calls : List (Nat × Progress)

namespace Handover

variable {source target : KeyTable} {m m' : Handover} {a : Action} {actions : List Action}
  {key value : UInt64} {limit : Nat}

def start (source target : KeyTable) : Handover := ⟨source, target, target.get, []⟩

/-- Copying may fail. Where others fail to store a value, nothing happens. -/
def step (m : Handover) : Action → Except KeyTableError Handover
  | .migrate limit =>
    match m.source.migrate m.target limit with
    | (.ok p, source, target) => .ok { m with source, target, calls := (limit, p) :: m.calls }
    | (.error e, _) => .error e
  | .set key value =>
    match m.target.set key value with
    | (.ok _, target) => .ok { m with target, theirs := Function.update m.theirs key value }
    | (.error _, target) => .ok { m with target }
  | .insert key value =>
    match m.target.insert key value with
    | (.ok old, target) =>
      .ok { m with
        target
        theirs := if old = nullValue then Function.update m.theirs key value else m.theirs }
    | (.error _, target) => .ok { m with target }

def run (m : Handover) (actions : List Action) : Except KeyTableError Handover :=
  actions.foldlM step m

def moved (m : Handover) : Nat := (m.calls.map (·.2.moved)).sum

/-- A call has told that every slot was visited. -/
def IsComplete (m : Handover) : Prop := ∃ c ∈ m.calls, c.2.complete = true

/--
The entries in front of the cursor have come to the target, except that a value of others is kept,
and the calls have told how many they are.
-/
structure IsFaithful (source target : KeyTable) (m : Handover) : Prop where
  source_eq : m.source = { source with cursor := m.source.cursor }
  cursor_le : m.source.cursor ≤ source.slotCount
  probing : m.target.IsProbing
  slotCount_eq : m.target.slotCount = target.slotCount
  claimants : target.claimants ⊆ m.target.claimants
  get_eq : ∀ key, m.target.get key =
    if m.theirs key ≠ nullValue then m.theirs key
    else if key ∈ (source.stretch 0 m.source.cursor).map Prod.fst then source.get key
    else nullValue
  moved_eq : m.moved = (source.stretch 0 m.source.cursor).length
  call : ∀ c ∈ m.calls, c.2.moved ≤ c.1 ∧ (c.2.complete = false → c.1 ≤ c.2.moved) ∧
    (c.2.complete = true → m.source.cursor = source.slotCount)

theorem isFaithful_start (ht : target.IsProbing) (hcursor : source.cursor = 0) :
    IsFaithful source target (start source target) where
  source_eq := rfl
  cursor_le := by
    rw [start, hcursor]
    exact Nat.zero_le _
  probing := ht
  slotCount_eq := rfl
  claimants := Finset.Subset.refl _
  get_eq key := by
    simp only [start, hcursor, stretch_zero, List.map_nil, List.not_mem_nil, if_false]
    split
    · rfl
    · next hnull => exact not_not.mp hnull
  moved_eq := by
    rw [start, hcursor, stretch_zero]
    rfl
  call := nofun

theorem IsFaithful.exists_stretch (h : IsFaithful source target m)
    (hstep : m.step (.migrate limit) = .ok m') :
    ∃ p n, m.source.cursor + n ≤ source.slotCount ∧
      m.target.Takes (source.stretch m.source.cursor n) ∧
      m' = ⟨{ source with cursor := m.source.cursor + n },
        m.target.insertAll (source.stretch m.source.cursor n), m.theirs, (limit, p) :: m.calls⟩ ∧
      p.moved = (source.stretch m.source.cursor n).length ∧ p.moved ≤ limit ∧
      (p.complete = true ↔ m.source.cursor + n = source.slotCount) ∧
      (p.complete = false → limit ≤ p.moved) := by
  obtain ⟨source', target', theirs, calls⟩ := m
  obtain ⟨cursor, rfl⟩ : ∃ cursor, source' = { source with cursor } := ⟨_, h.source_eq⟩
  cases hmigrate : migrate { source with cursor } target' limit with
  | mk answer tables =>
    obtain ⟨source', target'⟩ := tables
    simp only [step, hmigrate] at hstep
    cases answer with
    | error e => cases hstep
    | ok p =>
      cases hstep
      obtain ⟨n, hin, ⟨rfl, htakes, rfl⟩, hrest⟩ := migrate_ok h.cursor_le hmigrate
      exact ⟨p, n, hin, htakes, rfl, hrest⟩

theorem IsFaithful.copy (hs : source.IsProbing) (h : IsFaithful source target m)
    (hstep : m.step (.migrate limit) = .ok m') : IsFaithful source target m' := by
  obtain ⟨p, n, hin, htakes, rfl, hmoved, hle, hcomplete, hearly⟩ := h.exists_stretch hstep
  obtain ⟨hprobing, hslots, hclaimants, hget⟩ := h.probing.insertAll_stretch hs hin htakes
  have hvisited := source.stretch_add 0 m.source.cursor n
  rw [Nat.zero_add] at hvisited
  refine ⟨rfl, hin, hprobing, hslots.trans h.slotCount_eq, h.claimants.trans hclaimants, ?_, ?_, ?_⟩
  · intro key
    simp only [hget, h.get_eq, hvisited, List.map_append, List.mem_append]
    -- A key that lies in front of the cursor has the value of the source or of others already.
    by_cases htheirs : m.theirs key = nullValue
    · by_cases hmem : key ∈ (source.stretch 0 m.source.cursor).map Prod.fst
      · simp only [htheirs, hmem, ne_eq, not_true_eq_false, if_false, if_true, true_or, ite_self]
      · simp only [htheirs, hmem, ne_eq, not_true_eq_false, if_false, true_and, false_or]
    · simp only [htheirs, ne_eq, not_false_eq_true, if_true, false_and, if_false]
  · rw [hvisited, List.length_append, ← h.moved_eq, ← hmoved, moved, List.map_cons, List.sum_cons,
      Nat.add_comm]
    rfl
  · intro c hc
    rcases List.mem_cons.mp hc with rfl | hc
    · exact ⟨hle, hearly, hcomplete.mp⟩
    · obtain ⟨hle, hearly, hend⟩ := h.call c hc
      refine ⟨hle, hearly, fun hcomplete => ?_⟩
      have hlast := hend hcomplete
      dsimp only
      omega

theorem IsFaithful.store (h : IsFaithful source target m) {t : KeyTable} (ht : t.IsProbing)
    (hslots : t.slotCount = m.target.slotCount) (hclaimants : m.target.claimants ⊆ t.claimants)
    {value : UInt64} (hv : value ≠ nullValue)
    (hget : ∀ other, t.get other = if other = key then value else m.target.get other) :
    IsFaithful source target
      { m with target := t, theirs := Function.update m.theirs key value } where
  source_eq := h.source_eq
  cursor_le := h.cursor_le
  probing := ht
  slotCount_eq := hslots.trans h.slotCount_eq
  claimants := h.claimants.trans hclaimants
  get_eq other := by
    rw [hget, h.get_eq]
    by_cases ho : other = key
    · simp only [ho, if_true, hv, ne_eq, not_false_eq_true, Function.update_self]
    · simp only [ho, if_false, ne_eq, not_false_eq_true, Function.update_of_ne]
  moved_eq := h.moved_eq
  call := h.call

theorem IsFaithful.set (h : IsFaithful source target m) (hv : value ≠ nullValue)
    (hstep : m.step (.set key value) = .ok m') : IsFaithful source target m' := by
  cases hset : m.target.set key value with
  | mk answer t =>
    simp only [step, hset] at hstep
    cases answer with
    | error e =>
      cases hstep
      obtain rfl : t = m.target := by
        have hkept := set_of_error (congrArg Prod.fst hset)
        rwa [hset] at hkept
      exact h
    | ok old =>
      cases hstep
      obtain ⟨hprobing, hslots, hclaimants, hget⟩ := h.probing.set hset
      exact h.store hprobing hslots (hclaimants ▸ Finset.subset_insert _ _) hv hget

theorem IsFaithful.insert (h : IsFaithful source target m) (hv : value ≠ nullValue)
    (hstep : m.step (.insert key value) = .ok m') : IsFaithful source target m' := by
  have hslots := (h.probing.insert_spec key value).2.2.1
  cases hinsert : m.target.insert key value with
  | mk answer t =>
    rw [hinsert] at hslots
    simp only [step, hinsert] at hstep
    cases answer with
    | error e =>
      cases hstep
      obtain rfl := insert_error hinsert
      exact h
    | ok old =>
      obtain ⟨rfl, hprobing, hget⟩ := h.probing.insert hinsert
      have hclaimants := h.probing.claimants_insert hinsert
      cases hstep
      by_cases hnull : m.target.get key = nullValue
      · simp only [hnull, and_true] at hget ⊢
        exact h.store hprobing hslots (hclaimants ▸ Finset.subset_insert _ _) hv hget
      · simp only [hnull, and_false, if_false] at hget ⊢
        exact ⟨h.source_eq, h.cursor_le, hprobing, hslots.trans h.slotCount_eq,
          h.claimants.trans (hclaimants ▸ Finset.subset_insert _ _),
          fun other => (hget other).trans (h.get_eq other), h.moved_eq, h.call⟩

theorem run_of_step {next : Handover} (hstep : m.step a = .ok next) (actions : List Action) :
    m.run (a :: actions) = next.run actions := by
  rw [run, List.foldlM_cons, hstep]
  rfl

theorem exists_step_of_run (hrun : m.run (a :: actions) = .ok m') :
    ∃ next, m.step a = .ok next ∧ next.run actions = .ok m' := by
  cases hstep : m.step a with
  | error e =>
    rw [run, List.foldlM_cons, hstep] at hrun
    cases hrun
  | ok next =>
    rw [run_of_step hstep] at hrun
    exact ⟨next, rfl, hrun⟩

theorem IsFaithful.run (hs : source.IsProbing) (h : IsFaithful source target m)
    (hproper : ∀ a ∈ actions, a.IsProper) (hrun : m.run actions = .ok m') :
    IsFaithful source target m' := by
  induction actions generalizing m with
  | nil =>
    cases hrun
    exact h
  | cons a actions ih =>
    obtain ⟨ha, hproper⟩ := List.forall_mem_cons.mp hproper
    obtain ⟨next, hstep, hrun⟩ := exists_step_of_run hrun
    refine ih ?_ hproper hrun
    cases a with
    | migrate limit => exact h.copy hs hstep
    | set key value => exact h.set ha hstep
    | insert key value => exact h.insert ha hstep

theorem mem_calls_of_step {c : Nat × Progress} (hstep : m.step a = .ok m') (hc : c ∈ m'.calls) :
    c ∈ m.calls ∨ .migrate c.1 = a := by
  cases a with
  | migrate limit =>
    simp only [step] at hstep
    split at hstep <;> cases hstep
    rcases List.mem_cons.mp hc with rfl | hc
    · exact .inr rfl
    · exact .inl hc
  | set key value | insert key value =>
    simp only [step] at hstep
    split at hstep <;> cases hstep <;> exact .inl hc

theorem mem_calls_of_run {c : Nat × Progress} (hrun : m.run actions = .ok m')
    (hc : c ∈ m'.calls) : c ∈ m.calls ∨ .migrate c.1 ∈ actions := by
  induction actions generalizing m with
  | nil =>
    cases hrun
    exact .inl hc
  | cons a actions ih =>
    obtain ⟨next, hstep, hrun⟩ := exists_step_of_run hrun
    rcases ih hrun with hmem | hmem
    · rcases mem_calls_of_step hstep hmem with hmem | rfl
      · exact .inl hmem
      · exact .inr List.mem_cons_self
    · exact .inr (List.mem_cons_of_mem _ hmem)

theorem IsFaithful.isComplete_of_length (h : IsFaithful source target m)
    (hlimits : ∀ c ∈ m.calls, 0 < c.1) (hlength : source.size < m.calls.length) :
    m.IsComplete := by
  by_contra hrest
  have hsome : ∀ c ∈ m.calls, 1 ≤ c.2.moved := by
    intro c hc
    refine Nat.le_trans (hlimits c hc) ((h.call c hc).2.1 ?_)
    by_contra hcomplete
    exact hrest ⟨c, hc, Bool.not_eq_false _ ▸ hcomplete⟩
  have hle : m.calls.length ≤ m.moved := by
    have hsum := List.length_le_sum_of_one_le (m.calls.map (·.2.moved))
      (List.forall_mem_map.mpr hsome)
    rwa [List.length_map] at hsum
  have hvisited : m.moved ≤ source.size := by
    rw [h.moved_eq]
    exact length_stretch_le (by rw [Nat.zero_add]; exact h.cursor_le)
  omega

theorem IsFaithful.stretch_eq (h : IsFaithful source target m) (hcomplete : m.IsComplete) :
    source.stretch 0 m.source.cursor = source.entries := by
  obtain ⟨c, hc, hend⟩ := hcomplete
  rw [(h.call c hc).2.2 hend, stretch_slotCount]

theorem IsFaithful.get_of_complete (hs : source.IsProbing) (h : IsFaithful source target m)
    (hcomplete : m.IsComplete) (key : UInt64) : m.target.get key =
      if m.theirs key = nullValue then source.get key else m.theirs key := by
  rw [h.get_eq, h.stretch_eq hcomplete]
  by_cases htheirs : m.theirs key = nullValue
  · simp only [htheirs, ne_eq, not_true_eq_false, if_false, if_true]
    by_cases hmem : key ∈ source.entries.map Prod.fst
    · rw [if_pos hmem]
    · rw [if_neg hmem, hs.get_of_notMem_entries hmem]
  · simp only [htheirs, ne_eq, not_false_eq_true, if_true, if_false]

theorem migrate_of_takes (hcursor : source.cursor = 0) (hle : source.slotCount ≤ target.slotCount)
    (htakes : target.Takes source.entries) (hlimit : source.size < limit) :
    source.migrate target limit = (.ok ⟨source.size, true⟩,
      { source with cursor := source.slotCount }, target.insertAll source.entries) := by
  have hall : target.Takes (source.stretch source.cursor (source.slotCount - source.cursor)) := by
    rwa [hcursor, Nat.sub_zero, stretch_slotCount]
  obtain ⟨⟨moved, complete⟩, hp⟩ := migrate_isOk hle (by omega) hall limit
  obtain ⟨n, hin, ⟨hsource, -, htarget⟩, hmoved, -, hcomplete, hearly⟩ :=
    migrate_ok (by omega) (Prod.ext hp rfl : source.migrate target limit = (.ok _, _, _))
  rw [hcursor, Nat.zero_add] at hin hsource hcomplete
  rw [hcursor] at hmoved htarget
  obtain rfl : complete = true := by
    by_contra hrest
    have hfew := hearly (Bool.not_eq_true _ ▸ hrest)
    have hmany := source.length_stretch_le (i := 0) (n := n) (by omega)
    omega
  obtain rfl : n = source.slotCount := hcomplete.mp rfl
  rw [stretch_slotCount] at hmoved htarget
  subst hmoved
  exact Prod.ext hp (Prod.ext hsource htarget)

/--
The target has a slot for every key, since it has one for each of them and for the keys that it
held before.
-/
theorem IsFaithful.takes_entries (hs : source.IsProbing) (ht : target.IsProbing)
    (h : IsFaithful source target m) (hcomplete : m.IsComplete) :
    target.Takes source.entries := by
  rw [ht.takes_iff]
  refine ⟨fun e he => ne_nullKey_of_mem_entries hs he, ?_⟩
  rw [← h.slotCount_eq]
  refine Nat.le_trans (Finset.card_le_card ?_) h.probing.card_claimants_le
  refine Finset.union_subset h.claimants fun key hkey => ?_
  obtain ⟨e, he, rfl⟩ := List.mem_map.mp (List.mem_toFinset.mp hkey)
  obtain ⟨hv, hvalue⟩ := hs.mem_entries.mp he
  apply mem_claimants_of_get
  rw [h.get_of_complete hs hcomplete, hvalue]
  split
  · exact hv
  · assumption

/--
No matter how the entries are divided among the calls, and what others store in between, as long as
no copying fails: no call copies more than it may, complete is reported after at most as many calls
as there are entries and one, and then every entry was copied once. A key has the value that others
stored for it last, if they did, and else that of the source. A single call copies as many, and the
target answers alike for every key that has no other value of others than at the start.
-/
theorem migrates_like_once (hs : Unmigrated source) (ht : Made target)
    (hle : source.slotCount ≤ target.slotCount) (hproper : ∀ a ∈ actions, a.IsProper)
    (hrun : (start source target).run actions = .ok m) :
    (∀ c ∈ m.calls, c.2.moved ≤ c.1) ∧
      ((∀ limit, .migrate limit ∈ actions → 0 < limit) →
        source.size < m.calls.length → m.IsComplete) ∧
      (m.IsComplete →
        m.moved = source.size ∧
        (∀ key, m.target.get key =
          if m.theirs key = nullValue then source.get key else m.theirs key) ∧
        ∀ limit, source.size < limit →
          (source.migrate target limit).1 = .ok ⟨source.size, true⟩ ∧
          ∀ key, m.theirs key = target.get key →
            m.target.get key = (source.migrate target limit).2.2.get key) := by
  have hprobing := hs.made.isProbing
  have h := (isFaithful_start ht.isProbing hs.cursor_eq).run hprobing hproper hrun
  refine ⟨fun c hc => (h.call c hc).1, fun hlimits => ?_, fun hcomplete => ⟨?_, ?_, ?_⟩⟩
  · refine h.isComplete_of_length fun c hc => hlimits c.1 ?_
    exact (mem_calls_of_run hrun hc).resolve_left nofun
  · rw [h.moved_eq, h.stretch_eq hcomplete]
    rfl
  · exact h.get_of_complete hprobing hcomplete
  · intro limit hlimit
    have htakes := h.takes_entries hprobing ht.isProbing hcomplete
    rw [migrate_of_takes hs.cursor_eq hle htakes hlimit]
    refine ⟨rfl, fun key htheirs => ?_⟩
    rw [h.get_of_complete hprobing hcomplete, htheirs]
    exact (ht.isProbing.get_insertAll_entries hprobing htakes key).symm

def oldTable : KeyTable :=
  (empty 3).after [.set 1 11, .set 2 22, .set 3 33, .set 9 99, .remove 3, .set 5 55]

def rivals : List Action :=
  [.migrate 1, .set 1 10, .insert 9 90, .insert 1 13, .migrate 1, .migrate 1, .migrate 1,
    .migrate 1]

theorem migrates_like_once_rivals :
    withCapacity 4 = .ok (empty 3) ∧ withCapacity 8 = .ok (empty 4) ∧
      ∃ m, (start oldTable ((empty 4).after [.set 2 20])).run rivals = .ok m ∧
        m.calls.length = 5 ∧ m.moved = 4 ∧ m.target.get 1 = 10 ∧ m.target.get 2 = 20 ∧
        m.target.get 9 = 90 ∧ m.target.get 5 = 55 ∧ m.target.get 3 = nullValue := by
  have hold : withCapacity 4 = .ok (empty 3) := rfl
  have hnew : withCapacity 8 = .ok (empty 4) := rfl
  have hs : Unmigrated oldTable :=
    .call _ (.call _ (.call _ (.call _ (.call _ (.call _ (.create hold))))))
  have ht : Made ((empty 4).after [.set 2 20]) := .call _ (.create hnew)
  have hproper : ∀ a ∈ rivals, a.IsProper := by decide
  have heval : ((start oldTable ((empty 4).after [.set 2 20])).run rivals).map
      (fun m => (m.calls, [1, 2, 9, 5, 3].map m.theirs)) =
      .ok ([(1, ⟨0, true⟩), (1, ⟨1, false⟩), (1, ⟨1, false⟩), (1, ⟨1, false⟩), (1, ⟨1, false⟩)],
        [10, 20, 90, nullValue, nullValue]) := by
    decide +kernel
  cases hrun : (start oldTable ((empty 4).after [.set 2 20])).run rivals with
  | error e =>
    rw [hrun] at heval
    cases heval
  | ok m =>
    rw [hrun] at heval
    obtain ⟨hcalls, htheirs⟩ := Prod.mk.inj (Except.ok.inj heval)
    simp only [List.map_cons, List.cons.injEq, List.map_nil, and_true] at htheirs
    obtain ⟨htheirs₁, htheirs₂, htheirs₉, htheirs₅, htheirs₃⟩ := htheirs
    obtain ⟨-, -, hcomplete⟩ := migrates_like_once hs ht (by decide +kernel) hproper hrun
    obtain ⟨hmoved, hget, -⟩ := hcomplete ⟨(1, ⟨0, true⟩), by rw [hcalls]; decide, rfl⟩
    refine ⟨hold, hnew, m, rfl, by rw [hcalls]; rfl, ?_, ?_, ?_, ?_, ?_, ?_⟩
    · rw [hmoved]
      decide +kernel
    all_goals rw [hget]
    · rw [htheirs₁]
      decide
    · rw [htheirs₂]
      decide
    · rw [htheirs₉]
      decide
    · rw [htheirs₅]
      decide +kernel
    · rw [htheirs₃]
      decide +kernel

end Handover

end MemoryKit.KeyTable
