import MemoryKit.Proofs.Allocator.History
import MemoryKit.Proofs.Allocator.Twins

/-! # Starting over

Whatever became of an allocator, once it is reset it answers as a new one over an arena of the same
addresses. The two run side by side: their callers hold the same allocations and their heaps have
one layout, while old headers, tags and the labels that are known differ. What is told about a block
is its label, which both find, though at different positions.
-/

namespace MemoryKit

namespace Allocator

inductive Ask where
  | call (call : Call)
  | size (pointer : Nat)
  | stats
  | walk

inductive Answer where
  | pointer (answer : Option Nat)
  | freed (error : Option AllocatorError)
  | valid (answer : Bool)
  | size (answer : Option Nat)
  | stats (answer : AllocatorStats)
  | walk (answer : List BlockInfo)
  | done
  deriving DecidableEq

def Ask.label? : Ask → Option Label
  | call c => c.label?
  | _ => none

end Allocator

open Allocator

namespace Usage

/-- What the allocator answers. Its statistics are told without the peak. -/
def answer (u : Usage) : Ask → Answer
  | .call (.allocate bytes label options) =>
    .pointer (u.allocator.allocate bytes label options).answer
  | .call (.reallocate pointer bytes) => .pointer (u.allocator.reallocate pointer bytes).answer
  | .call (.deallocate pointer) =>
    match (u.allocator.deallocate pointer).1 with
    | .ok () => .freed none
    | .error e => .freed (some e)
  | .call .reset => .done
  | .call .valid => .valid u.allocator.valid.answer
  | .call (.write _ _) => .done
  | .size pointer => .size (u.allocator.size? pointer)
  | .stats => .stats { u.allocator.stats with peak := 0 }
  | .walk => .walk u.allocator.walk

def next (u : Usage) : Ask → Usage
  | .call c => u.after c
  | _ => u

/-- Pointers are null or held. -/
def PermitsAsk (u : Usage) : Ask → Prop
  | .call c => u.Permits c
  | .size pointer => pointer = 0 ∨ ∃ x ∈ u.held, x.pointer = pointer
  | .stats => True
  | .walk => True

def answers (u : Usage) : List Ask → List Answer
  | [] => []
  | ask :: asks => u.answer ask :: (u.next ask).answers asks

def PermitsAll (u : Usage) : List Ask → Prop
  | [] => True
  | ask :: asks => u.PermitsAsk ask ∧ (u.next ask).PermitsAll asks

end Usage

namespace Allocator

open Heap

variable {a a' : Allocator} {u u' : Usage} {L : Layout} {call : Call} {ask : Ask} {bytes : Nat}
  {labels : Finset Label} {arena arena' : Arena}

/-- An allocator serves its callers, its accounts are right and allocations have their labels. -/
structure Runs (u : Usage) (labels : Finset Label) (L : Layout) : Prop where
  serves : Serves u.allocator u.held L
  balanced : u.allocator.Balanced L
  inRange : u.allocator.region.InRange
  labelled : Labelled u labels

theorem Runs.after (R : Runs u labels L) (hs : Suits labels) (hp : u.Permits call)
    (hl : ∀ l ∈ call.label?, l ∈ labels) : ∃ L', Runs (u.after call) labels L' := by
  obtain ⟨L', S', B'⟩ := R.serves.after_balanced R.balanced R.inRange hp
  exact ⟨L', S', B', (R.serves.after hp).2 ▸ R.inRange,
    R.labelled.after R.serves R.balanced R.inRange hs hp hl⟩

theorem Sized.runs_reset (h : a.Sized) (hr : a.region.InRange) (K : a.KnowsFrom labels) :
    Runs ⟨a.reset.state, []⟩ labels (emptyLayout a.heap.capacity) where
  serves := .of_emptyLayout h.reset
  balanced := balanced_of_unused rfl rfl rfl rfl
  inRange := hr
  labelled := ⟨K.congr rfl, by simp⟩

theorem Runs.info_eq (R : Runs u labels L) {x : Holding} {b : Block} {user : Nat} (hx : x ∈ u.held)
    (hb : b ∈ L.blocks) (P : u.allocator.IsPlaced x b user) :
    u.allocator.info b = ⟨b.offset, b.size, true, some x.label⟩ := by
  rw [info, P.used, if_pos rfl, ← P.labelOf?_eq R.serves.layout hb, R.labelled.carries x hx]

theorem size?_zero (a : Allocator) : a.size? 0 = none := by
  have hnone : ∀ r, a.locate 0 ≠ .ok r := by
    unfold locate
    cases ho : a.offsetOf? 0 with
    | none => simp
    | some user =>
      unfold offsetOf? at ho
      obtain ⟨hin, -⟩ := Option.filter_eq_some_iff.mp ho
      have huser : user = 0 := by
        have := (Region.offsetOf?_eq_some_iff.mp hin).1
        omega
      simp [huser, headerSize]
  unfold size?
  split
  · next h => exact absurd h (hnone _)
  · rfl

/-- Two allocators of one region run with the same allocations and with one layout. -/
structure SideBySide (u u' : Usage) (labels : Finset Label) (L : Layout) : Prop where
  left : Runs u labels L
  right : Runs u' labels L
  region_eq : u'.allocator.region = u.allocator.region
  held_eq : u'.held = u.held

namespace SideBySide

variable (W : SideBySide u u' labels L)

include W

theorem twins : Heap.Twins u.allocator.heap u'.allocator.heap L :=
  ⟨W.left.serves.layout.settled, W.left.serves.layout.heap, W.right.serves.layout.heap⟩

theorem exists_placed {x : Holding} (hx : x ∈ u.held) : ∃ b ∈ L.blocks, ∃ user,
    u.allocator.IsPlaced x b user ∧ u'.allocator.IsPlaced x b user := by
  obtain ⟨b, hb, user, P⟩ := W.left.serves.placed x hx
  obtain ⟨c, hc, user', P'⟩ := W.right.serves.placed x (W.held_eq.symm ▸ hx)
  obtain ⟨rfl, rfl⟩ := P.eq_of_region P' W.left.serves.layout hb hc W.region_eq rfl
  exact ⟨b, hb, user, P, P'⟩

theorem permits (hp : u.Permits call) : u'.Permits call := by
  cases call with
  | allocate => trivial
  | reallocate =>
    rw [Usage.Permits, W.held_eq]
    exact hp
  | deallocate =>
    rw [Usage.Permits, W.held_eq]
    exact hp
  | reset => trivial
  | valid => trivial
  | write offset bytes =>
    obtain ⟨x, hx, size, hs, hlo, hhi⟩ := hp
    obtain ⟨b, hb, user, P, P'⟩ := W.exists_placed hx
    rw [P.size?_eq W.left.serves.layout hb] at hs
    refine ⟨x, W.held_eq.symm ▸ hx, size, (P'.size?_eq W.right.serves.layout hb).trans hs, ?_⟩
    rw [W.region_eq]
    exact ⟨hlo, hhi⟩

theorem size?_eq {pointer : Nat} (hp : pointer = 0 ∨ ∃ x ∈ u.held, x.pointer = pointer) :
    u.allocator.size? pointer = u'.allocator.size? pointer := by
  rcases hp with rfl | ⟨x, hx, rfl⟩
  · rw [size?_zero, size?_zero]
  · obtain ⟨b, hb, user, P, P'⟩ := W.exists_placed hx
    rw [P.size?_eq W.left.serves.layout hb, P'.size?_eq W.right.serves.layout hb]

theorem stats_eq : ({ u.allocator.stats with peak := 0 } : AllocatorStats) =
    { u'.allocator.stats with peak := 0 } := by
  rw [W.left.serves.layout.stats_eq, W.right.serves.layout.stats_eq, W.left.balanced.allocations_eq,
    W.right.balanced.allocations_eq, W.left.balanced.bytes_eq, W.right.balanced.bytes_eq,
    W.twins.capacity_eq]

theorem walk_eq : u.allocator.walk = u'.allocator.walk := by
  rw [W.left.serves.layout.walk_eq, W.right.serves.layout.walk_eq]
  refine List.map_congr_left fun b hb => ?_
  by_cases hu : b.used = true
  · obtain ⟨x, hx, user, P⟩ := W.left.serves.covered W.left.inRange b hb hu
    obtain ⟨c, hc, user', Px, Px'⟩ := W.exists_placed hx
    obtain rfl := P.block_eq Px W.left.serves.layout hb hc rfl
    rw [W.left.info_eq hx hb P, W.right.info_eq (W.held_eq.symm ▸ hx) hb Px']
  · simp only [info, hu, if_false, Bool.false_eq_true]

theorem agree_allocate (bytes : Nat) (label : Label) (options : AllocationOptions) :
    Agree (u.allocator.allocate bytes label options) (u'.allocator.allocate bytes label options) :=
  agree_allocateAligned W.left.serves.layout W.right.serves.layout W.region_eq
    W.left.balanced.unpoisoned W.right.balanced.unpoisoned bytes label label options

theorem agree_reallocate {pointer : Nat} (hp : u.Permits (.reallocate pointer bytes)) :
    Agree (u.allocator.reallocate pointer bytes) (u'.allocator.reallocate pointer bytes) := by
  rcases hp with rfl | ⟨x, hx, rfl⟩
  · simp only [Allocator.reallocate, if_true]
    exact W.agree_allocate bytes .resized .standard
  · obtain ⟨b, hb, user, P, P'⟩ := W.exists_placed hx
    exact Allocator.agree_reallocate P P' W.left.serves.layout W.right.serves.layout hb W.region_eq
      W.left.balanced.unpoisoned W.right.balanced.unpoisoned bytes

/-- A call is answered alike, and afterwards the same is held and the heaps have one layout. -/
theorem agree (hp : u.Permits call) : u.answer (.call call) = u'.answer (.call call) ∧
    (u'.after call).held = (u.after call).held ∧
      ∃ L', Heap.Twins (u.after call).allocator.heap (u'.after call).allocator.heap L' := by
  cases call with
  | allocate bytes label options =>
    obtain ⟨hanswer, L', hheaps⟩ := W.agree_allocate bytes label options
    unfold Usage.after Usage.answer
    dsimp only
    rw [← hanswer, W.held_eq]
    cases (u.allocator.allocate bytes label options).answer <;> exact ⟨rfl, rfl, L', hheaps⟩
  | reallocate pointer bytes =>
    obtain ⟨hanswer, L', hheaps⟩ := W.agree_reallocate hp
    unfold Usage.after Usage.answer
    dsimp only
    rw [← hanswer, W.held_eq]
    cases (u.allocator.reallocate pointer bytes).answer with
    | none => exact ⟨rfl, rfl, L', hheaps⟩
    | some moved =>
      dsimp only
      split <;> exact ⟨rfl, rfl, L', hheaps⟩
  | deallocate pointer =>
    unfold Usage.after Usage.answer
    dsimp only
    rcases hp with rfl | ⟨x, hx, rfl⟩
    · have hnull : ∀ a : Allocator, a.deallocate 0 = (.ok (), a) := fun _ => rfl
      rw [hnull, hnull, W.held_eq]
      exact ⟨rfl, rfl, L, W.twins⟩
    · obtain ⟨b, hb, user, P, P'⟩ := W.exists_placed hx
      rw [P.deallocate_eq W.left.serves.layout hb W.left.balanced.unpoisoned,
        P'.deallocate_eq W.right.serves.layout hb W.right.balanced.unpoisoned, W.held_eq]
      exact ⟨rfl, rfl, W.twins.free hb P.used⟩
  | reset =>
    have H := W.left.serves.layout.reset
    have H' := W.right.serves.layout.reset
    rw [← W.twins.capacity_eq] at H'
    exact ⟨rfl, rfl, _, H.settled, H.heap, H'.heap⟩
  | valid =>
    have hvalid := W.left.serves.valid_eq W.left.balanced W.left.inRange
    have hvalid' := W.right.serves.valid_eq W.right.balanced W.right.inRange
    unfold Usage.after Usage.answer
    dsimp only
    rw [hvalid, hvalid']
    exact ⟨rfl, W.held_eq, L, W.twins⟩
  | write offset bytes =>
    obtain ⟨S, -⟩ := W.left.serves.write_permitted hp
    obtain ⟨S', -⟩ := W.right.serves.write_permitted (W.permits hp)
    exact ⟨rfl, W.held_eq, L, S.layout.settled, S.layout.heap, S'.layout.heap⟩

theorem step (hs : Suits labels) (hp : u.PermitsAsk ask)
    (hl : ∀ l ∈ ask.label?, l ∈ labels) : u.answer ask = u'.answer ask ∧
      ∃ L', SideBySide (u.next ask) (u'.next ask) labels L' := by
  cases ask with
  | call call =>
    obtain ⟨hanswer, hheld, L', hheaps⟩ := W.agree hp
    obtain ⟨L₁, R⟩ := W.left.after hs hp hl
    obtain ⟨L₂, R'⟩ := W.right.after hs (W.permits hp) hl
    obtain rfl := R.serves.layout.heap.unique hheaps.2.1
    obtain rfl := R'.serves.layout.heap.unique hheaps.2.2
    refine ⟨hanswer, _, R, R', ?_, hheld⟩
    rw [Usage.next, Usage.next, (W.left.serves.after hp).2,
      (W.right.serves.after (W.permits hp)).2, W.region_eq]
  | size pointer => exact ⟨congrArg Answer.size (W.size?_eq hp), L, W⟩
  | stats => exact ⟨congrArg Answer.stats W.stats_eq, L, W⟩
  | walk => exact ⟨congrArg Answer.walk W.walk_eq, L, W⟩

theorem answers_eq (hs : Suits labels) {asks : List Ask} (hp : u.PermitsAll asks)
    (hl : ∀ ask ∈ asks, ∀ l ∈ ask.label?, l ∈ labels) : u.answers asks = u'.answers asks := by
  induction asks generalizing u u' L with
  | nil => rfl
  | cons ask asks ih =>
    obtain ⟨hask, hasks⟩ := List.forall_mem_cons.mp hl
    obtain ⟨hanswer, L', W'⟩ := W.step hs hp.1 hask
    rw [Usage.answers, Usage.answers, hanswer, ih W' hp.2 hasks]

end SideBySide

/-- Where an arena has its addresses decides whether an allocator can be built over it. -/
theorem ofArena_of_region {log : List Record} (h : ofArena arena = .ok (a, log))
    (hregion : arena'.toRegion = arena.toRegion) : ∃ new log',
      ofArena arena' = .ok (new, log') ∧ new.heap.capacity = a.heap.capacity := by
  obtain ⟨region, owned, memory⟩ := arena
  obtain ⟨region', owned', memory'⟩ := arena'
  obtain rfl : region' = region := hregion
  unfold ofArena at h ⊢
  dsimp only at h ⊢
  split at h
  · cases h
  next haligned =>
  split at h
  · cases h
  next hsize =>
  rw [if_neg haligned, if_neg hsize]
  cases h
  have hcap : ∀ m, (Heap.create m (usableSize region'.size)).capacity = usableSize region'.size :=
    fun _ => capacity_reset _
  exact ⟨_, _, rfl, (hcap memory').trans (hcap memory).symm⟩

/--
Whatever the history of an allocator is, after a reset it answers whatever may be asked as a new
allocator over an arena of the same addresses, as long as there are positions for all places of
labels and the words at a place do not change.
-/
theorem History.reset_answers_as_new (h : History arena a) (hr : arena.toRegion.InRange)
    (hregion : arena'.toRegion = arena.toRegion) (hs : Suits labels)
    (hknown : ∀ l ∈ a.labels.toList, l ∈ labels) :
    ∃ new log, ofArena arena' = .ok (new, log) ∧ ∀ asks : List Ask,
      (Usage.mk a.reset.state []).PermitsAll asks →
        (∀ ask ∈ asks, ∀ l ∈ ask.label?, l ∈ labels) →
          (Usage.mk a.reset.state []).answers asks = (Usage.mk new []).answers asks := by
  obtain ⟨first, log₀, hfirst, hpersists⟩ := h.exists_persists
  obtain ⟨new, log, hnew, hcap⟩ := ofArena_of_region hfirst hregion
  obtain ⟨a₀, rfl, hsized₀, hregion₀, hlabels₀⟩ := exists_reset_of_ofArena hfirst
  obtain ⟨a₁, rfl, hsized₁, hregion₁, hlabels₁⟩ := exists_reset_of_ofArena hnew
  have hcap₁ : a₁.heap.capacity = a.heap.capacity :=
    (capacity_reset _).symm.trans (hcap.trans hpersists.capacity_eq.symm)
  have hregion' : a.region = arena.toRegion := hpersists.region_eq.trans hregion₀
  have hsame : a₁.region = a.region := hregion₁.trans (hregion.trans hregion'.symm)
  have hsized : a.Sized := by
    refine ⟨hcap₁ ▸ hsized₁.granule_dvd_capacity, hcap₁ ▸ hsized₁.capacity_pos,
      hcap₁ ▸ hsized₁.capacity_lt, hcap₁ ▸ hsame ▸ hsized₁.capacity_le,
      hsame ▸ hsized₁.granule_dvd, hpersists.size_le hsized₀.labels_le⟩
  have R := hsized.runs_reset (hregion' ▸ hr)
    ⟨hpersists.apart (knowsFrom_of_unlabelled hlabels₀ labels).1, hknown⟩
  have R' : Runs ⟨a₁.reset.state, []⟩ labels (emptyLayout a.heap.capacity) := hcap₁ ▸
    hsized₁.runs_reset (hsame.trans hregion' ▸ hr) (knowsFrom_of_unlabelled hlabels₁ labels)
  have W : SideBySide ⟨a.reset.state, []⟩ ⟨a₁.reset.state, []⟩ labels _ := ⟨R, R', hsame, rfl⟩
  exact ⟨_, log, hnew, fun asks hp hl => W.answers_eq hs hp hl⟩

section Ruined

open Usage.Reachable (smallArena)

def served : Allocator :=
  ((Usage.mk ⟨smallArena.toRegion, .create .zeroed 512, #[], 0, 0, 0, false⟩ []).after
    (.allocate 100 ⟨8, "first"⟩ .standard)).allocator

/-- Its arena was overwritten, and a check found that out. -/
def ruined : Allocator :=
  ((Usage.mk { served with
    heap := { served.heap with memory := .write .zeroed 0 (List.replicate 32 255) } } []).after
      .valid).allocator

theorem history_ruined : History smallArena ruined :=
  .call .valid (.overwrite _ (.call (.allocate 100 ⟨8, "first"⟩ .standard) (.start rfl)))

def askings : List Ask :=
  [.call (.allocate 40 ⟨16, "second"⟩ .standard), .size 4112, .walk,
    .call (.reallocate 4112 200), .call .valid, .call (.deallocate 4112), .stats]

theorem suits_askings : Suits {⟨8, "first"⟩, ⟨16, "second"⟩} where
  injOn := by simp [Set.InjOn, Label.key]
  card_lt := by decide

theorem History.reset_answers_as_new_ruined :
    ruined.poisoned = true ∧ ruined.labels = #[⟨8, "first"⟩] ∧
      ∃ new log, ofArena smallArena = .ok (new, log) ∧
        (Usage.mk ruined.reset.state []).answers askings = (Usage.mk new []).answers askings := by
  have hlabels : ruined.labels = #[⟨8, "first"⟩] := by decide +kernel
  have hpermits : (Usage.mk ruined.reset.state []).PermitsAll askings :=
    ⟨trivial, Or.inr (by decide +kernel), trivial, Or.inr (by decide +kernel), trivial,
      Or.inr (by decide +kernel), trivial, trivial⟩
  obtain ⟨new, log, hnew, h⟩ := @History.reset_answers_as_new ruined
    {⟨8, "first"⟩, ⟨16, "second"⟩} smallArena smallArena history_ruined
    (by simp only [Region.InRange]; decide) rfl suits_askings (by simp [hlabels])
  exact ⟨by decide +kernel, hlabels, new, log, hnew, h askings hpermits (by decide)⟩

end Ruined

end Allocator

end MemoryKit
