import Mathlib.Data.List.Perm.Subperm
import MemoryKit.Heap.Check
import MemoryKit.Proofs.Heap.FreeLists
import MemoryKit.Proofs.Heap.WellFormed

/-! # What the check finds

The check walks over the blocks, then along the lists, and compares the two by their number alone.
It passes exactly if each of the two is in order and the numbers are the same. A listed offset at
which no block begins goes unnoticed if as many free blocks are missing from the lists. Where every
listed offset is that of a block, the lists hold exactly the free blocks of the walk.
-/

namespace MemoryKit.Heap

open SizeClass

variable {h : Heap} {L : Layout} {b : Block} {bs : List Block} {c d : SizeClass} {x : Nat}
  {lists : SizeClass → List Nat}

section Parts

variable {α β : Type} {m : Memory} {a : α}

theorem run_ite_error_iff {p : Prop} [Decidable p] {fault : Fault}
    {next : Inspect (Except Fault α)} :
    (if p then .done (.error fault) else next : Inspect (Except Fault α)).run m = .ok a ↔
      ¬ p ∧ next.run m = .ok a := by
  by_cases hp : p <;> simp [hp]

theorem run_bind_eq_ok_iff {first : Inspect (Except Fault α)}
    {next : Except Fault α → Inspect (Except Fault β)} {b : β}
    (hfault : ∀ fault, next (.error fault) = .done (.error fault)) :
    (first.bind next).run m = .ok b ↔ ∃ a, first.run m = .ok a ∧ (next (.ok a)).run m = .ok b := by
  rw [Inspect.run_bind]
  cases first.run m with
  | error fault => simp [hfault]
  | ok a => simp

end Parts

/-- No two blocks side by side are free, the first one not even after a free block in front. -/
def Merged : Bool → List Block → Prop
  | _, [] => True
  | afterFree, b :: bs => (afterFree = true → b.used = true) ∧ Merged (!b.used) bs

theorem merged_iff {afterFree : Bool} : Merged afterFree bs ↔
    (afterFree = true → ∀ b ∈ bs.head?, b.used = true) ∧ bs.IsChain Block.NotBothFree := by
  induction bs generalizing afterFree with
  | nil => simp [Merged]
  | cons b bs ih =>
    rw [Merged, ih, List.isChain_cons, List.head?_cons]
    simp only [Option.mem_some_iff, forall_eq', Block.NotBothFree, Bool.not_eq_true']
    grind

theorem merged_false_iff : Merged false bs ↔ bs.IsChain Block.NotBothFree := by
  simp [merged_iff]

def freeCount (bs : List Block) : Nat := bs.countP fun b => !b.used

theorem freeCount_cons (b : Block) (bs : List Block) :
    freeCount (b :: bs) = freeCount bs + if b.used = false then 1 else 0 := by
  simp [freeCount, List.countP_cons]

def Survey.next (s : Survey) (h : Heap) : Survey where
  offset := s.offset + h.blockSize s.offset
  before := some s.offset
  afterFree := h.isUsed s.offset = false
  freeBlocks := s.freeBlocks + if h.isUsed s.offset = false then 1 else 0

theorem run_survey_succ_iff {s s' : Survey} {steps : Nat} (hlt : s.offset < h.capacity) :
    (survey h.capacity s (steps + 1)).run h.memory = .ok s' ↔
      h.before s.offset = s.before ∧
        (h.blockSize s.offset ≠ 0 ∧ s.offset + h.blockSize s.offset ≤ h.capacity) ∧
          (s.afterFree = true → h.isUsed s.offset = true) ∧
            (survey h.capacity (s.next h) steps).run h.memory = .ok s' := by
  rw [survey, if_neg (Nat.not_le_of_lt hlt), Inspect.run_read, run_ite_error_iff, Inspect.run_read]
  dsimp only
  rw [run_ite_error_iff, run_ite_error_iff, not_not, not_or, Nat.not_lt, not_and',
    Bool.not_eq_false]
  rfl

/-- The headers describe merged blocks from where the walk stands up to the end of the heap. -/
structure Surveys (h : Heap) (s : Survey) (steps n : Nat) (bs : List Block) : Prop where
  tiles : Tiles s.offset bs h.capacity
  describes : h.Describes s.before bs
  merged : Merged s.afterFree bs
  length_le : bs.length ≤ steps
  count_eq : n = s.freeBlocks + freeCount bs

theorem surveys_nil {s : Survey} {steps n : Nat} : h.Surveys s steps n [] ↔
    ∃ s', (Except.ok s : Except Fault Survey) = .ok s' ∧ s'.offset = h.capacity ∧
      s'.freeBlocks = n := by
  constructor
  · intro hs
    exact ⟨s, rfl, hs.tiles, hs.count_eq.symm⟩
  · rintro ⟨s', hs, hend, hn⟩
    obtain rfl := Except.ok.inj hs
    exact ⟨hend, trivial, trivial, Nat.zero_le _, hn.symm⟩

theorem exists_surveys_of_lt {s : Survey} {steps n : Nat} (hlt : s.offset < h.capacity) :
    (∃ bs, h.Surveys s (steps + 1) n bs) ↔
      h.before s.offset = s.before ∧ h.blockSize s.offset ≠ 0 ∧
        s.offset + h.blockSize s.offset ≤ h.capacity ∧
          (s.afterFree = true → h.isUsed s.offset = true) ∧
            ∃ bs, h.Surveys (s.next h) steps n bs := by
  constructor
  · rintro ⟨bs, ht, hd, hm, hle, hn⟩
    cases bs with
    | nil => exact absurd ht (Nat.ne_of_lt hlt)
    | cons b bs =>
    obtain ⟨hoff, hpos, -, ht⟩ := ht
    obtain ⟨⟨hsize, hused⟩, hback, hd⟩ := hd
    obtain ⟨hfirst, hm⟩ := hm
    rw [hoff] at hsize hused hback hd
    rw [← hsize] at hpos ht
    rw [← hused] at hfirst hm
    refine ⟨hback, Nat.ne_of_gt hpos, ht.le, hfirst, bs, ht, hd, ?_,
      Nat.le_of_succ_le_succ hle, ?_⟩
    · simpa [Survey.next] using hm
    · rw [hn, freeCount_cons, ← hused]
      dsimp only [Survey.next]
      omega
  · rintro ⟨hback, hsize, -, hfirst, bs, ht, hd, hm, hle, hn⟩
    refine ⟨⟨s.offset, h.blockSize s.offset, h.isUsed s.offset⟩ :: bs,
      ⟨rfl, Nat.pos_of_ne_zero hsize, h.granule_dvd_blockSize _, ht⟩, ⟨⟨rfl, rfl⟩, hback, hd⟩,
      ⟨hfirst, ?_⟩, Nat.succ_le_succ hle, ?_⟩
    · simpa [Survey.next] using hm
    · rw [hn, freeCount_cons]
      dsimp only [Survey.next]
      omega

/-- The walk comes to the end of the heap exactly if the headers describe merged blocks up to it. -/
theorem run_survey_iff {s : Survey} {steps n : Nat} :
    (∃ s', (survey h.capacity s steps).run h.memory = .ok s' ∧ s'.offset = h.capacity ∧
      s'.freeBlocks = n) ↔ ∃ bs, h.Surveys s steps n bs := by
  induction steps generalizing s with
  | zero =>
    rw [survey, Inspect.run_done, ← surveys_nil]
    constructor
    · intro hs
      exact ⟨[], hs⟩
    · rintro ⟨bs, hs⟩
      obtain rfl := List.eq_nil_of_length_eq_zero (Nat.le_zero.mp hs.length_le)
      exact hs
  | succ steps ih =>
    by_cases hlt : s.offset < h.capacity
    · simp only [run_survey_succ_iff hlt, and_assoc, exists_and_left]
      rw [exists_surveys_of_lt hlt, ih]
    · rw [survey, if_pos (Nat.le_of_not_lt hlt), Inspect.run_done, ← surveys_nil]
      constructor
      · intro hs
        exact ⟨[], hs⟩
      · rintro ⟨bs, hs⟩
        cases bs with
        | nil => exact hs
        | cons b bs =>
          obtain ⟨-, hpos, -, ht⟩ := hs.tiles
          have := ht.le
          omega

/-- What the check asks of an offset in the list of a class, which need not be that of a block. -/
structure IsListable (h : Heap) (c : SizeClass) (x : Nat) : Prop where
  granule_dvd : granule ∣ x
  lt_capacity : x < h.capacity
  free : h.isUsed x = false
  class_eq : ofSize (h.blockSize x) = c

theorem run_checkList_some_iff {previous : Option Nat} {room rest : Nat} :
    (checkList h.capacity c previous (room + 1) (some x)).run h.memory = .ok rest ↔
      h.IsListable c x ∧ h.prevFree x = previous ∧
        (checkList h.capacity c (some x) room (h.nextFree x)).run h.memory = .ok rest := by
  rw [checkList, run_ite_error_iff, Inspect.run_read, run_ite_error_iff, run_ite_error_iff,
    Inspect.run_read, run_ite_error_iff, Inspect.run_read, not_or, not_not, not_not, not_not,
    Nat.not_le, Bool.not_eq_true]
  constructor
  · rintro ⟨⟨hmod, hlt⟩, hfree, hclass, hprev, hr⟩
    exact ⟨⟨Nat.dvd_of_mod_eq_zero hmod, hlt, hfree, hclass⟩, hprev, hr⟩
  · rintro ⟨hx, hprev, hr⟩
    exact ⟨⟨Nat.mod_eq_zero_of_dvd hx.granule_dvd, hx.lt_capacity⟩, hx.free, hx.class_eq, hprev, hr⟩

theorem run_checkList_none_iff {previous : Option Nat} {room rest : Nat} :
    (checkList h.capacity c previous room none).run h.memory = .ok rest ↔
      ∃ l : List Nat, l.head? = none ∧ Chained h.prevFree h.nextFree previous l none ∧
        (∀ x ∈ l, h.IsListable c x) ∧ room = rest + l.length := by
  have hrun : (checkList h.capacity c previous room none).run h.memory = .ok room := by
    cases room <;> rfl
  rw [hrun, Except.ok.injEq]
  constructor
  · rintro rfl
    exact ⟨[], rfl, trivial, by simp, rfl⟩
  · rintro ⟨l, hl, -, -, hroom⟩
    obtain rfl := List.head?_eq_none_iff.mp hl
    exact hroom

theorem run_checkList_iff {previous link : Option Nat} {room rest : Nat} :
    (checkList h.capacity c previous room link).run h.memory = .ok rest ↔
      ∃ l : List Nat, l.head? = link ∧ Chained h.prevFree h.nextFree previous l none ∧
        (∀ x ∈ l, h.IsListable c x) ∧ room = rest + l.length := by
  induction room generalizing previous link with
  | zero =>
    cases link with
    | none => exact run_checkList_none_iff
    | some x =>
      constructor
      · intro hr
        cases hr
      · rintro ⟨l, hl, -, -, hroom⟩
        obtain ⟨l, rfl⟩ := List.head?_eq_some_iff.mp hl
        cases hroom
  | succ room ih =>
    cases link with
    | none => exact run_checkList_none_iff
    | some x =>
      rw [run_checkList_some_iff, ih]
      constructor
      · rintro ⟨hx, hprev, l, hl, hc, hlist, hroom⟩
        refine ⟨x :: l, rfl, ⟨hprev, ?_, hc⟩, List.forall_mem_cons.mpr ⟨hx, hlist⟩, ?_⟩
        · rw [Option.or_none, hl]
        · rw [hroom, List.length_cons, Nat.add_assoc]
      · rintro ⟨l, hl, hc, hlist, hroom⟩
        obtain ⟨l, rfl⟩ := List.head?_eq_some_iff.mp hl
        obtain ⟨hprev, hnext, hc⟩ := hc
        obtain ⟨hx, hlist⟩ := List.forall_mem_cons.mp hlist
        rw [Option.or_none] at hnext
        exact ⟨hx, hprev, l, hnext.symm, hc, hlist, Nat.succ.inj (hroom.trans (Nat.add_succ _ _))⟩

/-- The list of a class is what the index and the links say, and all that it names may be listed. -/
structure Lists (h : Heap) (c : SizeClass) (l : List Nat) : Prop where
  head : h.index.head c = l.head?
  marked : (h.index.subsOf c.bin).contains c.sub = true ↔ l ≠ []
  chained : Chained h.prevFree h.nextFree none l none
  listable : ∀ x ∈ l, h.IsListable c x

theorem run_checkLists_cons_iff {room : Nat} {cs : List SizeClass} {rest : Nat} :
    (checkLists h.capacity h.index room (c :: cs)).run h.memory = .ok rest ↔
      ∃ l room', h.Lists c l ∧ room = room' + l.length ∧
        (checkLists h.capacity h.index room' cs).run h.memory = .ok rest := by
  have hmark : ∀ l : List Nat, h.index.head c = l.head? →
      ((h.index.subsOf c.bin).contains c.sub = (h.index.head c).isSome ↔
        ((h.index.subsOf c.bin).contains c.sub = true ↔ l ≠ [])) := by
    intro l hl
    rw [hl, Bool.eq_iff_iff, List.isSome_head?]
  rw [checkLists, run_ite_error_iff, not_not, run_bind_eq_ok_iff]
  · constructor
    · rintro ⟨hright, room', hroom, hr⟩
      obtain ⟨l, hl, hc, hlist, he⟩ := run_checkList_iff.mp hroom
      exact ⟨l, room', ⟨hl.symm, (hmark l hl.symm).mp hright, hc, hlist⟩, he, hr⟩
    · rintro ⟨l, room', hl, he, hr⟩
      exact ⟨(hmark l hl.head).mpr hl.marked, room',
        run_checkList_iff.mpr ⟨l, hl.head.symm, hl.chained, hl.listable, he⟩, hr⟩
  · exact fun _ => rfl

theorem run_checkLists_iff {room rest : Nat} {cs : List SizeClass} (hcs : cs.Nodup) :
    (checkLists h.capacity h.index room cs).run h.memory = .ok rest ↔
      ∃ lists : SizeClass → List Nat, (∀ c ∈ cs, h.Lists c (lists c)) ∧
        room = rest + (cs.flatMap lists).length := by
  induction cs generalizing room with
  | nil =>
    rw [checkLists, Inspect.run_done, Except.ok.injEq]
    constructor
    · rintro rfl
      exact ⟨fun _ => [], by simp, rfl⟩
    · rintro ⟨lists, -, he⟩
      exact he
  | cons c cs ih =>
    obtain ⟨hc, hcs⟩ := List.nodup_cons.mp hcs
    rw [run_checkLists_cons_iff]
    constructor
    · rintro ⟨l, room', hl, rfl, hr⟩
      obtain ⟨lists, hlists, rfl⟩ := (ih hcs).mp hr
      have hsame : ∀ d ∈ cs, Function.update lists c l d = lists d := fun d hd =>
        Function.update_of_ne (ne_of_mem_of_not_mem hd hc) _ _
      refine ⟨Function.update lists c l, List.forall_mem_cons.mpr ⟨?_, fun d hd => ?_⟩, ?_⟩
      · rwa [Function.update_self]
      · rw [hsame d hd]
        exact hlists d hd
      · rw [List.flatMap_cons, Function.update_self, List.flatMap_congr hsame, List.length_append]
        omega
    · rintro ⟨lists, hlists, rfl⟩
      obtain ⟨hl, hlists⟩ := List.forall_mem_cons.mp hlists
      refine ⟨lists c, rest + (cs.flatMap lists).length, hl, ?_, (ih hcs).mpr ⟨lists, hlists, rfl⟩⟩
      rw [List.flatMap_cons, List.length_append]
      omega

theorem mem_allClasses : c ∈ allClasses ↔ c.IsValid := by
  simp only [allClasses, List.mem_map, List.mem_range, ofIndex]
  constructor
  · rintro ⟨i, hi, rfl⟩
    simp only [count] at hi
    exact ⟨Nat.div_lt_of_lt_mul (by rwa [Nat.mul_comm]), Nat.mod_lt _ (by decide)⟩
  · intro hc
    refine ⟨c.index, index_lt hc, ?_⟩
    have hsub := hc.2
    obtain ⟨bin, sub⟩ := c
    simp only [SizeClass.index, subCount, SizeClass.mk.injEq] at *
    omega

theorem nodup_allClasses : allClasses.Nodup := by
  refine List.Nodup.map (fun i j he => ?_) List.nodup_range
  simp only [ofIndex, SizeClass.mk.injEq, subCount] at he
  omega

theorem wrongBin?_eq_none_iff {index : FreeIndex} : wrongBin? index = none ↔
    ∀ bin < binCount,
      (index.bins.contains bin = true ↔ ∃ sub, (index.subsOf bin).contains sub = true) := by
  simp only [wrongBin?, List.find?_eq_none, List.mem_range]
  refine forall₂_congr fun bin _ => ?_
  have hempty := Bitmap.isEmpty_iff (b := index.subsOf bin)
  cases hb : index.bins.contains bin <;> cases he : (index.subsOf bin).isEmpty <;>
    simp_all [← Bool.not_eq_true]

def allListed (lists : SizeClass → List Nat) : List Nat := allClasses.flatMap lists

/-- What the check finds: blocks and lists that are in order, and as many free as listed ones. -/
structure Passes (h : Heap) (lists : SizeClass → List Nat) : Prop where
  tiles : Tiles 0 h.blocks h.capacity
  describes : h.Describes none h.blocks
  merged : h.blocks.IsChain Block.NotBothFree
  valid : ∀ c, lists c ≠ [] → c.IsValid
  inOrder : ∀ c, c.IsValid → h.Lists c (lists c)
  bins : ∀ bin < binCount,
    (h.index.bins.contains bin = true ↔ ∃ sub, (h.index.subsOf bin).contains sub = true)
  count_eq : (allListed lists).length = freeCount h.blocks

theorem freeCount_le_length (bs : List Block) : freeCount bs ≤ bs.length := List.countP_le_length

theorem surveys_start_iff {n : Nat} : h.Surveys {} (maxBlocks h.capacity) n bs ↔
    h.blocks = bs ∧ Tiles 0 h.blocks h.capacity ∧ h.Describes none h.blocks ∧
      h.blocks.IsChain Block.NotBothFree ∧ n = freeCount h.blocks := by
  constructor
  · rintro ⟨ht, hd, hm, -, hn⟩
    obtain rfl := hd.blocks_eq ht
    exact ⟨rfl, ht, hd, merged_false_iff.mp hm, hn.trans (Nat.zero_add _)⟩
  · rintro ⟨rfl, ht, hd, hm, hn⟩
    exact ⟨ht, hd, merged_false_iff.mpr hm, ht.length_le_maxBlocks, hn.trans (Nat.zero_add _).symm⟩

theorem check_iff_parts : h.check = .ok () ↔
    ∃ s, (survey h.capacity {} (maxBlocks h.capacity)).run h.memory = .ok s ∧
      s.offset = h.capacity ∧
        ∃ room, (checkLists h.capacity h.index (maxBlocks h.capacity) allClasses).run h.memory =
          .ok room ∧ wrongBin? h.index = none ∧ maxBlocks h.capacity - room = s.freeBlocks := by
  unfold check inspectCheck
  refine (run_bind_eq_ok_iff (by simp)).trans (exists_congr fun s => and_congr_right fun _ => ?_)
  dsimp only
  rw [run_ite_error_iff, not_not]
  refine and_congr_right fun _ => (run_bind_eq_ok_iff (by simp)).trans
    (exists_congr fun room => and_congr_right fun _ => ?_)
  dsimp only
  cases wrongBin? h.index with
  | some bin => simp
  | none =>
    dsimp only
    rw [run_ite_error_iff, not_not]
    simp

theorem check_eq_ok_iff : h.check = .ok () ↔ ∃ lists, h.Passes lists := by
  rw [check_iff_parts]
  constructor
  · rintro ⟨s, hs, hend, room, hroom, hbins, hcount⟩
    obtain ⟨bs, hsurvey⟩ := run_survey_iff.mp ⟨s, hs, hend, rfl⟩
    obtain ⟨-, ht, hd, hm, hn⟩ := surveys_start_iff.mp hsurvey
    obtain ⟨lists, hlists, he⟩ := (run_checkLists_iff nodup_allClasses).mp hroom
    -- The check says nothing of classes that do not exist.
    have hvalid : ∀ c ∈ allClasses, (if c.IsValid then lists c else []) = lists c :=
      fun c hc => if_pos (mem_allClasses.mp hc)
    refine ⟨fun c => if c.IsValid then lists c else [], ht, hd, hm, fun c hne => ?_, fun c hc => ?_,
      wrongBin?_eq_none_iff.mp hbins, ?_⟩
    · by_contra hc
      exact hne (if_neg hc)
    · rw [if_pos hc]
      exact hlists c (mem_allClasses.mpr hc)
    · rw [allListed, List.flatMap_congr hvalid]
      omega
  · rintro ⟨lists, P⟩
    have hsurvey := surveys_start_iff.mpr ⟨rfl, P.tiles, P.describes, P.merged, rfl⟩
    obtain ⟨s, hs, hend, hn⟩ := run_survey_iff.mpr ⟨_, hsurvey⟩
    have hroom : (allListed lists).length ≤ maxBlocks h.capacity := by
      rw [P.count_eq]
      exact Nat.le_trans (freeCount_le_length _) P.tiles.length_le_maxBlocks
    have hlists := (run_checkLists_iff (h := h) nodup_allClasses).mpr
      ⟨lists, fun c hc => P.inOrder c (mem_allClasses.mp hc), (Nat.sub_add_cancel hroom).symm⟩
    have hcount : maxBlocks h.capacity - (maxBlocks h.capacity - (allListed lists).length) =
        s.freeBlocks := by
      rw [Nat.sub_sub_self hroom, P.count_eq, hn]
    exact ⟨s, hs, hend, _, hlists, wrongBin?_eq_none_iff.mpr P.bins, hcount⟩

def freeOffsets (bs : List Block) : List Nat := (bs.filter fun b => !b.used).map Block.offset

theorem length_freeOffsets (bs : List Block) : (freeOffsets bs).length = freeCount bs := by
  rw [freeOffsets, List.length_map, freeCount, List.countP_eq_length_filter]

theorem mem_freeOffsets :
    x ∈ freeOffsets bs ↔ ∃ b ∈ bs, b.offset = x ∧ b.used = false := by
  simp only [freeOffsets, List.mem_map, List.mem_filter, Bool.not_eq_true']
  exact ⟨fun ⟨b, ⟨hb, hfree⟩, hx⟩ => ⟨b, hb, hx, hfree⟩,
    fun ⟨b, hb, hx, hfree⟩ => ⟨b, ⟨hb, hfree⟩, hx⟩⟩

theorem Tiles.nodup_freeOffsets {start stop : Nat} (ht : Tiles start bs stop) :
    (freeOffsets bs).Nodup :=
  ht.nodup_offsets.sublist (List.filter_sublist.map _)

theorem nodup_allListed (hnd : ∀ c, (lists c).Nodup) {size : Nat → Nat}
    (hclass : ∀ c, ∀ x ∈ lists c, ofSize (size x) = c) : (allListed lists).Nodup := by
  refine List.nodup_flatMap.mpr ⟨fun c _ => hnd c, nodup_allClasses.imp fun hne x hx hx' => hne ?_⟩
  rw [← hclass _ x hx, ← hclass _ x hx']

namespace Passes

theorem lists_of_mem (P : h.Passes lists) (hx : x ∈ lists c) : h.Lists c (lists c) :=
  P.inOrder c (P.valid c (List.ne_nil_of_mem hx))

theorem chained (P : h.Passes lists) (c : SizeClass) :
    Chained h.prevFree h.nextFree none (lists c) none := by
  cases hl : lists c with
  | nil => trivial
  | cons x l => exact hl ▸ (P.inOrder c (P.valid c (by simp [hl]))).chained

theorem nodup (P : h.Passes lists) (c : SizeClass) : (lists c).Nodup := (P.chained c).nodup

theorem mem_allListed (P : h.Passes lists) : x ∈ allListed lists ↔ ∃ c, x ∈ lists c := by
  rw [allListed, List.mem_flatMap]
  exact ⟨fun ⟨c, _, hx⟩ => ⟨c, hx⟩,
    fun ⟨c, hx⟩ => ⟨c, mem_allClasses.mpr (P.valid c (List.ne_nil_of_mem hx)), hx⟩⟩

theorem of_listed (P : h.Passes lists) (hb : b ∈ h.blocks) (hx : b.offset ∈ lists c) :
    b.used = false ∧ ofSize b.size = c := by
  obtain ⟨hsize, hused⟩ := P.describes.header_eq hb
  have hl := (P.lists_of_mem hx).listable _ hx
  exact ⟨hused ▸ hl.free, hsize ▸ hl.class_eq⟩

/-- If blocks begin at all listed offsets, no free block is missing: there are as many of both. -/
theorem mem_iff (P : h.Passes lists)
    (hall : ∀ c, ∀ x ∈ lists c, ∃ b ∈ h.blocks, b.offset = x) (c : SizeClass) (x : Nat) :
    x ∈ lists c ↔ ∃ b ∈ h.blocks, b.offset = x ∧ b.used = false ∧ ofSize b.size = c := by
  constructor
  · intro hx
    obtain ⟨b, hb, rfl⟩ := hall c x hx
    exact ⟨b, hb, rfl, P.of_listed hb hx⟩
  · rintro ⟨b, hb, rfl, hfree, rfl⟩
    have hsub : allListed lists ⊆ freeOffsets h.blocks := by
      intro y hy
      obtain ⟨d, hd⟩ := P.mem_allListed.mp hy
      obtain ⟨b', hb', rfl⟩ := hall d y hd
      exact mem_freeOffsets.mpr ⟨b', hb', rfl, (P.of_listed hb' hd).1⟩
    have hnd : (allListed lists).Nodup :=
      nodup_allListed P.nodup fun d y hy => ((P.lists_of_mem hy).listable y hy).class_eq
    have hperm := (hnd.subperm hsub).perm_of_length_le (by rw [length_freeOffsets, P.count_eq])
    obtain ⟨d, hd⟩ := P.mem_allListed.mp
      (hperm.mem_iff.mpr (mem_freeOffsets.mpr ⟨b, hb, rfl, hfree⟩))
    exact (P.of_listed hb hd).2 ▸ hd

/--
If blocks begin at all listed offsets and only classes are marked, a block that is taken was a free
one that is large enough.
-/
theorem exists_free_of_allocate (P : h.Passes lists)
    (hall : ∀ c, ∀ x ∈ lists c, ∃ b ∈ h.blocks, b.offset = x)
    (hmarks : ∀ c : SizeClass, (h.index.subsOf c.bin).contains c.sub = true → c.IsValid)
    {size : Nat} {h' : Heap} (hdvd : granule ∣ size) (ha : h.allocate size = some (x, h')) :
    ∃ b ∈ h.blocks, b.offset = x ∧ b.used = false ∧ size ≤ b.size := by
  obtain ⟨rounded, d, hr, hd, hhead, -⟩ := exists_class_of_allocate ha
  obtain ⟨hle, hmark⟩ := FreeIndex.search_sound hd
  rw [(P.inOrder d (hmarks d hmark)).head] at hhead
  obtain ⟨b, hb, rfl, hfree, rfl⟩ := (P.mem_iff hall d x).mp (List.mem_of_head? hhead)
  exact ⟨b, hb, rfl, hfree, Nat.le_trans (le_of_ceil? hr) (le_of_ofSize_le hdvd hr hle)⟩

end Passes

theorem HasLayout.passes (H : h.HasLayout L) (hs : L.Settled) : h.Passes L.lists := by
  have hblocks := H.blocks_eq
  have ht := H.valid.tiles
  have hclass : ∀ c, ∀ x ∈ L.lists c, ofSize (h.blockSize x) = c := by
    intro c x hx
    obtain ⟨b, hb, rfl, -, hc⟩ := H.valid.listed c x hx
    rw [H.blockSize_eq hb, hc]
  refine ⟨hblocks ▸ ht, hblocks ▸ H.describes, hblocks ▸ hs.merged, H.index.valid,
    fun c hc => ⟨H.index.head c hc, H.index.marked c, H.chained c, fun x hx => ?_⟩,
    fun bin _ => H.index.coherent bin, ?_⟩
  · obtain ⟨b, hb, rfl, hfree, -⟩ := H.valid.listed c x hx
    have hbounds := ht.bounds hb
    exact ⟨H.granule_dvd hb, by omega, (H.isUsed_eq hb).trans hfree, hclass c _ hx⟩
  · have hperm : (allListed L.lists).Perm (freeOffsets L.blocks) := by
      refine (List.perm_ext_iff_of_nodup (nodup_allListed H.valid.nodup hclass)
        ht.nodup_freeOffsets).mpr fun x => ?_
      rw [allListed, List.mem_flatMap, mem_freeOffsets]
      constructor
      · rintro ⟨c, -, hx⟩
        obtain ⟨b, hb, hx, hfree, -⟩ := H.valid.listed c x hx
        exact ⟨b, hb, hx, hfree⟩
      · rintro ⟨b, hb, rfl, hfree⟩
        have hl := hs.listed b hb hfree
        exact ⟨_, mem_allClasses.mpr (H.index.valid _ (List.ne_nil_of_mem hl)), hl⟩
    rw [hperm.length_eq, length_freeOffsets, hblocks]

theorem HasLayout.check_eq_ok (H : h.HasLayout L) (hs : L.Settled) : h.check = .ok () :=
  check_eq_ok_iff.mpr ⟨_, H.passes hs⟩

/--
A heap that passes the check is tiled by merged blocks with links back, and its lists have as many
offsets as there are free blocks, each once. If a block begins at each of these offsets, the lists
hold exactly the free blocks by their class, and blocks are taken from among them.
-/
theorem sound_of_check (hc : h.check = .ok ()) :
    Tiles 0 h.blocks h.capacity ∧ h.Describes none h.blocks ∧
      h.blocks.IsChain Block.NotBothFree ∧
      ∃ lists : SizeClass → List Nat,
        (∀ c, c.IsValid → h.index.head c = (lists c).head?) ∧
        (∀ c, Chained h.prevFree h.nextFree none (lists c) none) ∧
        (∀ c, (lists c).Nodup) ∧
        (∀ c, ∀ x ∈ lists c, h.IsListable c x) ∧
        (allListed lists).length = freeCount h.blocks ∧
        ((∀ c, ∀ x ∈ lists c, ∃ b ∈ h.blocks, b.offset = x) →
          (∀ c x, x ∈ lists c ↔
            ∃ b ∈ h.blocks, b.offset = x ∧ b.used = false ∧ ofSize b.size = c) ∧
          ((∀ c : SizeClass, (h.index.subsOf c.bin).contains c.sub = true → c.IsValid) →
            ∀ size x h', granule ∣ size → h.allocate size = some (x, h') →
              ∃ b ∈ h.blocks, b.offset = x ∧ b.used = false ∧ size ≤ b.size)) := by
  obtain ⟨lists, P⟩ := check_eq_ok_iff.mp hc
  exact ⟨P.tiles, P.describes, P.merged, lists, fun c hv => (P.inOrder c hv).head, P.chained,
    P.nodup, fun c x hx => (P.lists_of_mem hx).listable x hx, P.count_eq,
    fun hall => ⟨P.mem_iff hall, fun hmarks _ _ _ => P.exists_free_of_allocate hall hmarks⟩⟩

def taken (h : Heap) (size : Nat) : Heap := ((h.allocate size).map Prod.snd).getD h

/--
A heap in which somebody let the first free block of a list go on to an offset in the data of a used
block, and wrote what looks like a free block there.
-/
@[irreducible] def forgedHeap : Heap :=
  let served := ((((create .zeroed 512).taken 80).taken 32).taken 80).taken 48
  let returned := (served.free 0).free 112
  (((returned.setWord 124 208).setWord 208 80).setWord 216 112).setWord 220 noLink

theorem forgedHeap_unnoticed : forgedHeap.check = .ok () := by decide +kernel

theorem sound_of_check_forgedHeap :
    forgedHeap.check = .ok () ∧ Tiles 0 forgedHeap.blocks forgedHeap.capacity :=
  ⟨forgedHeap_unnoticed, (sound_of_check forgedHeap_unnoticed).1⟩

theorem HasFreeLists.exists_block_of_next (F : h.HasFreeLists lists) {y : Nat} (hc : c.IsValid)
    (hhead : h.index.head c = some x) (hnext : h.nextFree x = some y) :
    ∃ b ∈ h.blocks, b.offset = y := by
  obtain ⟨l, hl⟩ := List.head?_eq_some_iff.mp ((F.head c hc).symm.trans hhead)
  have hchained := F.chained c
  rw [hl] at hchained
  rw [hchained.2.1, Option.or_none] at hnext
  have hmem : y ∈ lists c := hl ▸ List.mem_cons_of_mem _ (List.mem_of_head? hnext)
  obtain ⟨b, hb, he, -⟩ := (F.mem_iff c y).mp hmem
  exact ⟨b, hb, he⟩

/-- The check misses a listed offset without a block, and the data of a used block is handed out. -/
theorem check_forgedHeap : forgedHeap.check = .ok () ∧
    (∀ lists, ¬ forgedHeap.HasFreeLists lists) ∧ ⟨192, 48, true⟩ ∈ forgedHeap.blocks ∧
      (forgedHeap.allocate 80).map Prod.fst = some 112 ∧
        ((forgedHeap.taken 80).allocate 80).map Prod.fst = some 208 := by
  have hhead : forgedHeap.index.head ⟨0, 5⟩ = some 112 := by decide +kernel
  have hnext : forgedHeap.nextFree 112 = some 208 := by decide +kernel
  have hnone : ∀ b ∈ forgedHeap.blocks, b.offset ≠ 208 := by decide +kernel
  refine ⟨forgedHeap_unnoticed, fun lists F => ?_, by decide +kernel, by decide +kernel,
    by decide +kernel⟩
  obtain ⟨b, hb, he⟩ := F.exists_block_of_next (by decide) hhead hnext
  exact hnone b hb he

end MemoryKit.Heap
