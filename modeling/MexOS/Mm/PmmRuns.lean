import MexOS.Mm.PmmBoot
import Mathlib.Order.Interval.Finset.Nat

/-! Which runs of frames `pmm_alloc_blocks` finds. -/

namespace MexOS.Mm.Pmm

open MexOS.Machine

/-- The bits from `start` on, as many as there are frames wanted, are clear. -/
def ClearRun (pmm : Pmm) (count : Word) (start : Nat) : Prop :=
  ∀ i < count.toNat, pmm.bitmap.test (start + i) = false

/-- The frames are free and all of them exist. -/
def FreeRun (pmm : Pmm) (count : Word) (start : Nat) : Prop :=
  start + count.toNat ≤ pmm.maxBlocks.toNat ∧ pmm.ClearRun count start

/-- The run that a complete search comes to first. -/
def LowestRun (pmm : Pmm) (count : Word) (start : Nat) : Prop :=
  pmm.FreeRun count start ∧ ∀ other < start, ¬ pmm.FreeRun count other

/-- The frames from `start` on, and no others, have been taken. -/
structure RunTaken (pmm : Pmm) (count : Word) (start : Nat) (result : Word × Pmm) : Prop where
  address : result.1.toNat = start * pmmBlockSize
  bits : ∀ bit, result.2.bitmap.test bit =
    (decide (start ≤ bit ∧ bit < start + count.toNat) || pmm.bitmap.test bit)
  counter : result.2.usedBlocks = pmm.usedBlocks + count
  rest : { result.2 with bitmap := pmm.bitmap, usedBlocks := pmm.usedBlocks } = pmm

/-- A run is found whenever there is one, the lowest of them, and NULL tells
that there is none. -/
structure Complete (pmm : Pmm) (count : Word) (result : Word × Pmm) : Prop where
  taken : ∀ start, pmm.LowestRun count start → pmm.RunTaken count start result
  null : result.1 = 0 ↔ ∀ start, ¬ pmm.FreeRun count start
  unchanged : (∀ start, ¬ pmm.FreeRun count start) → result.2 = pmm

/-- Where the search finds what it should: the lowest run does not begin with
the frame of NULL but does in a word of the bitmap that is searched, and no other
run that begins there goes on behind the bitmap. -/
structure SearchFits (pmm : Pmm) (count : Word) : Prop where
  found : ∀ start, pmm.LowestRun count start → start ≠ 0 ∧ start < 32 * (pmm.maxBlocks.toNat / 32)
  inside : (∀ start, ¬ pmm.FreeRun count start) → count ≤ pmm.getFreeBlockCount →
    ∀ start < 32 * (pmm.maxBlocks.toNat / 32), ¬ pmm.ClearRun count start

variable {pmm : Pmm} {count : Word} {start : Nat}

/-- The search stops at the lowest clear run that begins in a searched word,
wherever it ends. -/
theorem bitmapFirstFreeS_eq (positive : count ≠ 0) (size : pmm.maxBlocks.toNat + count.toNat < 2 ^ 32) :
    ∃ accept : Nat → Bool, pmm.bitmapFirstFreeS count = scanBits pmm.bitmap (pmm.maxBlocks.toNat / 32) accept ∧
      ∀ bit < 32 * (pmm.maxBlocks.toNat / 32), Candidate pmm.bitmap accept bit ↔ pmm.ClearRun count bit := by
  have length : 0 < count.toNat := by
    rw [Nat.pos_iff_ne_zero]
    exact fun zero => positive (BitVec.eq_of_toNat_eq zero)
  by_cases one : count = 1
  · subst one
    refine ⟨fun _ => true, ?_, ?_⟩
    · rw [bitmapFirstFreeS, if_neg positive, if_pos rfl, bitmapFirstFree_eq]
    · intro bit _
      simp [Candidate, ClearRun]
  · refine ⟨fun bit => pmm.countFree (BitVec.ofNat 32 bit) count count.toNat 0 0, ?_, ?_⟩
    · rw [bitmapFirstFreeS, if_neg positive, if_neg one]
      rfl
    · intro bit bound
      have zero : (0 : Word).toNat = 0 := rfl
      have counted := @countFree_iff pmm (BitVec.ofNat 32 bit) count count.toNat 0 0 (by omega) (by omega) (by omega)
      have place (i : Nat) (small : i < count.toNat) :
          (BitVec.ofNat 32 bit + 0 + BitVec.ofNat 32 i).toNat = bit + i := by
        rw [BitVec.toNat_add, BitVec.toNat_add, BitVec.toNat_ofNat, BitVec.toNat_ofNat, zero]
        omega
      rw [Candidate, counted]
      constructor
      · rintro ⟨_, _, clear⟩ i small
        rw [← place i small]
        exact clear i small
      · intro clear
        refine ⟨clear 0 length, rfl, ?_⟩
        intro i small
        rw [place i small]
        exact clear i small

theorem bitmapFirstFreeS_eq_some (positive : count ≠ 0) (size : pmm.maxBlocks.toNat + count.toNat < 2 ^ 32) :
    pmm.bitmapFirstFreeS count = some start ↔
      start < 32 * (pmm.maxBlocks.toNat / 32) ∧ pmm.ClearRun count start ∧ ∀ other < start, ¬ pmm.ClearRun count other := by
  obtain ⟨accept, search, candidate⟩ := bitmapFirstFreeS_eq positive size
  rw [search, scanBits_eq_some]
  refine and_congr_right fun bound => and_congr (candidate start bound) (forall_congr' fun other => ?_)
  exact forall_congr' fun before => not_congr (candidate other (by omega))

theorem bitmapFirstFreeS_eq_none (positive : count ≠ 0) (size : pmm.maxBlocks.toNat + count.toNat < 2 ^ 32) :
    pmm.bitmapFirstFreeS count = none ↔ ∀ bit < 32 * (pmm.maxBlocks.toNat / 32), ¬ pmm.ClearRun count bit := by
  obtain ⟨accept, search, candidate⟩ := bitmapFirstFreeS_eq positive size
  rw [search, scanBits_eq_none]
  exact forall_congr' fun bit => forall_congr' fun bound => not_congr (candidate bit bound)

/-- A free run leaves the counter room for its frames. -/
theorem Counted.free_of_run (counted : Counted pmm) (run : pmm.FreeRun count start) : count ≤ pmm.getFreeBlockCount := by
  obtain ⟨inside, clear⟩ := run
  have apart : (Finset.range pmm.maxBlocks.toNat).filter (fun bit => pmm.bitmap.test bit = true) ⊆
      Finset.range pmm.maxBlocks.toNat \ Finset.Ico start (start + count.toNat) := by
    intro bit member
    obtain ⟨bound, present⟩ := Finset.mem_filter.mp member
    refine Finset.mem_sdiff.mpr ⟨bound, ?_⟩
    intro within
    obtain ⟨lower, upper⟩ := Finset.mem_Ico.mp within
    have free := clear (bit - start) (by omega)
    rw [Nat.add_sub_cancel' lower, present] at free
    cases free
  have within : Finset.Ico start (start + count.toNat) ⊆ Finset.range pmm.maxBlocks.toNat := by
    intro bit member
    have upper := (Finset.mem_Ico.mp member).2
    exact Finset.mem_range.mpr (by omega)
  have bound := Finset.card_le_card apart
  rw [Finset.card_sdiff_of_subset within, Finset.card_range, Nat.card_Ico] at bound
  unfold Counted Bitmap.population at counted
  rw [getFreeBlockCount, BitVec.le_def]
  bv_omega

/-- The marking loop sets the bits of the run and nothing else. -/
theorem markBlocks_eq (pmm : Pmm) {frame : Word} {count : Nat} (room : frame.toNat + count < 2 ^ 32) :
    { pmm.markBlocks frame count with bitmap := pmm.bitmap } = pmm ∧ ∀ bit, (pmm.markBlocks frame count).bitmap.test bit =
      (decide (frame.toNat ≤ bit ∧ bit < frame.toNat + count) || pmm.bitmap.test bit) := by
  induction count generalizing pmm frame with
  | zero =>
    refine ⟨rfl, fun bit => ?_⟩
    have none_there : ¬ (frame.toNat ≤ bit ∧ bit < frame.toNat + 0) := by omega
    rw [markBlocks, decide_eq_false none_there, Bool.false_or]
  | succ count ih =>
    have next : (frame + 1).toNat = frame.toNat + 1 := by bv_omega
    obtain ⟨rest, bits⟩ := @ih (pmm.bitmapSet frame) (frame + 1) (by omega)
    rw [markBlocks]
    refine ⟨congrArg (fun other : Pmm => { other with bitmap := pmm.bitmap }) rest, fun bit => ?_⟩
    rw [bits, next, bitmapSet, Bitmap.test_set _ (by decide), ← Bool.or_assoc, ← Bool.decide_or]
    congr 2
    exact propext (by omega)

/-- What a search that found a run leaves. -/
theorem allocBlocks_taken (enough : count ≤ pmm.getFreeBlockCount) (size : pmm.maxBlocks.toNat < 2 ^ 19)
    (found : pmm.bitmapFirstFreeS count = some start) (bound : start < pmm.maxBlocks.toNat)
    (room : pmm.maxBlocks.toNat + count.toNat < 2 ^ 32) : pmm.RunTaken count start (pmm.allocBlocks count) := by
  have frame : (BitVec.ofNat 32 start).toNat = start := by
    rw [BitVec.toNat_ofNat]
    omega
  obtain ⟨rest, bits⟩ := @markBlocks_eq pmm (BitVec.ofNat 32 start) count.toNat (by omega)
  rw [frame] at bits
  rw [allocBlocks, if_neg (BitVec.not_lt.mpr enough), found]
  refine ⟨frame_toNat (by omega), bits, ?_, ?_⟩
  · exact congrArg (fun used => used + count) (markBlocks_usedBlocks pmm _ _)
  · exact (congrArg (fun other : Pmm => { other with usedBlocks := pmm.usedBlocks }) rest)

theorem exists_lowestRun (run : pmm.FreeRun count start) : ∃ lowest, pmm.LowestRun count lowest := by
  classical
  have some_run : ∃ first, pmm.FreeRun count first := ⟨start, run⟩
  exact ⟨Nat.find some_run, Nat.find_spec some_run, fun other before => Nat.find_min some_run before⟩

theorem LowestRun.eq {other : Nat} (first : pmm.LowestRun count start) (second : pmm.LowestRun count other) : start = other := by
  rcases Nat.lt_trichotomy start other with before | same | after
  · exact absurd first.1 (second.2 start before)
  · exact same
  · exact absurd second.1 (first.2 other after)

/-- With its counter exact, the allocator takes a run of frames wherever there is
one, and nothing otherwise, exactly when the search fits. -/
theorem alloc_blocks_complete_iff (pmm : Pmm) (count : Word) (positive : 1 ≤ count) (size : pmm.memorySize.toNat < 2 ^ 31)
    (blocks : pmm.maxBlocks.toNat = pmm.memorySize.toNat / pmmBlockSize) (counted : Counted pmm) :
    Complete pmm count (pmm.allocBlocks count) ↔ SearchFits pmm count := by
  have nonzero : count ≠ 0 := by
    rintro rfl
    exact absurd positive (by decide)
  have small : pmm.maxBlocks.toNat < 2 ^ 19 := by
    rw [blocks, pmmBlockSize]
    omega
  have free : pmm.getFreeBlockCount.toNat ≤ pmm.maxBlocks.toNat := by
    have used := Bitmap.population_le pmm.bitmap pmm.maxBlocks.toNat
    rw [← counted] at used
    rw [getFreeBlockCount]
    bv_omega
  have room (enough : count ≤ pmm.getFreeBlockCount) : pmm.maxBlocks.toNat + count.toNat < 2 ^ 32 := by
    rw [BitVec.le_def] at enough
    omega
  have refused (short : pmm.getFreeBlockCount < count) : pmm.allocBlocks count = (0, pmm) := if_pos short
  have missed (enough : count ≤ pmm.getFreeBlockCount) (missing : pmm.bitmapFirstFreeS count = none) :
      pmm.allocBlocks count = (0, pmm) := by
    rw [allocBlocks, if_neg (BitVec.not_lt.mpr enough), missing]
  have granted {start : Nat} (enough : count ≤ pmm.getFreeBlockCount) (found : pmm.bitmapFirstFreeS count = some start) :
      start < 32 * (pmm.maxBlocks.toNat / 32) ∧ pmm.RunTaken count start (pmm.allocBlocks count) := by
    have bound := ((bitmapFirstFreeS_eq_some nonzero (room enough)).mp found).1
    exact ⟨bound, allocBlocks_taken enough small found (by omega) (room enough)⟩
  constructor
  · intro complete
    constructor
    · intro start lowest
      have taken := complete.taken start lowest
      have nonnull : (pmm.allocBlocks count).1 ≠ 0 := fun null => complete.null.mp null start lowest.1
      refine ⟨?_, ?_⟩
      · rintro rfl
        have address := taken.address
        rw [Nat.zero_mul] at address
        exact nonnull (BitVec.eq_of_toNat_eq address)
      · have enough := counted.free_of_run lowest.1
        cases found : pmm.bitmapFirstFreeS count with
        | none => exact absurd (congrArg Prod.fst (missed enough found)) nonnull
        | some first =>
          obtain ⟨bound, other⟩ := granted enough found
          have same := other.address.symm.trans taken.address
          rw [pmmBlockSize] at same
          omega
    · intro nowhere enough start bound clear
      cases found : pmm.bitmapFirstFreeS count with
      | none => exact (bitmapFirstFreeS_eq_none nonzero (room enough)).mp found start bound clear
      | some first =>
        have counter := (granted enough found).2.counter
        rw [complete.unchanged nowhere] at counter
        exact nonzero (by bv_omega)
  · intro fits
    by_cases nowhere : ∀ start, ¬ pmm.FreeRun count start
    · have nothing : pmm.allocBlocks count = (0, pmm) := by
        by_cases enough : count ≤ pmm.getFreeBlockCount
        · exact missed enough ((bitmapFirstFreeS_eq_none nonzero (room enough)).mpr (fits.inside nowhere enough))
        · exact refused (BitVec.not_le.mp enough)
      rw [nothing]
      exact ⟨fun start lowest => absurd lowest.1 (nowhere start), ⟨fun _ => nowhere, fun _ => rfl⟩, fun _ => rfl⟩
    · obtain ⟨start, run⟩ := not_forall_not.mp nowhere
      obtain ⟨lowest, first⟩ := exists_lowestRun run
      obtain ⟨nonzeroFrame, bound⟩ := fits.found lowest first
      have enough := counted.free_of_run first.1
      -- a clear run before it would end inside as well
      have found : pmm.bitmapFirstFreeS count = some lowest := by
        refine (bitmapFirstFreeS_eq_some nonzero (room enough)).mpr ⟨bound, first.1.2, ?_⟩
        intro other before clear
        have inside := first.1.1
        exact first.2 other before ⟨by omega, clear⟩
      have taken := (granted enough found).2
      refine ⟨?_, ?_, fun nothing => absurd run (nothing start)⟩
      · intro other otherFirst
        rw [otherFirst.eq first]
        exact taken
      · constructor
        · intro null
          have address := taken.address
          have zero : (0 : Word).toNat = 0 := rfl
          rw [null, zero, pmmBlockSize] at address
          omega
        · intro nothing
          exact absurd run (nothing start)

/-- Frames 1 and 31 of 32 are free, and the memory behind the bitmap is clear. -/
def lastFrameFree : Pmm where
  bitmap word := if word = 0 then 0x7FFFFFFD else 0
  bitmapAddr := 0x200000
  bitmapSize := 4
  memorySize := 0x20000
  usedBlocks := 30
  maxBlocks := 32

theorem lastFrameFree_counted : Counted lastFrameFree := by
  unfold Counted
  decide +kernel

theorem alloc_blocks_complete_one : Complete lastFrameFree 1 (lastFrameFree.allocBlocks 1) ↔ SearchFits lastFrameFree 1 :=
  alloc_blocks_complete_iff lastFrameFree 1 (by decide) (by decide) (by decide) lastFrameFree_counted

/-- A run of two is handed out that consists of the last frame and one that does
not exist. -/
theorem alloc_blocks_out_of_range : ¬ ∀ (pmm : Pmm) (count : Word), 1 ≤ count → pmm.memorySize.toNat < 2 ^ 31 →
    pmm.maxBlocks.toNat = pmm.memorySize.toNat / pmmBlockSize → Counted pmm → Complete pmm count (pmm.allocBlocks count) := by
  intro always
  have complete := always lastFrameFree 2 (by decide) (by decide) (by decide) lastFrameFree_counted
  have nowhere (start : Nat) : ¬ lastFrameFree.FreeRun 2 start := by
    rintro ⟨inside, clear⟩
    have blocks : lastFrameFree.maxBlocks.toNat = 32 := rfl
    have length : (2 : Word).toNat = 2 := rfl
    have pairs : ∀ first < 31, lastFrameFree.bitmap.test first = true ∨ lastFrameFree.bitmap.test (first + 1) = true := by
      decide
    rcases pairs start (by omega) with first | second
    · rw [← Nat.add_zero start, clear 0 (by decide)] at first
      cases first
    · rw [clear 1 (by decide)] at second
      cases second
  have unchanged := congrArg Pmm.usedBlocks (complete.unchanged nowhere)
  have counter : (lastFrameFree.allocBlocks 2).2.usedBlocks = 32 := by decide +kernel
  rw [counter] at unchanged
  exact absurd unchanged (by decide)

end MexOS.Mm.Pmm
