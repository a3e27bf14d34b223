import MexOS.Mm.PmmSearch
import MexOS.Machine.Transition

/-! The bitmap, the running counter and the frames in use stay in step over
every sequence of single-block allocations and frees. -/

namespace MexOS.Mm.Pmm

open MexOS.Machine

private theorem width : 0 < 32 := by decide

theorem fillBytes_test (memory : Bitmap 32) (bytes bit : Nat) :
    (fillBytes memory bytes).test bit = (decide (bit < 8 * bytes) || memory.test bit) := by
  have small := Nat.mod_lt bit width
  have covered : bit % 32 < 8 * min 4 (bytes - 4 * (bit / 32)) ↔ bit < 8 * bytes := by omega
  simp only [fillBytes, Bitmap.test, BitVec.getLsbD_or, BitVec.getLsbD_ofNat,
    Nat.testBit_two_pow_sub_one, small, decide_true, Bool.true_and, covered]
  rw [Bool.or_comm]

/-- Which frames a region covers. -/
def Covers (base size : Word) (frame : Nat) : Prop :=
  base.toNat / 4096 ≤ frame ∧ frame < base.toNat / 4096 + size.toNat / 4096

instance : Decidable (Covers base size frame) := inferInstanceAs (Decidable (_ ∧ _))

theorem blocksOf_eq {value : Word} (small : value.toNat < 2 ^ 31) :
    blocksOf value = (value.toNat / 4096 : Nat) := by
  have positive : value.toInt = value.toNat := by
    rw [BitVec.toInt_eq_toNat_cond]
    simp only [ite_eq_left_iff]
    omega
  rw [blocksOf, positive]
  exact Int.ofNat_tdiv value.toNat pmmBlockSize

theorem alignOf_toNat {value : Word} (small : value.toNat < 2 ^ 31) :
    (BitVec.ofInt 32 (blocksOf value)).toNat = value.toNat / 4096 := by
  rw [blocksOf_eq small, BitVec.ofInt_natCast, BitVec.toNat_ofNat]
  omega

theorem initLoop_bitmap {pmm : Pmm} {align : Word} {blocks : Nat}
    (room : align.toNat + blocks < 2 ^ 32) (bit : Nat) :
    (pmm.initLoop align blocks).bitmap.test bit =
      (pmm.bitmap.test bit && !decide (align.toNat ≤ bit ∧ bit < align.toNat + blocks)) := by
  induction blocks generalizing pmm align with
  | zero =>
    have outside : ¬ (align.toNat ≤ bit ∧ bit < align.toNat + 0) := by omega
    rw [initLoop, decide_eq_false outside, Bool.not_false, Bool.and_true]
  | succ blocks ih =>
    have next : (align + 1).toNat = align.toNat + 1 := by bv_omega
    rw [initLoop, ih (by omega), next]
    simp only [bitmapUnset, Bitmap.test_clear _ width]
    by_cases same : align.toNat = bit
    · simp [same]
    · have shifted : (align.toNat + 1 ≤ bit ∧ bit < align.toNat + 1 + blocks) ↔
          (align.toNat ≤ bit ∧ bit < align.toNat + (blocks + 1)) := by omega
      simp only [same, shifted, decide_false, Bool.not_false, Bool.true_and]

theorem deinitLoop_bitmap {pmm : Pmm} {align : Word} {blocks : Nat}
    (room : align.toNat + blocks < 2 ^ 32) (bit : Nat) :
    (pmm.deinitLoop align blocks).bitmap.test bit =
      (pmm.bitmap.test bit || decide (align.toNat ≤ bit ∧ bit < align.toNat + blocks)) := by
  induction blocks generalizing pmm align with
  | zero =>
    have outside : ¬ (align.toNat ≤ bit ∧ bit < align.toNat + 0) := by omega
    rw [deinitLoop, decide_eq_false outside, Bool.or_false]
  | succ blocks ih =>
    have next : (align + 1).toNat = align.toNat + 1 := by bv_omega
    rw [deinitLoop, ih (by omega), next]
    simp only [bitmapSet, Bitmap.test_set _ width]
    by_cases same : align.toNat = bit
    · simp [same]
    · have shifted : (align.toNat + 1 ≤ bit ∧ bit < align.toNat + 1 + blocks) ↔
          (align.toNat ≤ bit ∧ bit < align.toNat + (blocks + 1)) := by omega
      simp only [same, shifted, decide_false, Bool.false_or]

/-- The running counter is the population of the bitmap. -/
def Counted (pmm : Pmm) : Prop :=
  pmm.usedBlocks.toNat = pmm.bitmap.population pmm.maxBlocks.toNat

theorem Counted.unset {pmm : Pmm} (counted : Counted pmm) {bit : Word}
    (inside : bit.toNat < pmm.maxBlocks.toNat) (present : pmm.bitmap.test bit.toNat = true) :
    Counted { pmm.bitmapUnset bit with usedBlocks := (pmm.bitmapUnset bit).usedBlocks - 1 } := by
  have fewer := Bitmap.population_clear width inside present
  unfold Counted at *
  simp only [bitmapUnset] at *
  bv_omega

theorem Counted.set {pmm : Pmm} (counted : Counted pmm) {bit : Word}
    (inside : bit.toNat < pmm.maxBlocks.toNat) (unset : pmm.bitmap.test bit.toNat = false) :
    Counted { pmm.bitmapSet bit with usedBlocks := (pmm.bitmapSet bit).usedBlocks + 1 } := by
  have more := Bitmap.population_set width inside unset
  have bound := Bitmap.population_le (pmm.bitmap.set bit.toNat) pmm.maxBlocks.toNat
  have limit := pmm.maxBlocks.isLt
  unfold Counted at *
  simp only [bitmapSet] at *
  bv_omega

theorem initLoop_maxBlocks (pmm : Pmm) (align : Word) (blocks : Nat) :
    (pmm.initLoop align blocks).maxBlocks = pmm.maxBlocks := by
  induction blocks generalizing pmm align with
  | zero => rfl
  | succ blocks ih => exact ih _ _

theorem deinitLoop_maxBlocks (pmm : Pmm) (align : Word) (blocks : Nat) :
    (pmm.deinitLoop align blocks).maxBlocks = pmm.maxBlocks := by
  induction blocks generalizing pmm align with
  | zero => rfl
  | succ blocks ih => exact ih _ _

/-- Freeing a region whose bits are all set keeps the count exact. -/
theorem Counted.initLoop {pmm : Pmm} (counted : Counted pmm) {align : Word} {blocks : Nat}
    (inside : align.toNat + blocks ≤ pmm.maxBlocks.toNat)
    (present : ∀ bit, align.toNat ≤ bit → bit < align.toNat + blocks → pmm.bitmap.test bit = true) :
    Counted (pmm.initLoop align blocks) := by
  induction blocks generalizing pmm align with
  | zero => exact counted
  | succ blocks ih =>
    have limit := pmm.maxBlocks.isLt
    have next : (align + 1).toNat = align.toNat + 1 := by bv_omega
    have step := counted.unset (by omega) (present align.toNat (by omega) (by omega))
    rw [Pmm.initLoop]
    apply ih step
    · simp only [bitmapUnset]
      omega
    · intro bit above below
      have old := present bit (by omega) (by omega)
      have other : align.toNat ≠ bit := by omega
      simp [bitmapUnset, Bitmap.test_clear _ width, old, other]

/-- Reserving a region whose bits are all clear keeps the count exact. -/
theorem Counted.deinitLoop {pmm : Pmm} (counted : Counted pmm) {align : Word} {blocks : Nat}
    (inside : align.toNat + blocks ≤ pmm.maxBlocks.toNat)
    (unset : ∀ bit, align.toNat ≤ bit → bit < align.toNat + blocks → pmm.bitmap.test bit = false) :
    Counted (pmm.deinitLoop align blocks) := by
  induction blocks generalizing pmm align with
  | zero => exact counted
  | succ blocks ih =>
    have limit := pmm.maxBlocks.isLt
    have next : (align + 1).toNat = align.toNat + 1 := by bv_omega
    have step := counted.set (by omega) (unset align.toNat (by omega) (by omega))
    rw [Pmm.deinitLoop]
    apply ih step
    · simp only [bitmapSet]
      omega
    · intro bit above below
      have old := unset bit (by omega) (by omega)
      have other : align.toNat ≠ bit := by omega
      simp [bitmapSet, Bitmap.test_set _ width, old, other]


/-- The arguments of the boot calls: one region of memory is handed to the
allocator and a part of it is taken back. -/
structure Layout where
  memSize : Word
  base : Word
  size : Word
  reservedBase : Word
  reservedSize : Word
  granule : memSize.toNat % 131072 = 0
  below : memSize.toNat < 2 ^ 31
  basePage : base.toNat % 4096 = 0
  sizePage : size.toNat % 4096 = 0
  reservedBasePage : reservedBase.toNat % 4096 = 0
  reservedSizePage : reservedSize.toNat % 4096 = 0
  nullPage : 4096 ≤ base.toNat
  inside : base.toNat + size.toNat ≤ memSize.toNat
  reservedAbove : base.toNat ≤ reservedBase.toNat
  reservedBelow : reservedBase.toNat + reservedSize.toNat ≤ base.toNat + size.toNat

namespace Layout

def Managed (layout : Layout) (frame : Nat) : Prop :=
  Covers layout.base layout.size frame ∧ ¬ Covers layout.reservedBase layout.reservedSize frame

instance (layout : Layout) : Decidable (layout.Managed frame) := inferInstanceAs (Decidable (_ ∧ _))

def boot (layout : Layout) (memory : Bitmap 32) (bitmapAddr : Word) : Pmm :=
  ((init memory layout.memSize bitmapAddr).initRegion layout.base layout.size).deinitRegion
    layout.reservedBase layout.reservedSize

end Layout

/-- The allocator together with the blocks its clients hold. -/
structure Clients where
  pmm : Pmm
  live : List Word

namespace Clients

def alloc (clients : Clients) : Clients :=
  let result := clients.pmm.allocBlock
  { pmm := result.2, live := if result.1 = 0 then clients.live else result.1 :: clients.live }

def free (clients : Clients) (p : Word) : Clients :=
  { pmm := clients.pmm.freeBlock p, live := clients.live.erase p }

/-- A block may be freed only while it is live. -/
inductive Step : Clients → Clients → Prop
  | alloc : Step clients clients.alloc
  | free : p ∈ clients.live → Step clients (clients.free p)

end Clients

/-- Bitmap, counter and live blocks agree. -/
structure Sound (layout : Layout) (clients : Clients) : Prop where
  blocks : clients.pmm.maxBlocks.toNat = layout.memSize.toNat / 4096
  counted : Counted clients.pmm
  bits : ∀ frame < clients.pmm.maxBlocks.toNat, clients.pmm.bitmap.test frame = true ↔
    layout.Managed frame → BitVec.ofNat 32 (frame * 4096) ∈ clients.live
  managed : ∀ p ∈ clients.live, p.toNat % 4096 = 0 ∧ layout.Managed (p.toNat / 4096)
  distinct : clients.live.Nodup

theorem init_maxBlocks (memory : Bitmap 32) (memSize bitmapAddr : Word) :
    (init memory memSize bitmapAddr).maxBlocks.toNat = memSize.toNat / 4096 := by
  have limit := memSize.isLt
  simp only [init, pmmBlockSize, BitVec.toNat_ofNat]
  omega

/-- With whole words of blocks, `pmm_init` marks exactly the managed memory. -/
theorem init_test {memSize : Word} (granule : memSize.toNat % 131072 = 0)
    (memory : Bitmap 32) (bitmapAddr : Word) (bit : Nat) :
    (init memory memSize bitmapAddr).bitmap.test bit =
      (decide (bit < memSize.toNat / 4096) || memory.test bit) := by
  have limit := memSize.isLt
  have bytes : 8 * ((memSize.toNat / 4096 % 2 ^ 32) / 8 % 2 ^ 32) = memSize.toNat / 4096 := by omega
  simp only [init, fillBytes_test, pmmBlockSize, pmmBlocksPerByte, BitVec.toNat_ofNat, bytes]

theorem init_counted {memSize : Word} (granule : memSize.toNat % 131072 = 0)
    (memory : Bitmap 32) (bitmapAddr : Word) : Counted (init memory memSize bitmapAddr) := by
  have full : (init memory memSize bitmapAddr).bitmap.population (memSize.toNat / 4096) =
      memSize.toNat / 4096 := by
    rw [Bitmap.population_eq_iff]
    intro bit bound
    simp [init_test granule, bound]
  have used : (init memory memSize bitmapAddr).usedBlocks =
    (init memory memSize bitmapAddr).maxBlocks := rfl
  rw [Counted, used, init_maxBlocks, full]

theorem initRegion_eq {pmm : Pmm} {base size : Word} (sizeSmall : size.toNat < 2 ^ 31) :
    pmm.initRegion base size =
      (pmm.initLoop (BitVec.ofInt 32 (blocksOf base)) (size.toNat / 4096)).bitmapSet 0 := by
  rw [initRegion, blocksOf_eq sizeSmall, Int.toNat_natCast]

theorem deinitRegion_eq {pmm : Pmm} {base size : Word} (sizeSmall : size.toNat < 2 ^ 31) :
    pmm.deinitRegion base size =
      pmm.deinitLoop (BitVec.ofInt 32 (blocksOf base)) (size.toNat / 4096) := by
  rw [deinitRegion, blocksOf_eq sizeSmall, Int.toNat_natCast]

theorem initRegion_test {pmm : Pmm} {base size : Word} (baseSmall : base.toNat < 2 ^ 31)
    (sizeSmall : size.toNat < 2 ^ 31) (bit : Nat) :
    (pmm.initRegion base size).bitmap.test bit =
      (decide (0 = bit) || pmm.bitmap.test bit && !decide (Covers base size bit)) := by
  have align := @alignOf_toNat base (by omega)
  rw [initRegion_eq (by omega), bitmapSet]
  simp only [Bitmap.test_set _ width]
  rw [initLoop_bitmap (by omega), align]
  rfl

theorem deinitRegion_test {pmm : Pmm} {base size : Word} (baseSmall : base.toNat < 2 ^ 31)
    (sizeSmall : size.toNat < 2 ^ 31) (bit : Nat) :
    (pmm.deinitRegion base size).bitmap.test bit =
      (pmm.bitmap.test bit || decide (Covers base size bit)) := by
  have align := @alignOf_toNat base (by omega)
  rw [deinitRegion_eq (by omega), deinitLoop_bitmap (by omega), align]
  rfl

theorem initRegion_maxBlocks (pmm : Pmm) (base size : Word) :
    (pmm.initRegion base size).maxBlocks = pmm.maxBlocks := initLoop_maxBlocks pmm _ _

theorem deinitRegion_maxBlocks (pmm : Pmm) (base size : Word) :
    (pmm.deinitRegion base size).maxBlocks = pmm.maxBlocks := deinitLoop_maxBlocks pmm _ _

/-- Setting a bit that is set already changes no bit, so it changes no count. -/
theorem Counted.bitmapSet_of_test {pmm : Pmm} (counted : Counted pmm) {bit : Word}
    (present : pmm.bitmap.test bit.toNat = true) : Counted (pmm.bitmapSet bit) := by
  have same (other : Nat) : (pmm.bitmap.set bit.toNat).test other = pmm.bitmap.test other := by
    rw [Bitmap.test_set _ width]
    by_cases equal : bit.toNat = other
    · subst equal
      simp [present]
    · simp [equal]
  unfold Counted at *
  simp only [bitmapSet, Bitmap.population, same] at *
  exact counted

theorem Counted.initRegion {pmm : Pmm} (counted : Counted pmm) {base size : Word}
    (small : base.toNat + size.toNat < 2 ^ 31) (inside : (base.toNat + size.toNat) / 4096 ≤ pmm.maxBlocks.toNat)
    (null : pmm.bitmap.test 0 = true) (above : 4096 ≤ base.toNat)
    (present : ∀ bit, Covers base size bit → pmm.bitmap.test bit = true) :
    Counted (pmm.initRegion base size) := by
  have align := @alignOf_toNat base (by omega)
  rw [initRegion_eq (by omega)]
  have region : Counted (pmm.initLoop (BitVec.ofInt 32 (blocksOf base)) (size.toNat / 4096)) := by
    apply counted.initLoop
    · omega
    · intro bit lower upper
      exact present bit ⟨by omega, by omega⟩
  apply region.bitmapSet_of_test
  rw [initLoop_bitmap (by omega), align]
  have start : (0 : Word).toNat = 0 := rfl
  simp only [start, null, Bool.true_and, Bool.not_eq_true', decide_eq_false_iff_not]
  omega

theorem Counted.deinitRegion {pmm : Pmm} (counted : Counted pmm) {base size : Word}
    (small : base.toNat + size.toNat < 2 ^ 31) (inside : (base.toNat + size.toNat) / 4096 ≤ pmm.maxBlocks.toNat)
    (unset : ∀ bit, Covers base size bit → pmm.bitmap.test bit = false) :
    Counted (pmm.deinitRegion base size) := by
  have align := @alignOf_toNat base (by omega)
  rw [deinitRegion_eq (by omega)]
  apply counted.deinitLoop
  · omega
  · intro bit lower upper
    exact unset bit ⟨by omega, by omega⟩

section Boot

variable (layout : Layout) (memory : Bitmap 32) (bitmapAddr : Word)

theorem Layout.boot_maxBlocks : (layout.boot memory bitmapAddr).maxBlocks.toNat = layout.memSize.toNat / 4096 := by
  rw [boot, deinitRegion_maxBlocks, initRegion_maxBlocks, init_maxBlocks]

theorem Layout.boot_test {bit : Nat} (bound : bit < layout.memSize.toNat / 4096) :
    (layout.boot memory bitmapAddr).bitmap.test bit = !decide (layout.Managed bit) := by
  have below := layout.below
  have inside := layout.inside
  have nullPage := layout.nullPage
  have reservedBelow := layout.reservedBelow
  rw [boot, deinitRegion_test (by omega) (by omega), initRegion_test (by omega) (by omega), init_test layout.granule]
  by_cases null : 0 = bit
  · have outside : ¬ layout.Managed bit := by
      intro managed
      have lower := managed.1.1
      omega
    simp [null, outside]
  · by_cases region : Covers layout.base layout.size bit <;> simp [null, bound, region, Layout.Managed]

theorem Layout.boot_counted : Counted (layout.boot memory bitmapAddr) := by
  have below := layout.below
  have inside := layout.inside
  have nullPage := layout.nullPage
  have reservedAbove := layout.reservedAbove
  have reservedBelow := layout.reservedBelow
  have granule := layout.granule
  apply Counted.deinitRegion
  · apply (init_counted layout.granule memory bitmapAddr).initRegion
    · omega
    · rw [init_maxBlocks]
      omega
    · rw [init_test layout.granule]
      simp only [Bool.or_eq_true, decide_eq_true_eq]
      omega
    · exact nullPage
    · intro bit covered
      obtain ⟨lower, upper⟩ := covered
      rw [init_test layout.granule]
      simp only [Bool.or_eq_true, decide_eq_true_eq]
      omega
  · omega
  · rw [initRegion_maxBlocks, init_maxBlocks]
    omega
  · intro bit covered
    have region : Covers layout.base layout.size bit := by
      obtain ⟨lower, upper⟩ := covered
      have basePage := layout.basePage
      have sizePage := layout.sizePage
      exact ⟨by omega, by omega⟩
    have nonzero : ¬ 0 = bit := by
      have lower := region.1
      omega
    rw [initRegion_test (by omega) (by omega)]
    simp [nonzero, region]

theorem Sound.boot : Sound layout ⟨layout.boot memory bitmapAddr, []⟩ where
  blocks := layout.boot_maxBlocks memory bitmapAddr
  counted := layout.boot_counted memory bitmapAddr
  bits frame bound := by
    rw [layout.boot_maxBlocks] at bound
    rw [layout.boot_test memory bitmapAddr bound]
    simp
  managed p member := by cases member
  distinct := List.nodup_nil

end Boot

/-- The two ways `pmm_alloc_block` can end. -/
theorem allocBlock_cases {pmm : Pmm} (counted : Counted pmm) (words : pmm.maxBlocks.toNat % 32 = 0) :
    (pmm.allocBlock = (0, pmm) ∧ ∀ bit < pmm.maxBlocks.toNat, pmm.bitmap.test bit = true) ∨
    ∃ frame < pmm.maxBlocks.toNat, pmm.bitmap.test frame = false ∧
      pmm.allocBlock = (BitVec.ofNat 32 (frame * 4096),
        { pmm with bitmap := pmm.bitmap.set frame, usedBlocks := pmm.usedBlocks + 1 }) := by
  have limit := pmm.maxBlocks.isLt
  have whole : 32 * (pmm.maxBlocks.toNat / 32) = pmm.maxBlocks.toNat := by omega
  cases found : pmm.bitmapFirstFree with
  | none =>
    have full := bitmapFirstFree_eq_none.mp found
    rw [whole] at full
    left
    refine ⟨?_, full⟩
    simp [allocBlock, found]
  | some frame =>
    obtain ⟨bound, unset, _⟩ := bitmapFirstFree_eq_some.mp found
    rw [whole] at bound
    have some_left : ¬ pmm.getFreeBlockCount = 0 := by
      intro zero
      have used : pmm.usedBlocks.toNat = pmm.maxBlocks.toNat := by
        rw [getFreeBlockCount] at zero
        bv_omega
      have full := (Bitmap.population_eq_iff pmm.bitmap pmm.maxBlocks.toNat).mp (counted.symm.trans used)
      rw [full frame bound] at unset
      cases unset
    have frameWord : (BitVec.ofNat 32 frame).toNat = frame := by
      rw [BitVec.toNat_ofNat]
      omega
    right
    refine ⟨frame, bound, unset, ?_⟩
    rw [allocBlock, if_neg some_left, found]
    simp only [bitmapSet, frameWord, pmmBlockSize]

theorem Sound.words (sound : Sound layout clients) : clients.pmm.maxBlocks.toNat % 32 = 0 := by
  have granule := layout.granule
  have blocks := sound.blocks
  omega

/-- Frame numbers below the end of memory survive the trip to an address. -/
theorem frame_toNat {frame : Nat} (bound : frame < 2 ^ 19) :
    (BitVec.ofNat 32 (frame * 4096)).toNat = frame * 4096 := by
  rw [BitVec.toNat_ofNat]
  omega

theorem Sound.frame_small (sound : Sound layout clients) {frame : Nat}
    (bound : frame < clients.pmm.maxBlocks.toNat) : frame < 2 ^ 19 := by
  have below := layout.below
  have blocks := sound.blocks
  omega

theorem Layout.Managed.bound (managed : Layout.Managed layout frame) : frame < layout.memSize.toNat / 4096 := by
  have inside := layout.inside
  obtain ⟨⟨lower, upper⟩, _⟩ := managed
  omega

/-- A clear bit is a managed frame that nobody holds. -/
theorem Sound.free_frame (sound : Sound layout clients) {frame : Nat}
    (bound : frame < clients.pmm.maxBlocks.toNat) (unset : clients.pmm.bitmap.test frame = false) :
    layout.Managed frame ∧ BitVec.ofNat 32 (frame * 4096) ∉ clients.live := by
  have blocked : ¬ (layout.Managed frame → BitVec.ofNat 32 (frame * 4096) ∈ clients.live) := by
    rw [← sound.bits frame bound, unset]
    simp
  exact Classical.not_imp.mp blocked

theorem Sound.alloc (sound : Sound layout clients) : Sound layout clients.alloc := by
  obtain ⟨result, full⟩ | ⟨frame, bound, unset, result⟩ := allocBlock_cases sound.counted sound.words
  · have same : clients.alloc = clients := by simp [Clients.alloc, result]
    rw [same]
    exact sound
  · have small := sound.frame_small bound
    have address := frame_toNat small
    obtain ⟨managed, absent⟩ := sound.free_frame bound unset
    have nonzero : BitVec.ofNat 32 (frame * 4096) ≠ 0 := by
      intro zero
      have lower := managed.1.1
      have nullPage := layout.nullPage
      have value := congrArg BitVec.toNat zero
      have start : (0 : Word).toNat = 0 := rfl
      omega
    have after : clients.alloc = ⟨{ clients.pmm with
        bitmap := clients.pmm.bitmap.set frame, usedBlocks := clients.pmm.usedBlocks + 1 },
        BitVec.ofNat 32 (frame * 4096) :: clients.live⟩ := by
      simp only [Clients.alloc, result, nonzero, ↓reduceIte]
    rw [after]
    constructor
    · exact sound.blocks
    · have frameWord : (BitVec.ofNat 32 frame).toNat = frame := by
        rw [BitVec.toNat_ofNat]
        omega
      have counted := sound.counted.set (frameWord.symm ▸ bound) (frameWord.symm ▸ unset)
      simp only [bitmapSet, frameWord] at counted
      exact counted
    · intro other inside
      simp only [Bitmap.test_set _ width, Bool.or_eq_true, decide_eq_true_eq, List.mem_cons]
      by_cases same : frame = other
      · simp [same]
      · have otherSmall := sound.frame_small inside
        have elsewhere : ¬ BitVec.ofNat 32 (other * 4096) = BitVec.ofNat 32 (frame * 4096) := by
          intro equal
          have values := congrArg BitVec.toNat equal
          rw [address, frame_toNat otherSmall] at values
          omega
        simp only [same, elsewhere, false_or]
        exact sound.bits other inside
    · intro p member
      obtain same | old := List.mem_cons.mp member
      · have whole : frame * 4096 / 4096 = frame := by omega
        rw [same, address, whole]
        exact ⟨by omega, managed⟩
      · exact sound.managed p old
    · exact List.nodup_cons.mpr ⟨absent, sound.distinct⟩

theorem Sound.free (sound : Sound layout clients) (member : p ∈ clients.live) :
    Sound layout (clients.free p) := by
  obtain ⟨page, managed⟩ := sound.managed p member
  have below := layout.below
  have inRange : p.toNat / 4096 < clients.pmm.maxBlocks.toNat := by
    rw [sound.blocks]
    exact managed.bound
  have address : BitVec.ofNat 32 (p.toNat / 4096 * 4096) = p := by
    have whole : p.toNat / 4096 * 4096 = p.toNat := by omega
    rw [whole, BitVec.ofNat_toNat, BitVec.setWidth_eq]
  have present : clients.pmm.bitmap.test (p.toNat / 4096) = true := by
    rw [sound.bits _ inRange, address]
    exact fun _ => member
  have frameWord : (BitVec.ofNat 32 (p.toNat / pmmBlockSize)).toNat = p.toNat / 4096 := by
    rw [BitVec.toNat_ofNat, pmmBlockSize]
    omega
  constructor
  · exact sound.blocks
  · exact sound.counted.unset (frameWord.symm ▸ inRange) (frameWord.symm ▸ present)
  · intro other inside
    simp only [Clients.free, freeBlock, bitmapUnset, frameWord, Bitmap.test_clear _ width, Bool.and_eq_true,
      Bool.not_eq_true', decide_eq_false_iff_not, sound.distinct.mem_erase_iff]
    by_cases same : p.toNat / 4096 = other
    · subst same
      simp [address, managed]
    · have elsewhere : BitVec.ofNat 32 (other * 4096) ≠ p := by
        intro equal
        have small := sound.frame_small inside
        rw [← equal, frame_toNat small] at same
        omega
      simp only [same, elsewhere, not_false_eq_true, true_and, ne_eq]
      exact sound.bits other inside
  · intro q old
    exact sound.managed q (List.mem_of_mem_erase old)
  · exact sound.distinct.erase p

theorem Sound.step (sound : Sound layout before) (step : Clients.Step before after) : Sound layout after := by
  cases step with
  | alloc => exact sound.alloc
  | free member => exact sound.free member

theorem Sound.of_reachable (layout : Layout) (memory : Bitmap 32) (bitmapAddr : Word)
    (reach : Reachable Clients.Step ⟨layout.boot memory bitmapAddr, []⟩ clients) : Sound layout clients :=
  reach.invariant (Sound.boot layout memory bitmapAddr) fun _ _ => Sound.step

/-- A whole page of the region that does not touch the reserved part. -/
structure Layout.Page (layout : Layout) (p : Word) : Prop where
  aligned : p.toNat % 4096 = 0
  above : layout.base.toNat ≤ p.toNat
  below : p.toNat + 4096 ≤ layout.base.toNat + layout.size.toNat
  outside : p.toNat + 4096 ≤ layout.reservedBase.toNat ∨
    layout.reservedBase.toNat + layout.reservedSize.toNat ≤ p.toNat

theorem Layout.Managed.page (managed : Layout.Managed layout frame) :
    layout.Page (BitVec.ofNat 32 (frame * 4096)) := by
  have below := layout.below
  have bound := managed.bound
  have address := @frame_toNat frame (by omega)
  have basePage := layout.basePage
  have sizePage := layout.sizePage
  have reservedBasePage := layout.reservedBasePage
  have reservedSizePage := layout.reservedSizePage
  obtain ⟨⟨lower, upper⟩, reserved⟩ := managed
  constructor
  · omega
  · omega
  · omega
  · rw [Covers] at reserved
    omega

/-- Along every run of allocations and of frees of live blocks: a block that
`pmm_alloc_block` returns is a page of the region nobody holds, the counter is
the number of set bits, and NULL comes back exactly when no bit is clear. -/
theorem alloc_safe_and_counted (layout : Layout) (memory : Bitmap 32) (bitmapAddr : Word) (clients : Clients)
    (reach : Reachable Clients.Step ⟨layout.boot memory bitmapAddr, []⟩ clients) :
    (clients.pmm.allocBlock.1 ≠ 0 →
      layout.Page clients.pmm.allocBlock.1 ∧ clients.pmm.allocBlock.1 ∉ clients.live) ∧
    clients.pmm.getUsedBlockCount.toNat = clients.pmm.bitmap.population clients.pmm.maxBlocks.toNat ∧
    (clients.pmm.allocBlock.1 = 0 ↔
      ∀ bit < clients.pmm.maxBlocks.toNat, clients.pmm.bitmap.test bit = true) := by
  have sound := Sound.of_reachable layout memory bitmapAddr reach
  refine ⟨?_, sound.counted, ?_⟩
  · intro nonnull
    obtain ⟨result, _⟩ | ⟨frame, bound, unset, result⟩ := allocBlock_cases sound.counted sound.words
    · rw [result] at nonnull
      exact absurd rfl nonnull
    · obtain ⟨managed, absent⟩ := sound.free_frame bound unset
      rw [result]
      exact ⟨managed.page, absent⟩
  · obtain ⟨result, full⟩ | ⟨frame, bound, unset, result⟩ := allocBlock_cases sound.counted sound.words
    · rw [result]
      exact ⟨fun _ => full, fun _ => rfl⟩
    · obtain ⟨managed, _⟩ := sound.free_frame bound unset
      rw [result]
      constructor
      · intro null
        have above := managed.page.above
        have nullPage := layout.nullPage
        have value : (BitVec.ofNat 32 (frame * 4096)).toNat = 0 := congrArg BitVec.toNat null
        omega
      · intro full
        rw [full frame bound] at unset
        cases unset

/-- The arguments `kernel_main` uses, for a kernel that ends at 2 MiB. -/
def kernelLayout : Layout where
  memSize := 0x8000000
  base := 0x100000
  size := 0x7F00000
  reservedBase := 0x100000
  reservedSize := 0x100000
  granule := by decide
  below := by decide
  basePage := by decide
  sizePage := by decide
  reservedBasePage := by decide
  reservedSizePage := by decide
  nullPage := by decide
  inside := by decide
  reservedAbove := by decide
  reservedBelow := by decide

theorem alloc_safe_and_counted_kernelLayout :
    let clients := Clients.alloc ⟨kernelLayout.boot (fun _ => 0) 0x200000, []⟩
    (clients.pmm.allocBlock.1 ≠ 0 →
      kernelLayout.Page clients.pmm.allocBlock.1 ∧ clients.pmm.allocBlock.1 ∉ clients.live) ∧
    clients.pmm.getUsedBlockCount.toNat = clients.pmm.bitmap.population clients.pmm.maxBlocks.toNat ∧
    (clients.pmm.allocBlock.1 = 0 ↔
      ∀ bit < clients.pmm.maxBlocks.toNat, clients.pmm.bitmap.test bit = true) :=
  alloc_safe_and_counted kernelLayout (fun _ => 0) 0x200000 _ (.single .alloc)

end MexOS.Mm.Pmm
