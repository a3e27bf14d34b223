import MexOS.Mm.PmmAccounting

/-! Which frames the allocator hands out after the boot sequence of
`kernel_main`, and when they keep clear of the kernel and of the bitmap. -/

namespace MexOS.Mm.Pmm

open MexOS.Machine

private theorem wordWidth : 0 < 32 := by decide

/-- The lowest clear bit of a searched word, from either search. -/
theorem bitmapFirstFreeS_some {pmm : Pmm} (found : pmm.bitmapFirstFreeS size = some frame) :
    frame < 32 * (pmm.maxBlocks.toNat / 32) ∧ pmm.bitmap.test frame = false := by
  unfold bitmapFirstFreeS at found
  split at found
  · cases found
  · split at found
    · obtain ⟨bound, unset, _⟩ := bitmapFirstFree_eq_some.mp found
      exact ⟨bound, unset⟩
    · have scan : scanBits pmm.bitmap (pmm.maxBlocks.toNat / 32) (fun start =>
          pmm.countFree (BitVec.ofNat 32 start) size size.toNat 0 0) = some frame := found
      obtain ⟨bound, candidate, _⟩ := scanBits_eq_some.mp scan
      exact ⟨bound, candidate.1⟩

theorem markBlocks_maxBlocks (pmm : Pmm) (frame : Word) (count : Nat) :
    (pmm.markBlocks frame count).maxBlocks = pmm.maxBlocks := by
  induction count generalizing pmm frame with
  | zero => rfl
  | succ count ih => exact ih _ _

theorem markBlocks_usedBlocks (pmm : Pmm) (frame : Word) (count : Nat) :
    (pmm.markBlocks frame count).usedBlocks = pmm.usedBlocks := by
  induction count generalizing pmm frame with
  | zero => rfl
  | succ count ih => exact ih _ _

theorem markBlocks_test {pmm : Pmm} {bit : Nat} (present : pmm.bitmap.test bit = true)
    (frame : Word) (count : Nat) : (pmm.markBlocks frame count).bitmap.test bit = true := by
  induction count generalizing pmm frame with
  | zero => exact present
  | succ count ih =>
    apply ih
    simp [bitmapSet, Bitmap.test_set _ wordWidth, present]

/-- Everything a call of `pmm_alloc_block` (`count = 1`) or of
`pmm_alloc_blocks` that returns a block can do. -/
structure Granted (pmm : Pmm) (count : Word) (result : Word × Pmm) (frame : Nat) : Prop where
  searched : frame < 32 * (pmm.maxBlocks.toNat / 32)
  unset : pmm.bitmap.test frame = false
  address : result.1 = BitVec.ofNat 32 (frame * 4096)
  enough : count ≤ pmm.getFreeBlockCount
  counter : result.2.usedBlocks = pmm.usedBlocks + count
  blocks : result.2.maxBlocks = pmm.maxBlocks
  kept : ∀ bit, pmm.bitmap.test bit = true → result.2.bitmap.test bit = true

theorem allocBlock_granted (pmm : Pmm) :
    pmm.allocBlock = (0, pmm) ∨ ∃ frame, Granted pmm 1 pmm.allocBlock frame := by
  by_cases empty : pmm.getFreeBlockCount = 0
  · left
    rw [allocBlock, if_pos empty]
  · cases found : pmm.bitmapFirstFree with
    | none =>
      left
      rw [allocBlock, if_neg empty, found]
    | some frame =>
      obtain ⟨bound, unset, _⟩ := bitmapFirstFree_eq_some.mp found
      right
      refine ⟨frame, ?_⟩
      rw [allocBlock, if_neg empty, found]
      have enough : (1 : Word) ≤ pmm.getFreeBlockCount := by bv_omega
      have kept (bit : Nat) (present : pmm.bitmap.test bit = true) :
          (pmm.bitmapSet (BitVec.ofNat 32 frame)).bitmap.test bit = true := by
        simp [bitmapSet, Bitmap.test_set _ wordWidth, present]
      exact ⟨bound, unset, rfl, enough, rfl, rfl, kept⟩

theorem allocBlocks_granted (pmm : Pmm) (count : Word) :
    pmm.allocBlocks count = (0, pmm) ∨ ∃ frame, Granted pmm count (pmm.allocBlocks count) frame := by
  by_cases short : pmm.getFreeBlockCount < count
  · left
    rw [allocBlocks, if_pos short]
  · cases found : pmm.bitmapFirstFreeS count with
    | none =>
      left
      rw [allocBlocks, if_neg short, found]
    | some frame =>
      obtain ⟨bound, unset⟩ := bitmapFirstFreeS_some found
      right
      refine ⟨frame, ?_⟩
      rw [allocBlocks, if_neg short, found]
      have enough : count ≤ pmm.getFreeBlockCount := by bv_omega
      have counter : (pmm.markBlocks (BitVec.ofNat 32 frame) count.toNat).usedBlocks + count =
          pmm.usedBlocks + count := by
        rw [markBlocks_usedBlocks]
      exact ⟨bound, unset, rfl, enough, counter, markBlocks_maxBlocks pmm _ _,
        fun _ present => markBlocks_test present _ _⟩

/-- `round_up_4K(kernel_end - 0x100000)` as `kernel_main` computes it. -/
def kernelSize (kernelEnd : Word) : Word := (kernelEnd - 0x100000 + 0xFFF) &&& ~~~0xFFF

/-- The memory setup of `kernel_main`. -/
def kernelMain (memory : Bitmap 32) (memSize kernelEnd : Word) : Pmm :=
  ((init memory memSize kernelEnd).initRegion 0x100000 (memSize - 0x100000)).deinitRegion
    0x100000 (kernelSize kernelEnd)

/-- One allocator call: the number of blocks it was asked for, what it
returned and the allocator afterwards. -/
inductive Call (pmm : Pmm) : Word → Word × Pmm → Prop
  | block : Call pmm 1 pmm.allocBlock
  | blocks (count : Word) : Call pmm count (pmm.allocBlocks count)

/-- Between two calls the owners of the memory behind the bitmap write to it
as they like. -/
inductive AllocStep : Pmm → Pmm → Prop
  | call : Call pmm count result → AllocStep pmm result.2
  | outside (memory : Bitmap 32) :
    (∀ bit < 8 * (pmm.maxBlocks.toNat / 8), memory.test bit = pmm.bitmap.test bit) →
    AllocStep pmm { pmm with bitmap := memory }

/-- The half-open ranges `[first, first + length)` and `[start, stop)` share a
byte. -/
def Overlaps (first length start stop : Nat) : Prop := first < stop ∧ start < first + length ∧ start < stop

/-- None of the frames a call returned shares a byte with the kernel image or
with the bitmap behind it. -/
def ClearOfKernel (kernelEnd : Word) (pmm : Pmm) (count : Word) (p : Word) : Prop :=
  p ≠ 0 → ∀ k < count.toNat,
    ¬ Overlaps (p + BitVec.ofNat 32 (k * 4096)).toNat 4096 0x100000 kernelEnd.toNat ∧
    ¬ Overlaps (p + BitVec.ofNat 32 (k * 4096)).toNat 4096 kernelEnd.toNat
      (kernelEnd.toNat + pmm.maxBlocks.toNat / 8)

theorem initLoop_usedBlocks (pmm : Pmm) (align : Word) (blocks : Nat) :
    (pmm.initLoop align blocks).usedBlocks = pmm.usedBlocks - BitVec.ofNat 32 blocks := by
  induction blocks generalizing pmm align with
  | zero => simp [initLoop]
  | succ blocks ih =>
    rw [initLoop, ih]
    simp only [bitmapUnset]
    bv_omega

theorem deinitLoop_usedBlocks (pmm : Pmm) (align : Word) (blocks : Nat) :
    (pmm.deinitLoop align blocks).usedBlocks = pmm.usedBlocks + BitVec.ofNat 32 blocks := by
  induction blocks generalizing pmm align with
  | zero => simp [deinitLoop]
  | succ blocks ih =>
    rw [deinitLoop, ih]
    simp only [bitmapSet]
    bv_omega

theorem deinitLoop_kept {pmm : Pmm} {bit : Nat} (present : pmm.bitmap.test bit = true)
    (align : Word) (blocks : Nat) : (pmm.deinitLoop align blocks).bitmap.test bit = true := by
  induction blocks generalizing pmm align with
  | zero => exact present
  | succ blocks ih =>
    apply ih
    simp [bitmapSet, Bitmap.test_set _ wordWidth, present]

/-- A size with the top bit set is a negative `int`: the loop does not run. -/
theorem initRegion_negative {pmm : Pmm} {base size : Word} (negative : 2 ^ 31 ≤ size.toNat) :
    pmm.initRegion base size = pmm.bitmapSet 0 := by
  have value : size.toInt < 0 := by
    have limit := size.isLt
    rw [BitVec.toInt_eq_toNat_cond]
    omega
  have quotient : blocksOf size ≤ 0 := by
    have rounded : blocksOf size = -((-size.toInt) / pmmBlockSize) := by
      rw [blocksOf, ← Int.neg_neg size.toInt, Int.neg_tdiv, Int.tdiv_eq_ediv_of_nonneg (by omega), Int.neg_neg]
    have magnitude : 0 ≤ (-size.toInt) / pmmBlockSize := Int.ediv_nonneg (by omega) (by decide)
    omega
  rw [initRegion, Int.toNat_of_nonpos quotient, initLoop]

section KernelMain

variable {memSize kernelEnd : Word} (memory : Bitmap 32)

/-- Frames below this one belong to the kernel or to low memory. -/
def kernelFrames (kernelEnd : Word) : Nat := (kernelEnd.toNat + 4095) / 4096

theorem kernelSize_toNat (above : 0x100000 < kernelEnd.toNat) (below : kernelEnd.toNat < 2 ^ 31 + 2 ^ 20) :
    (kernelSize kernelEnd).toNat = (kernelFrames kernelEnd - 256) * 4096 := by
  have mask : (0xFFF : Word) = BitVec.ofNat 32 (2 ^ 12 - 1) := rfl
  have sum : (kernelEnd - 0x100000 + 0xFFF).toNat = kernelEnd.toNat - 0x100000 + 0xFFF := by bv_omega
  rw [kernelSize, mask, toNat_and_not_mask, ← mask, sum, kernelFrames]
  omega

theorem kernelMain_maxBlocks : (kernelMain memory memSize kernelEnd).maxBlocks.toNat = memSize.toNat / 4096 := by
  rw [kernelMain, deinitRegion_maxBlocks, initRegion_maxBlocks, init_maxBlocks]

/-- `pmm_init` marks every bit the searches look at. -/
theorem init_searched {bit : Nat} (bound : bit < 8 * (memSize.toNat / 32768)) :
    (init memory memSize kernelEnd).bitmap.test bit = true := by
  have limit := memSize.isLt
  have bytes : (memSize.toNat / 4096 % 2 ^ 32) / 8 % 2 ^ 32 = memSize.toNat / 32768 := by omega
  simp only [init, fillBytes_test, pmmBlockSize, pmmBlocksPerByte, BitVec.toNat_ofNat, bytes, bound,
    decide_true, Bool.true_or]

/-- With less than 2 GiB above the first megabyte, the frames from the end of
the kernel to the end of memory are the ones marked free. -/
theorem kernelMain_test (above : 0x100000 < kernelEnd.toNat)
    (room : kernelEnd.toNat + memSize.toNat / 32768 ≤ memSize.toNat) (below : memSize.toNat < 2 ^ 31 + 2 ^ 20) {bit : Nat} (bound : bit < 8 * (memSize.toNat / 32768)) :
    (kernelMain memory memSize kernelEnd).bitmap.test bit = decide (bit < kernelFrames kernelEnd) := by
  have reserved := kernelSize_toNat above (by omega)
  have frames : kernelFrames kernelEnd = (kernelEnd.toNat + 4095) / 4096 := rfl
  have base : (0x100000 : Word).toNat = 0x100000 := rfl
  have size : (memSize - 0x100000).toNat = memSize.toNat - 0x100000 := by bv_omega
  rw [kernelMain, deinitRegion_test (by decide) (by omega), initRegion_test (by decide) (by omega),
    init_searched memory bound, Bool.eq_iff_iff]
  simp only [Covers, base, size, reserved, Bool.or_eq_true, Bool.true_and, Bool.not_eq_true', decide_eq_true_eq,
    decide_eq_false_iff_not]
  omega

theorem kernelMain_usedBlocks (above : 0x100000 < kernelEnd.toNat)
    (room : kernelEnd.toNat + memSize.toNat / 32768 ≤ memSize.toNat) (below : memSize.toNat < 2 ^ 31 + 2 ^ 20) :
    (kernelMain memory memSize kernelEnd).usedBlocks.toNat = kernelFrames kernelEnd := by
  have reserved := kernelSize_toNat above (by omega)
  have frames : kernelFrames kernelEnd = (kernelEnd.toNat + 4095) / 4096 := rfl
  have size : (memSize - 0x100000).toNat = memSize.toNat - 0x100000 := by bv_omega
  have start : (init memory memSize kernelEnd).usedBlocks.toNat = memSize.toNat / 4096 :=
    init_maxBlocks memory memSize kernelEnd
  rw [kernelMain, deinitRegion_eq (by omega), deinitLoop_usedBlocks, initRegion_eq (by omega), bitmapSet]
  simp only
  rw [initLoop_usedBlocks, reserved, size]
  have remaining : (kernelFrames kernelEnd - 256) * 4096 / 4096 = kernelFrames kernelEnd - 256 := by omega
  rw [remaining]
  bv_omega

end KernelMain

/-- No search can find anything. -/
def Exhausted (pmm : Pmm) : Prop := ∀ bit < 32 * (pmm.maxBlocks.toNat / 32), pmm.bitmap.test bit = true

/-- The frames below `first` stay marked and the counter never passes the
number of blocks. -/
structure Reserved (first blocks : Nat) (pmm : Pmm) : Prop where
  max : pmm.maxBlocks.toNat = blocks
  marked : ∀ bit < first, pmm.bitmap.test bit = true
  least : first ≤ pmm.usedBlocks.toNat
  most : pmm.usedBlocks.toNat ≤ blocks

theorem Call.granted (call : Call pmm count result) :
    result = (0, pmm) ∨ ∃ frame, Granted pmm count result frame := by
  cases call with
  | block => exact allocBlock_granted pmm
  | blocks count => exact allocBlocks_granted pmm count

theorem Exhausted.call (exhausted : Exhausted pmm) (call : Call pmm count result) : result = (0, pmm) := by
  obtain nothing | ⟨frame, granted⟩ := call.granted
  · exact nothing
  · have unset := granted.unset
    rw [exhausted frame granted.searched] at unset
    cases unset

theorem Exhausted.step (exhausted : Exhausted before) (step : AllocStep before after) : Exhausted after := by
  cases step with
  | call call =>
    rw [exhausted.call call]
    exact exhausted
  | outside memory same =>
    intro bit bound
    rw [← exhausted bit bound]
    exact same bit (by simp only at bound; omega)

theorem Reserved.step (searched : first < 32 * (blocks / 32)) (reserved : Reserved first blocks before)
    (step : AllocStep before after) : Reserved first blocks after := by
  cases step with
  | call call =>
    obtain nothing | ⟨frame, granted⟩ := call.granted
    · rw [nothing]
      exact reserved
    · have enough := granted.enough
      have counter := granted.counter
      have max := reserved.max
      have least := reserved.least
      have most := reserved.most
      rw [getFreeBlockCount] at enough
      constructor
      · rw [granted.blocks, max]
      · exact fun bit bound => granted.kept bit (reserved.marked bit bound)
      · bv_omega
      · bv_omega
  | outside memory same =>
    refine ⟨reserved.max, ?_, reserved.least, reserved.most⟩
    intro bit bound
    rw [← reserved.marked bit bound]
    have max := reserved.max
    exact same bit (by omega)

/-- Behind the reserved frames a call returns only addresses at or above them,
or, when the run passes 4 GiB, addresses below the first megabyte. -/
theorem Reserved.address (reserved : Reserved first blocks pmm) (above : 257 ≤ first)
    (below : blocks < 2 ^ 19 + 256) (granted : Granted pmm count result frame) (turn : k < count.toNat) :
    first * 4096 ≤ (result.1 + BitVec.ofNat 32 (k * 4096)).toNat ∨
      (result.1 + BitVec.ofNat 32 (k * 4096)).toNat + 4096 ≤ 0x100000 := by
  have enough := granted.enough
  have max := reserved.max
  have least := reserved.least
  have most := reserved.most
  have searched := granted.searched
  have start : first ≤ frame := by
    by_contra early
    have unset := granted.unset
    rw [reserved.marked frame (by omega)] at unset
    cases unset
  have few : count.toNat ≤ blocks - first := by
    rw [getFreeBlockCount] at enough
    bv_omega
  have sum : (result.1 + BitVec.ofNat 32 (k * 4096)).toNat = (frame + k) * 4096 % 2 ^ 32 := by
    rw [granted.address]
    bv_omega
  omega

/-- When the boot sequence keeps the allocator clear of the kernel: the bitmap
ends inside the kernel's last page, or no frame behind the kernel is searched,
or there are 2 GiB or more above the first megabyte, which frees nothing. -/
def BootReserves (memSize kernelEnd : Word) : Prop :=
  kernelEnd.toNat + memSize.toNat / 32768 ≤ kernelFrames kernelEnd * 4096 ∨
  32 * (memSize.toNat / 131072) ≤ kernelFrames kernelEnd ∨
  2 ^ 31 + 0x100000 ≤ memSize.toNat

section KernelMain

variable {memSize kernelEnd : Word} (above : 0x100000 < kernelEnd.toNat)
  (room : kernelEnd.toNat + memSize.toNat / 32768 ≤ memSize.toNat)

theorem kernelMain_exhausted_of_negative (memory : Bitmap 32) (large : 2 ^ 31 + 0x100000 ≤ memSize.toNat) :
    Exhausted (kernelMain memory memSize kernelEnd) := by
  have size : (memSize - 0x100000).toNat = memSize.toNat - 0x100000 := by bv_omega
  intro bit bound
  rw [kernelMain_maxBlocks] at bound
  rw [kernelMain, deinitRegion, initRegion_negative (by omega)]
  apply deinitLoop_kept
  simp [bitmapSet, Bitmap.test_set _ wordWidth, init_searched memory (by omega : bit < 8 * (memSize.toNat / 32768))]

include above room

theorem kernelMain_exhausted (memory : Bitmap 32) (below : memSize.toNat < 2 ^ 31 + 2 ^ 20)
    (behind : 32 * (memSize.toNat / 131072) ≤ kernelFrames kernelEnd) :
    Exhausted (kernelMain memory memSize kernelEnd) := by
  intro bit bound
  rw [kernelMain_maxBlocks] at bound
  rw [kernelMain_test memory above room below (by omega), decide_eq_true_eq]
  omega

theorem kernelMain_reserved (memory : Bitmap 32) (below : memSize.toNat < 2 ^ 31 + 2 ^ 20)
    (searched : kernelFrames kernelEnd < 32 * (memSize.toNat / 131072)) :
    Reserved (kernelFrames kernelEnd) (memSize.toNat / 4096) (kernelMain memory memSize kernelEnd) := by
  have used := kernelMain_usedBlocks memory above room below
  constructor
  · exact kernelMain_maxBlocks memory
  · intro bit bound
    rw [kernelMain_test memory above room below (by omega), decide_eq_true_eq]
    exact bound
  · omega
  · omega

/-- The first block handed out is the frame right behind the rounded kernel. -/
theorem kernelMain_first (memory : Bitmap 32) (below : memSize.toNat < 2 ^ 31 + 2 ^ 20)
    (searched : kernelFrames kernelEnd < 32 * (memSize.toNat / 131072)) :
    (kernelMain memory memSize kernelEnd).allocBlock.1.toNat = kernelFrames kernelEnd * 4096 := by
  have used := kernelMain_usedBlocks memory above room below
  have max := @kernelMain_maxBlocks memSize kernelEnd memory
  have found : (kernelMain memory memSize kernelEnd).bitmapFirstFree = some (kernelFrames kernelEnd) := by
    rw [bitmapFirstFree_eq_some]
    refine ⟨by omega, ?_, ?_⟩
    · rw [kernelMain_test memory above room below (by omega)]
      simp
    · intro bit earlier
      rw [kernelMain_test memory above room below (by omega), decide_eq_true_eq]
      exact earlier
  have some_left : ¬ (kernelMain memory memSize kernelEnd).getFreeBlockCount = 0 := by
    rw [getFreeBlockCount]
    bv_omega
  rw [allocBlock, if_neg some_left, found]
  simp only [pmmBlockSize, BitVec.toNat_ofNat]
  omega

theorem kernelMain_clear (memory : Bitmap 32) (reserves : BootReserves memSize kernelEnd)
    (reach : Reachable AllocStep (kernelMain memory memSize kernelEnd) pmm) (call : Call pmm count result) :
    ClearOfKernel kernelEnd pmm count result.1 := by
  intro nonnull k turn
  by_cases quiet : 2 ^ 31 + 0x100000 ≤ memSize.toNat ∨
      32 * (memSize.toNat / 131072) ≤ kernelFrames kernelEnd
  · have initial : Exhausted (kernelMain memory memSize kernelEnd) := by
      by_cases large : 2 ^ 31 + 0x100000 ≤ memSize.toNat
      · exact kernelMain_exhausted_of_negative memory large
      · exact kernelMain_exhausted above room memory (by omega) (quiet.resolve_left large)
    have exhausted := reach.invariant initial fun _ _ => Exhausted.step
    rw [exhausted.call call] at nonnull
    exact absurd rfl nonnull
  · have fits : kernelEnd.toNat + memSize.toNat / 32768 ≤ kernelFrames kernelEnd * 4096 := by
      rw [BootReserves] at reserves
      omega
    have searched : kernelFrames kernelEnd < 32 * (memSize.toNat / 131072) := by omega
    have initial := kernelMain_reserved above room memory (by omega) searched
    have reserved := reach.invariant initial fun _ _ => Reserved.step (by omega)
    obtain nothing | ⟨frame, granted⟩ := call.granted
    · rw [nothing] at nonnull
      exact absurd rfl nonnull
    · have frames : kernelFrames kernelEnd = (kernelEnd.toNat + 4095) / 4096 := rfl
      have address := reserved.address (by omega) (by omega) granted turn
      have max := reserved.max
      unfold Overlaps
      omega

/-- Otherwise the very first call returns a frame of the bitmap. -/
theorem kernelMain_not_clear (memory : Bitmap 32) (unreserved : ¬ BootReserves memSize kernelEnd) :
    ¬ ClearOfKernel kernelEnd (kernelMain memory memSize kernelEnd) 1
      (kernelMain memory memSize kernelEnd).allocBlock.1 := by
  intro clear
  rw [BootReserves] at unreserved
  have searched : kernelFrames kernelEnd < 32 * (memSize.toNat / 131072) := by omega
  have first := kernelMain_first above room memory (by omega) searched
  have max := @kernelMain_maxBlocks memSize kernelEnd memory
  have frames : kernelFrames kernelEnd = (kernelEnd.toNat + 4095) / 4096 := rfl
  have nonnull : (kernelMain memory memSize kernelEnd).allocBlock.1 ≠ 0 := by
    intro null
    have value := congrArg BitVec.toNat null
    have zero : (0 : Word).toNat = 0 := rfl
    omega
  have apart := (clear nonnull 0 (by decide)).2
  have itself : (kernelMain memory memSize kernelEnd).allocBlock.1 + BitVec.ofNat 32 (0 * 4096) =
      (kernelMain memory memSize kernelEnd).allocBlock.1 := by simp
  rw [itself, Overlaps] at apart
  omega

end KernelMain

/-- For every kernel end and memory size of the boot contract, no run of
allocations returns a frame of the kernel or of the bitmap if and only if
`BootReserves` holds of the two addresses. -/
theorem boot_clear_iff (memSize kernelEnd : Word) (above : 0x100000 < kernelEnd.toNat)
    (room : kernelEnd.toNat + memSize.toNat / 32768 ≤ memSize.toNat) :
    (∀ memory pmm count result, Reachable AllocStep (kernelMain memory memSize kernelEnd) pmm →
      Call pmm count result → ClearOfKernel kernelEnd pmm count result.1) ↔
    BootReserves memSize kernelEnd := by
  constructor
  · intro safe
    by_contra unreserved
    exact kernelMain_not_clear above room (fun _ => 0) unreserved (safe _ _ _ _ .refl .block)
  · intro reserves memory pmm count result reach call
    exact kernelMain_clear above room memory reserves reach call

/-- A bitmap of 2 KiB behind a kernel that leaves most of its last page unused. -/
theorem boot_clear_of_short_bitmap :
    BootReserves 0x4000000 0x1FF100 ∧
    ∀ memory pmm count result, Reachable AllocStep (kernelMain memory 0x4000000 0x1FF100) pmm →
      Call pmm count result → ClearOfKernel 0x1FF100 pmm count result.1 := by
  have reserves : BootReserves 0x4000000 0x1FF100 := by
    unfold BootReserves
    decide
  exact ⟨reserves, (boot_clear_iff 0x4000000 0x1FF100 (by decide) (by decide)).mpr reserves⟩

/-- With the 128 MiB of `kernel_main` and a kernel that ends at 2 MiB, the
first block is the page that holds the bitmap. -/
theorem boot_not_clear : ¬ ∀ memSize kernelEnd : Word, 0x100000 < kernelEnd.toNat →
    kernelEnd.toNat + memSize.toNat / 32768 ≤ memSize.toNat →
    ∀ memory pmm count result, Reachable AllocStep (kernelMain memory memSize kernelEnd) pmm →
      Call pmm count result → ClearOfKernel kernelEnd pmm count result.1 := by
  intro safe
  have unreserved : ¬ BootReserves 0x8000000 0x200000 := by
    unfold BootReserves
    decide
  exact kernelMain_not_clear (by decide) (by decide) (fun _ => 0) unreserved
    (safe 0x8000000 0x200000 (by decide) (by decide) _ _ _ _ .refl .block)

end MexOS.Mm.Pmm
