import MexOS.Mm.WindowSpaces

/-! The boot sequence of `kernel_main` up to `vmm_init`, which leaves the window
intact and the kernel directory active. -/

namespace MexOS.Mm.Paging

open MexOS.Machine

/-- The first `count` words of a bitmap, stored from `base` on. -/
def storeBitmap (memory : Memory) (base : Word) (bitmap : Bitmap 32) (count : Nat) : Memory :=
  (List.range count).foldl (fun memory word => storeWord memory (base + BitVec.ofNat 32 (4 * word)) (bitmap word)) memory

theorem kernelMain_direct : (0 : Word) = 0 ∨ (0 : Word) < kernelVirtualBase ∨ (0 : Word) = 0 := .inl rfl

/-- The state in which `kernel_main` calls `vmm_init`. `memory` is what the
machine held before, and the allocator manages 128 MiB. -/
def kernelMain (memory : Memory) (kernelEnd : Word) : Paging :=
  let pmm := Pmm.kernelMain (fun word => loadWord memory (kernelEnd + BitVec.ofNat 32 (4 * word))) 0x8000000 kernelEnd
  { mem := storeBitmap memory kernelEnd pmm.bitmap 1024
    kernelDirectory := 0
    currentDirectory := 0
    kernelDirectoryPhys := 0
    bitmapAddr := kernelEnd
    bitmapSize := pmm.bitmapSize
    memorySize := pmm.memorySize
    usedBlocks := pmm.usedBlocks
    maxBlocks := pmm.maxBlocks
    cr3 := 0
    paging := false
    trace := []
    direct := kernelMain_direct
    blocks := by rw [Pmm.kernelMain_maxBlocks]; decide }

variable {p q r : Paging} {kernelEnd : Word} {page table dir : Word} {count : Nat} {changed : Word → Prop}

theorem loadWord_storeBitmap (memory : Memory) (base : Word) (bitmap : Bitmap 32) {bound word : Nat} (limit : bound ≤ 2 ^ 15)
    (small : word < bound) :
    loadWord (storeBitmap memory base bitmap bound) (base + BitVec.ofNat 32 (4 * word)) = bitmap word := by
  induction bound with
  | zero => exact absurd small (Nat.not_lt_zero word)
  | succ bound ih =>
    rw [storeBitmap, List.range_succ, List.foldl_append, List.foldl_cons, List.foldl_nil]
    by_cases last : word = bound
    · subst last
      exact loadWord_storeWord_self _ _ _
    · rw [loadWord_storeWord_apart (apart_words base (by omega) (by omega) last)]
      exact ih (by omega) (by omega)

/-- Before paging is on: the first `count` frames are in use, no other one below
`reach` is, and every access has found its frame. -/
structure Stage (kernelEnd : Word) (count : Nat) (p : Paging) : Prop where
  bitmapAddr : p.bitmapAddr = kernelEnd
  maxBlocks : p.maxBlocks = 32768
  paging : p.paging = false
  used : p.usedBlocks.toNat = count
  bits : ∀ frame < reach kernelEnd, p.inUse frame = decide (frame < count)
  faultless : p.Faultless

theorem kernelMain_stage (memory : Memory) (above : 0x100000 < kernelEnd.toNat) (room : kernelEnd.toNat + 4096 ≤ 0x8000000) :
    Stage kernelEnd (Pmm.kernelFrames kernelEnd) (kernelMain memory kernelEnd) := by
  have fits : kernelEnd.toNat + (0x8000000 : Word).toNat / 32768 ≤ (0x8000000 : Word).toNat := room
  have below : (0x8000000 : Word).toNat < 2 ^ 31 + 2 ^ 20 := by decide
  constructor
  · rfl
  · apply BitVec.eq_of_toNat_eq
    exact Pmm.kernelMain_maxBlocks _
  · rfl
  · exact Pmm.kernelMain_usedBlocks _ above fits below
  · intro frame bound
    have far := reach_lt kernelEnd
    have inside : frame < 8 * ((0x8000000 : Word).toNat / 32768) := by
      have size : (0x8000000 : Word).toNat = 0x8000000 := rfl
      omega
    have stored : (kernelMain memory kernelEnd).mem = storeBitmap memory kernelEnd (Pmm.kernelMain (fun word =>
        loadWord memory (kernelEnd + BitVec.ofNat 32 (4 * word))) 0x8000000 kernelEnd).bitmap 1024 := by
        dsimp only [kernelMain]
    have shape : (kernelMain memory kernelEnd).inUse frame =
      (loadWord (kernelMain memory kernelEnd).mem (kernelEnd + BitVec.ofNat 32 (4 * (frame / 32)))).getLsbD (frame % 32) := rfl
    rw [shape, stored, loadWord_storeBitmap memory kernelEnd _ (by decide) (by omega : frame / 32 < 1024)]
    exact Pmm.kernelMain_test _ above fits below inside
  · intro address member
    cases member

/-- A step of `vmm_init` that takes no block. -/
structure Offline (kernelEnd : Word) (changed : Word → Prop) (p q : Paging) : Prop extends Kept kernelEnd changed p q where
  bits : ∀ frame < reach kernelEnd, q.inUse frame = p.inUse frame
  used : q.usedBlocks = p.usedBlocks
  faultless : p.paging = false → p.Faultless → q.Faultless

theorem Offline.refl (p : Paging) : Offline kernelEnd changed p p := ⟨.refl p, fun _ _ => rfl, rfl, fun _ before => before⟩

theorem Offline.trans (first : Offline kernelEnd changed p q) (second : Offline kernelEnd changed q r) :
    Offline kernelEnd changed p r where
  toKept := first.toKept.trans second.toKept
  bits := fun frame bound => (second.bits frame bound).trans (first.bits frame bound)
  used := second.used.trans first.used
  faultless := fun off before => second.faultless (first.statics.paging.trans off) (first.faultless off before)

theorem Offline.weaken {more : Word → Prop} (offline : Offline kernelEnd changed p q) (fewer : ∀ page, changed page → more page) :
    Offline kernelEnd more p q :=
  ⟨offline.toKept.weaken fewer, offline.bits, offline.used, offline.faultless⟩

theorem Stage.offline (stage : Stage kernelEnd count p) (offline : Offline kernelEnd changed p q) : Stage kernelEnd count q where
  bitmapAddr := offline.statics.bitmapAddr.trans stage.bitmapAddr
  maxBlocks := offline.statics.maxBlocks.trans stage.maxBlocks
  paging := offline.statics.paging.trans stage.paging
  used := by rw [offline.used, stage.used]
  bits := fun frame bound => (offline.bits frame bound).trans (stage.bits frame bound)
  faultless := offline.faultless stage.paging stage.faultless

theorem offline_write {index : Word} (behind : Behind kernelEnd page) (base : p.bitmapAddr = kernelEnd) (small : index.toNat < 1024)
    (value : Word) : Offline kernelEnd (· = page) p (p.write (page + 4 * index) value) := by
  refine ⟨kept_write behind small value, fun frame bound => bits_write behind base small value bound, rfl, ?_⟩
  intro off before address member
  rcases List.mem_cons.mp member with here | earlier
  · injection here with _ missed
    simp [mapped, walk, off] at missed
  · exact before address earlier

/-- A loop of stores over the words of a page. -/
theorem offline_fill (behind : Behind kernelEnd page) (value : Nat → Word) {bound : Nat} (limit : bound ≤ 1024)
    (base : p.bitmapAddr = kernelEnd) :
    Offline kernelEnd (· = page) p
      ((List.range bound).foldl (fun p i => p.write (page + 4 * BitVec.ofNat 32 i) (value i)) p) ∧
    ∀ i : Word, i.toNat < 1024 →
      ((List.range bound).foldl (fun p i => p.write (page + 4 * BitVec.ofNat 32 i) (value i)) p).entry page i =
        if i.toNat < bound then value i.toNat else p.entry page i := by
  induction bound with
  | zero => exact ⟨.refl p, fun i _ => (if_neg (Nat.not_lt_zero _)).symm⟩
  | succ bound ih =>
    obtain ⟨offline, words⟩ := ih (by omega)
    rw [List.range_succ, List.foldl_append, List.foldl_cons, List.foldl_nil]
    generalize (List.range bound).foldl (fun p i => p.write (page + 4 * BitVec.ofNat 32 i) (value i)) p = q at *
    have number : (BitVec.ofNat 32 bound).toNat = bound := toNat_ofNat_index (by omega)
    have small : (BitVec.ofNat 32 bound).toNat < 1024 := by omega
    refine ⟨offline.trans (offline_write behind (offline.statics.bitmapAddr.trans base) small _), ?_⟩
    intro i iSmall
    rw [entry_write behind.aligned behind.aligned small iSmall, words i iSmall]
    by_cases here : i.toNat = bound
    · have same : BitVec.ofNat 32 bound = i := BitVec.eq_of_toNat_eq (by omega)
      rw [if_pos ⟨rfl, same⟩, if_pos (by omega), here]
    · have different : ¬ (page = page ∧ BitVec.ofNat 32 bound = i) := by
        rintro ⟨_, rfl⟩
        exact here number
      rw [if_neg different]
      by_cases earlier : i.toNat < bound
      · rw [if_pos earlier, if_pos (by omega)]
      · rw [if_neg earlier, if_neg (by omega)]

/-- The page of a frame. -/
def framePage (frame : Nat) : Word := BitVec.ofNat 32 (frame * 4096)

theorem toNat_framePage {frame : Nat} (small : frame < 32768) : (framePage frame).toNat = frame * 4096 := by
  rw [framePage, BitVec.toNat_ofNat]
  omega

theorem windowed_framePage {frame : Nat} (first : Pmm.kernelFrames kernelEnd ≤ frame) (last : frame < windowFrames kernelEnd) :
    Windowed kernelEnd (framePage frame) := by
  have near := windowFrames_le_reach kernelEnd
  have far := reach_lt kernelEnd
  have value := @toNat_framePage frame (by omega)
  have behind : Behind kernelEnd (framePage frame) := by
    refine ⟨?_, ?_, ?_⟩
    · rw [Page, value]
      exact Nat.mul_mod_left _ _
    · omega
    · omega
  exact behind.windowed (by omega)

/-- The allocator hands out the next frame. -/
theorem Stage.allocBlock (stage : Stage kernelEnd count p) (first : Pmm.kernelFrames kernelEnd ≤ count)
    (room : count < windowFrames kernelEnd) :
    p.allocBlock.1 = framePage count ∧ Stage kernelEnd (count + 1) p.allocBlock.2 ∧
      Kept kernelEnd (fun _ => False) p p.allocBlock.2 := by
  have near := windowFrames_le_reach kernelEnd
  have far := reach_lt kernelEnd
  have searched : p.searched = 32768 := by
    rw [searched, stage.maxBlocks]
    rfl
  have used := stage.used
  have blocks : p.maxBlocks.toNat = 32768 := by
    rw [stage.maxBlocks]
    rfl
  have free : p.inUse count = false := by
    rw [stage.bits count (by omega)]
    exact decide_eq_false (Nat.lt_irrefl count)
  have allocated := allocBlock_allocated (by omega) (by omega : count < p.searched) free
  have least : p.allocBlock.1.toNat / 4096 ≤ count := by
    by_contra above
    have taken := allocated.lowest count (by omega)
    rw [free] at taken
    cases taken
  have most : count ≤ p.allocBlock.1.toNat / 4096 := by
    by_contra below
    have unset := allocated.free
    rw [stage.bits _ (by omega), decide_eq_true (by omega)] at unset
    cases unset
  have frame : p.allocBlock.1.toNat / 4096 = count := by omega
  have block : p.allocBlock.1 = framePage count := by
    have aligned := (windowed_framePage first room).aligned
    apply allocated.member.page.eq_of_frame aligned
    rw [frame, toNat_framePage (by omega)]
    omega
  refine ⟨block, ?_, allocated.steady.toSameStatics, ?_⟩
  · constructor
    · exact allocated.steady.bitmapAddr.trans stage.bitmapAddr
    · exact allocated.steady.maxBlocks.trans stage.maxBlocks
    · exact allocated.steady.paging.trans stage.paging
    · rw [allocated.used]
      bv_omega
    · intro other bound
      rw [allocated.inUse other (by omega), stage.bits other bound, frame, ← Bool.decide_or]
      exact decide_eq_decide.mpr (by omega)
    · intro address member
      rw [allocated.trace] at member
      rcases List.mem_cons.mp member with here | earlier
      · cases here
      · exact stage.faultless address earlier
  · intro page index behind _ small
    exact allocated.elsewhere page index (behind.outside stage.bitmapAddr (by omega)) small

/-- The entry of the window for page `i` of table `tableIdx`. -/
def windowEntry (tableIdx i : Nat) : Word := BitVec.ofNat 32 (tableIdx * 0x400000 + i * 4096) ||| pagePresent ||| pageWrite

/-- A turn of the loop that maps the window. -/
theorem Stage.identityTable {tableIdx : Nat} (stage : Stage kernelEnd count p) (first : Pmm.kernelFrames kernelEnd ≤ count)
    (room : count < windowFrames kernelEnd) (behind : Behind kernelEnd dir) (different : dir ≠ framePage count)
    (small : tableIdx < 1024) :
    (identityTable dir tableIdx p).1 = true ∧ Stage kernelEnd (count + 1) (identityTable dir tableIdx p).2 ∧
      Kept kernelEnd (fun page => page = framePage count ∨ page = dir) p (identityTable dir tableIdx p).2 ∧
      (∀ i : Word, i.toNat < 1024 → (identityTable dir tableIdx p).2.entry (framePage count) i = windowEntry tableIdx i.toNat) ∧
      ∀ i : Word, i.toNat < 1024 → (identityTable dir tableIdx p).2.entry dir i =
        if i.toNat = tableIdx then framePage count ||| pagePresent ||| pageWrite else p.entry dir i := by
  obtain ⟨block, taken, kept⟩ := stage.allocBlock first room
  have windowed := windowed_framePage first room
  have above : 0 < kernelEnd.toNat := by
    have near := windowFrames_le_reach kernelEnd
    rw [windowFrames, reach, Pmm.kernelFrames] at room
    omega
  have nonnull : framePage count ≠ 0 := windowed.ne_zero above
  simp only [Paging.identityTable, block, if_neg nonnull, physToVirt_eq]
  generalize p.allocBlock.2 = m at *
  obtain ⟨zeroed, _⟩ := offline_fill windowed.toBehind (fun _ => 0) (Nat.le_refl 1024) taken.bitmapAddr
  generalize (List.range 1024).foldl (fun p i => p.write (framePage count + 4 * BitVec.ofNat 32 i) 0) m = z at *
  have zeroedStage := taken.offline zeroed
  obtain ⟨filled, words⟩ := offline_fill windowed.toBehind (windowEntry tableIdx) (Nat.le_refl 1024) zeroedStage.bitmapAddr
  unfold windowEntry at filled words
  generalize (List.range 1024).foldl (fun p i => p.write (framePage count + 4 * BitVec.ofNat 32 i)
    (BitVec.ofNat 32 (tableIdx * 0x400000 + i * 4096) ||| pagePresent ||| pageWrite)) z = f at *
  have filledStage := zeroedStage.offline filled
  have number : (BitVec.ofNat 32 tableIdx).toNat = tableIdx := toNat_ofNat_index small
  have index : (BitVec.ofNat 32 tableIdx).toNat < 1024 := by omega
  have linked := offline_write behind filledStage.bitmapAddr index (framePage count ||| pagePresent ||| pageWrite)
  have whole : Offline kernelEnd (fun page => page = framePage count ∨ page = dir) m _ :=
    ((zeroed.trans filled).weaken fun _ here => .inl here).trans (linked.weaken fun _ here => .inr here)
  refine ⟨trivial, filledStage.offline linked, (kept.weaken fun _ none => none.elim).trans whole.toKept, ?_, ?_⟩
  · intro i iSmall
    rw [linked.entry _ i windowed.toBehind (Ne.symm different) iSmall, words i iSmall, if_pos iSmall, windowEntry]
  · intro i iSmall
    rw [entry_write behind.aligned behind.aligned index iSmall]
    by_cases here : i.toNat = tableIdx
    · have same : BitVec.ofNat 32 tableIdx = i := BitVec.eq_of_toNat_eq (by omega)
      rw [if_pos ⟨rfl, same⟩, if_pos here]
    · have other : ¬ (dir = dir ∧ BitVec.ofNat 32 tableIdx = i) := by
        rintro ⟨_, rfl⟩
        exact here number
      rw [if_neg other, if_neg here, filled.entry dir i behind different iSmall, zeroed.entry dir i behind different iSmall,
        kept.entry dir i behind id iSmall]

/-- What `vmm_init` leaves behind: the three frames after the kernel are the
directory and the tables of the window. -/
structure Booted (kernelEnd : Word) (p : Paging) : Prop where
  active : Active kernelEnd [] p
  used : p.usedBlocks.toNat = Pmm.kernelFrames kernelEnd + 3
  bits : ∀ frame < reach kernelEnd, p.inUse frame = decide (frame < Pmm.kernelFrames kernelEnd + 3)

theorem pageOf_windowEntry {tableIdx i : Nat} (low : tableIdx < 2) (small : i < 1024) :
    pageOf (windowEntry tableIdx i) = framePage (tableIdx * 1024 + i) ∧ windowEntry tableIdx i &&& pagePresent ≠ 0 := by
  have place : BitVec.ofNat 32 (tableIdx * 0x400000 + i * 4096) = framePage (tableIdx * 1024 + i) := by
    have value : tableIdx * 0x400000 + i * 4096 = (tableIdx * 1024 + i) * 4096 := by omega
    rw [framePage, value]
  have aligned : Page (framePage (tableIdx * 1024 + i)) := by
    rw [Page, toNat_framePage (by omega)]
    exact Nat.mul_mod_left _ _
  rw [windowEntry, place, BitVec.or_assoc]
  exact ⟨pageOf_or aligned (by decide), present_or (by decide)⟩

theorem framePage_ne {first second : Nat} (firstSmall : first < 32768) (secondSmall : second < 32768) (different : first ≠ second) :
    framePage first ≠ framePage second := by
  intro same
  have value := congrArg BitVec.toNat same
  rw [toNat_framePage firstSmall, toNat_framePage secondSmall] at value
  omega

/-- The directory and the two tables before paging is switched on. -/
structure Built (kernelEnd : Word) (p : Paging) : Prop where
  room : Pmm.kernelFrames kernelEnd + 3 ≤ windowFrames kernelEnd
  stage : Stage kernelEnd (Pmm.kernelFrames kernelEnd + 3) p
  kernel : p.kernelDirectory = framePage (Pmm.kernelFrames kernelEnd)
  directory : ∀ i : Word, i.toNat < 1024 → p.entry (framePage (Pmm.kernelFrames kernelEnd)) i =
    if i.toNat < 2 then framePage (Pmm.kernelFrames kernelEnd + 1 + i.toNat) ||| pagePresent ||| pageWrite else 0
  tables : ∀ t < 2, ∀ i : Word, i.toNat < 1024 →
    p.entry (framePage (Pmm.kernelFrames kernelEnd + 1 + t)) i = windowEntry t i.toNat

theorem Built.hasTable_iff (built : Built kernelEnd p) {index : Word} :
    p.HasTable (framePage (Pmm.kernelFrames kernelEnd)) index table ↔
      index.toNat < 2 ∧ table = framePage (Pmm.kernelFrames kernelEnd + 1 + index.toNat) := by
  have room := built.room
  constructor
  · intro has
    have word := built.directory index has.small
    by_cases low : index.toNat < 2
    · rw [if_pos low, BitVec.or_assoc] at word
      have windowed := @windowed_framePage kernelEnd (Pmm.kernelFrames kernelEnd + 1 + index.toNat) (by omega) (by omega)
      refine ⟨low, ?_⟩
      rw [← has.points, word]
      exact pageOf_or windowed.aligned (by decide)
    · rw [if_neg low] at word
      exact absurd (by rw [word]; decide) has.present
  · rintro ⟨low, rfl⟩
    have word := built.directory index (by omega)
    rw [if_pos low, BitVec.or_assoc] at word
    have windowed := @windowed_framePage kernelEnd (Pmm.kernelFrames kernelEnd + 1 + index.toNat) (by omega) (by omega)
    refine ⟨by omega, ?_, ?_⟩
    · rw [word]
      exact present_or (by decide)
    · rw [word]
      exact pageOf_or windowed.aligned (by decide)

/-- Switching paging on. -/
theorem Built.booted (built : Built kernelEnd p) : Booted kernelEnd { p with cr3 := p.kernelDirectory, paging := true } := by
  have room := built.room
  have near := windowFrames_le_reach kernelEnd
  have far := reach_lt kernelEnd
  have kernel := built.kernel
  have used {frame : Nat} (small : frame < Pmm.kernelFrames kernelEnd + 3) : p.inUse frame = true := by
    rw [built.stage.bits frame (by omega)]
    exact decide_eq_true small
  have frameUsed {frame : Nat} (small : frame < Pmm.kernelFrames kernelEnd + 3) :
      p.inUse ((framePage frame).toNat / 4096) = true := by
    rw [toNat_framePage (by omega), Nat.mul_div_cancel _ (by decide)]
    exact used small
  have hasTable {space index table : Word} (known : space = p.kernelDirectory ∨ space ∈ [])
      (has : ({ p with cr3 := p.kernelDirectory, paging := true } : Paging).HasTable space index table) :
      index.toNat < 2 ∧ table = framePage (Pmm.kernelFrames kernelEnd + 1 + index.toNat) := by
    rcases known with rfl | member
    · rw [kernel] at has
      exact built.hasTable_iff.mp ⟨has.small, has.present, has.points⟩
    · cases member
  have spaces {space : Word} (known : space = p.kernelDirectory ∨ space ∈ []) : space = framePage (Pmm.kernelFrames kernelEnd) := by
    rcases known with rfl | member
    · exact kernel
    · cases member
  refine ⟨⟨?_, rfl⟩, built.stage.used, built.stage.bits⟩
  constructor
  case bitmapAddr => exact built.stage.bitmapAddr
  case maxBlocks => exact built.stage.maxBlocks
  case paging => rfl
  case room => exact room
  case kernel => exact List.not_mem_nil
  case windowed =>
    rintro page ⟨space, known, rfl | ⟨index, has⟩⟩
    · rw [spaces known]
      exact ⟨windowed_framePage (Nat.le_refl _) (by omega), frameUsed (by omega)⟩
    · obtain ⟨low, rfl⟩ := hasTable known has
      exact ⟨windowed_framePage (by omega) (by omega), frameUsed (by omega)⟩
  case apart =>
    intro space other index known otherKnown has
    obtain ⟨low, same⟩ := hasTable known has
    rw [spaces otherKnown] at same
    exact framePage_ne (by omega) (by omega) (by omega) same
  case owners =>
    intro space index other second table known otherKnown has otherHas
    have low := (hasTable known has).1
    have otherLow := (hasTable otherKnown otherHas).1
    have first : space = p.kernelDirectory := (spaces known).trans kernel.symm
    have last : other = p.kernelDirectory := (spaces otherKnown).trans kernel.symm
    subst first last
    exact (owner_window _ low).trans (owner_window _ otherLow).symm
  case identity =>
    intro address inside
    have limit : address.toNat < 0x800000 := inside
    have high := toNat_pageDirectoryIndex address
    have low := toNat_pageTableIndex address
    have small := pageTableIndex_lt address
    have idx : (pageDirectoryIndex address).toNat < 2 := by omega
    have has := built.hasTable_iff.mpr ⟨idx, rfl⟩
    rw [← kernel] at has
    obtain ⟨points, present⟩ := pageOf_windowEntry idx small
    have word := built.tables _ idx (pageTableIndex address) small
    refine ⟨_, ⟨has.small, has.present, has.points⟩, ?_, ?_⟩
    · exact word.symm ▸ present
    · refine (congrArg pageOf word).trans (points.trans ?_)
      apply BitVec.eq_of_toNat_eq
      rw [toNat_framePage (by omega), toNat_pageOf]
      omega
  case reserved => exact fun frame bound => used (by omega)
  case faultless => exact built.stage.faultless

theorem Stage.setKernelDirectory (stage : Stage kernelEnd count p) (directory : Word) :
    Stage kernelEnd count (p.setKernelDirectory directory) :=
  ⟨stage.bitmapAddr, stage.maxBlocks, stage.paging, stage.used, stage.bits, stage.faultless⟩

/-- The way through `vmm_init` on which no allocation fails. -/
theorem init_of_tables {zeroed first second : Paging} (nonnull : p.allocBlock.1 ≠ 0)
    (clear : zeroed = (List.range 1024).foldl (fun p i => p.write (dir + 4 * BitVec.ofNat 32 i) 0)
      (p.allocBlock.2.setKernelDirectory dir))
    (directory : p.allocBlock.1 = dir) (one : identityTable dir 0 zeroed = (true, first))
    (two : identityTable dir 1 first = (true, second)) : p.init = { second with cr3 := dir, paging := true } := by
  subst directory
  simp only [init, if_neg nonnull, physToVirt_eq, ← clear, one, two, ↓reduceIte]

theorem Stage.init (stage : Stage kernelEnd (Pmm.kernelFrames kernelEnd) p)
    (room : Pmm.kernelFrames kernelEnd + 3 ≤ windowFrames kernelEnd) : Booted kernelEnd p.init := by
  have near := windowFrames_le_reach kernelEnd
  have far := reach_lt kernelEnd
  obtain ⟨block, taken, _⟩ := stage.allocBlock (Nat.le_refl _) (by omega)
  have windowed : Windowed kernelEnd (framePage (Pmm.kernelFrames kernelEnd)) := windowed_framePage (Nat.le_refl _) (by omega)
  have above : 0 < kernelEnd.toNat := by
    rw [windowFrames, reach, Pmm.kernelFrames] at room
    omega
  have nonnull := windowed.ne_zero above
  have set := taken.setKernelDirectory (framePage (Pmm.kernelFrames kernelEnd))
  obtain ⟨zeroed, zero⟩ := offline_fill windowed.toBehind (fun _ => 0) (Nat.le_refl 1024) set.bitmapAddr
  obtain ⟨z, shape⟩ : ∃ z, z = (List.range 1024).foldl (fun p i =>
    p.write (framePage (Pmm.kernelFrames kernelEnd) + 4 * BitVec.ofNat 32 i) 0)
      (p.allocBlock.2.setKernelDirectory (framePage (Pmm.kernelFrames kernelEnd))) := ⟨_, rfl⟩
  rw [← shape] at zeroed zero
  obtain ⟨firstDone, first, firstKept, firstTable, firstDir⟩ := (set.offline zeroed).identityTable (by omega) (by omega)
    windowed.toBehind (framePage_ne (by omega) (by omega) (by omega)) (by decide : 0 < 1024)
  obtain ⟨f, one⟩ : ∃ f, Paging.identityTable (framePage (Pmm.kernelFrames kernelEnd)) 0 z = (true, f) :=
    ⟨_, Prod.ext firstDone rfl⟩
  rw [one] at first firstKept firstTable firstDir
  obtain ⟨secondDone, second, secondKept, secondTable, secondDir⟩ := first.identityTable (by omega) (by omega)
    windowed.toBehind (framePage_ne (by omega) (by omega) (by omega)) (by decide : 1 < 1024)
  obtain ⟨e, two⟩ : ∃ e, Paging.identityTable (framePage (Pmm.kernelFrames kernelEnd)) 1 f = (true, e) :=
    ⟨_, Prod.ext secondDone rfl⟩
  rw [two] at second secondKept secondTable secondDir
  rw [init_of_tables (by rwa [block]) shape block one two]
  have statics := (zeroed.statics.trans firstKept.statics).trans secondKept.statics
  have built : Built kernelEnd e := by
    refine ⟨room, second, statics.kernelDirectory, ?_, ?_⟩
    · intro i small
      rw [secondDir i small, firstDir i small, zero i small, if_pos small]
      by_cases one : i.toNat = 1
      · rw [if_pos one, if_pos (by omega), one]
      · rw [if_neg one]
        by_cases none : i.toNat = 0
        · rw [if_pos none, if_pos (by omega), none]
        · rw [if_neg none, if_neg (by omega)]
    · intro t low i small
      rcases (by omega : t = 0 ∨ t = 1) with rfl | rfl
      · have table := (@windowed_framePage kernelEnd (Pmm.kernelFrames kernelEnd + 1) (by omega) (by omega)).toBehind
        rw [secondKept.entry _ i table _ small]
        · exact firstTable i small
        · rintro (same | same)
          · exact framePage_ne (by omega) (by omega) (by omega) same
          · exact framePage_ne (by omega) (by omega) (by omega) same
      · exact secondTable i small
  rw [← built.kernel]
  exact built.booted

/-- The kernel after `vmm_init`. -/
theorem kernelMain_booted (memory : Memory) (above : 0x100000 < kernelEnd.toNat)
    (room : Pmm.kernelFrames kernelEnd + 3 ≤ windowFrames kernelEnd) : Booted kernelEnd (kernelMain memory kernelEnd).init := by
  have frames : Pmm.kernelFrames kernelEnd = (kernelEnd.toNat + 4095) / 4096 := rfl
  have size : windowFrames kernelEnd ≤ 2048 := Nat.min_le_left _ _
  exact (kernelMain_stage memory above (by omega)).init room

end MexOS.Mm.Paging
