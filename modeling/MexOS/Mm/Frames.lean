import MexOS.Machine.Ledger
import MexOS.Mm.AddressSpace
import MexOS.Mm.PmmSearch

/-! What one access does to the words of the pages and to the bits of the
allocator. The pages that are written to lie clear of the bitmap. -/

namespace MexOS.Mm.Paging

open MexOS.Machine

/-- The bit of a frame. -/
def inUse (p : Paging) (frame : Nat) : Bool := p.pmm.bitmap.test frame

/-- The allocator searches the frames below this one. -/
def searched (p : Paging) : Nat := 32 * (p.maxBlocks.toNat / 32)

/-- Byte `byte` of the bitmap's storage, which has one bit for each block. -/
def storage (p : Paging) (byte : Nat) : Word := p.bitmapAddr + BitVec.ofNat 32 byte

/-- The page shares no byte with the storage of the bitmap. -/
def Clear (p : Paging) (page : Word) : Prop :=
  ∀ byte < p.maxBlocks.toNat / 8, 4096 ≤ (p.storage byte - page).toNat

/-- The word of a directory or table. -/
def entry (p : Paging) (page index : Word) : Word := pageWord p.mem page index

/-- The call of the frame allocator that an event shows. -/
def callOf : Event → Option (Ledger Word)
  | .allocated block => some (.taken block)
  | .freed block => some (.returned block)
  | .touched .. => none

/-- The calls of the frame allocator so far, newest first. -/
def calls (p : Paging) : List (Ledger Word) := p.trace.filterMap callOf

/-- The statics other than the counter and the paging registers are the same. -/
structure SameStatics (p q : Paging) : Prop where
  kernelDirectory : q.kernelDirectory = p.kernelDirectory
  kernelDirectoryPhys : q.kernelDirectoryPhys = p.kernelDirectoryPhys
  currentDirectory : q.currentDirectory = p.currentDirectory
  bitmapAddr : q.bitmapAddr = p.bitmapAddr
  bitmapSize : q.bitmapSize = p.bitmapSize
  memorySize : q.memorySize = p.memorySize
  maxBlocks : q.maxBlocks = p.maxBlocks
  cr3 : q.cr3 = p.cr3
  paging : q.paging = p.paging

/-- So are the last bytes of the bitmap, which belong to no word that is
searched. -/
structure Steady (p q : Paging) : Prop extends SameStatics p q where
  rest : ∀ byte, 4 * (p.maxBlocks.toNat / 32) ≤ byte → byte < p.maxBlocks.toNat / 8 →
    q.mem (p.storage byte) = p.mem (p.storage byte)

variable {p q r : Paging} {page other index block : Word} {frame : Nat}

@[simp] theorem physToVirt_eq (p : Paging) (phys : Word) : p.toVmm.physToVirt phys = phys := by
  unfold Vmm.physToVirt
  rcases p.direct with none | below | same
  · rw [if_pos none]
  · rw [if_pos below, ite_self]
  · simp only [same, BitVec.sub_self]
    split
    · rfl
    · split
      · rfl
      · exact BitVec.add_zero phys

theorem SameStatics.refl (p : Paging) : SameStatics p p := by
  constructor
  all_goals rfl

theorem SameStatics.trans (first : SameStatics p q) (second : SameStatics q r) : SameStatics p r where
  kernelDirectory := second.kernelDirectory.trans first.kernelDirectory
  kernelDirectoryPhys := second.kernelDirectoryPhys.trans first.kernelDirectoryPhys
  currentDirectory := second.currentDirectory.trans first.currentDirectory
  bitmapAddr := second.bitmapAddr.trans first.bitmapAddr
  bitmapSize := second.bitmapSize.trans first.bitmapSize
  memorySize := second.memorySize.trans first.memorySize
  maxBlocks := second.maxBlocks.trans first.maxBlocks
  cr3 := second.cr3.trans first.cr3
  paging := second.paging.trans first.paging

theorem Steady.refl (p : Paging) : Steady p p := ⟨.refl p, fun _ _ _ => rfl⟩

theorem Steady.trans (first : Steady p q) (second : Steady q r) : Steady p r := by
  refine ⟨first.toSameStatics.trans second.toSameStatics, ?_⟩
  intro byte behind below
  have place : q.storage byte = p.storage byte := by rw [storage, storage, first.bitmapAddr]
  have late := second.rest byte
  rw [first.maxBlocks, place] at late
  exact (late behind below).trans (first.rest byte behind below)

/-- A change of the memory, the counter and the trace. -/
theorem sameStatics_of_update (p : Paging) (mem : Memory) (used : Word) (trace : List Event) :
    SameStatics p { p with mem, usedBlocks := used, trace } := by
  constructor
  all_goals rfl

theorem Steady.searched (steady : Steady p q) : q.searched = p.searched := by
  rw [Paging.searched, Paging.searched, steady.maxBlocks]

theorem Steady.clear (steady : Steady p q) : q.Clear page ↔ p.Clear page := by
  unfold Clear storage
  rw [steady.bitmapAddr, steady.maxBlocks]

/-- The frame allocator sees no difference. -/
structure Unseen (p q : Paging) : Prop where
  steady : Steady p q
  inUse : ∀ frame < p.searched, q.inUse frame = p.inUse frame
  used : q.usedBlocks = p.usedBlocks
  calls : q.calls = p.calls

theorem Unseen.refl (p : Paging) : Unseen p p := ⟨.refl p, fun _ _ => rfl, rfl, rfl⟩

theorem Unseen.trans (first : Unseen p q) (second : Unseen q r) : Unseen p r where
  steady := first.steady.trans second.steady
  inUse := by
    intro frame bound
    rw [second.inUse frame (by rwa [first.steady.searched]), first.inUse frame bound]
  used := second.used.trans first.used
  calls := second.calls.trans first.calls

/-- The words that are searched lie in the storage. -/
theorem Clear.outside (clear : p.Clear page) {word : Nat} (bound : word < p.maxBlocks.toNat / 32) :
    Outside page (p.bitmapWord word) := by
  have small := p.blocks
  constructor
  · exact clear (4 * word) (by omega)
  · by_contra near
    -- a word that reaches into the page from below has one of its bytes at the page's first
    have hit := clear (4 * word + (page - p.bitmapWord word).toNat) (by omega)
    have here : p.storage (4 * word + (page - p.bitmapWord word).toNat) = page := by
      rw [storage, BitVec.ofNat_add, BitVec.ofNat_toNat, BitVec.setWidth_eq, bitmapWord]
      bv_omega
    rw [here, BitVec.sub_self] at hit
    simp at hit

theorem apart_words (base : Word) {first second : Nat} (firstSmall : first < 2 ^ 15) (secondSmall : second < 2 ^ 15)
    (different : first ≠ second) : Apart (base + BitVec.ofNat 32 (4 * first)) (base + BitVec.ofNat 32 (4 * second)) := by
  constructor <;> bv_omega

/-- The bytes behind the searched words belong to none of them. -/
theorem rest_outside (p : Paging) {word byte : Nat} (bound : word < p.maxBlocks.toNat / 32)
    (behind : 4 * (p.maxBlocks.toNat / 32) ≤ byte) (below : byte < p.maxBlocks.toNat / 8) :
    4 ≤ (p.storage byte - p.bitmapWord word).toNat := by
  have small := p.blocks
  unfold storage bitmapWord
  bv_omega

theorem word_lt (p : Paging) (bound : frame < p.searched) : frame / 32 < p.maxBlocks.toNat / 32 := by
  unfold searched at bound
  omega

theorem frame_lt (p : Paging) (bound : frame < p.searched) : frame < 2 ^ 20 := by
  have small := p.blocks
  unfold searched at bound
  omega

section Access

/-! Reading and writing a page. -/

@[simp] theorem entry_touch (p : Paging) (address page index : Word) : (p.touch address).entry page index = p.entry page index := rfl

@[simp] theorem inUse_touch (p : Paging) (address : Word) (frame : Nat) : (p.touch address).inUse frame = p.inUse frame := rfl

@[simp] theorem calls_touch (p : Paging) (address : Word) : (p.touch address).calls = p.calls := rfl

theorem steady_touch (p : Paging) (address : Word) : Steady p (p.touch address) :=
  ⟨p.sameStatics_of_update _ _ _, fun _ _ _ => rfl⟩

theorem unseen_touch (p : Paging) (address : Word) : Unseen p (p.touch address) :=
  ⟨p.steady_touch address, fun _ _ => rfl, rfl, rfl⟩

theorem read_entry (p : Paging) (page index : Word) : (p.read (page + 4 * index)).1 = p.entry page index := rfl

theorem entry_write {first second value : Word} (aligned : Page page) (otherAligned : Page other)
    (firstSmall : first.toNat < 1024) (secondSmall : second.toNat < 1024) :
    (p.write (page + 4 * first) value).entry other second =
      if page = other ∧ first = second then value else p.entry other second :=
  pageWord_storeWord aligned otherAligned firstSmall secondSmall

theorem inUse_write_of_outside (outside : Outside page (p.bitmapWord (frame / 32))) (small : index.toNat < 1024)
    (value : Word) : (p.write (page + 4 * index) value).inUse frame = p.inUse frame := by
  have same : loadWord (storeWord p.mem (page + 4 * index) value) (p.bitmapWord (frame / 32)) =
      loadWord p.mem (p.bitmapWord (frame / 32)) :=
    outside.loadWord_storeWord small value
  exact congrArg (fun word => word.getLsbD (frame % 32)) same

theorem inUse_write (clear : p.Clear page) (small : index.toNat < 1024) (value : Word) (bound : frame < p.searched) :
    (p.write (page + 4 * index) value).inUse frame = p.inUse frame :=
  inUse_write_of_outside (clear.outside (p.word_lt bound)) small value

theorem steady_write (clear : p.Clear page) (small : index.toNat < 1024) (value : Word) :
    Steady p (p.write (page + 4 * index) value) := by
  refine ⟨p.sameStatics_of_update _ _ _, ?_⟩
  intro byte _ below
  have far := clear byte below
  apply storeWord_frame
  bv_omega

theorem unseen_write (clear : p.Clear page) (small : index.toNat < 1024) (value : Word) :
    Unseen p (p.write (page + 4 * index) value) :=
  ⟨steady_write clear small value, fun _ bound => inUse_write clear small value bound, rfl, rfl⟩

theorem entry_clearPage (aligned : Page page) (otherAligned : Page other) (small : index.toNat < 1024) :
    (p.clearPage page).entry other index = if page = other then 0 else p.entry other index := by
  by_cases same : page = other
  · subst same
    rw [if_pos rfl]
    exact pageWord_memset_zero small
  · rw [if_neg same]
    exact (outside_of_ne aligned otherAligned same small).loadWord_memset 0

theorem inUse_clearPage_of_outside (outside : Outside page (p.bitmapWord (frame / 32))) :
    (p.clearPage page).inUse frame = p.inUse frame := by
  have same : loadWord (memset p.mem page 0 4096) (p.bitmapWord (frame / 32)) =
      loadWord p.mem (p.bitmapWord (frame / 32)) :=
    outside.loadWord_memset 0
  exact congrArg (fun word => word.getLsbD (frame % 32)) same

theorem inUse_clearPage (clear : p.Clear page) (bound : frame < p.searched) :
    (p.clearPage page).inUse frame = p.inUse frame :=
  inUse_clearPage_of_outside (clear.outside (p.word_lt bound))

theorem steady_clearPage (clear : p.Clear page) : Steady p (p.clearPage page) := by
  refine ⟨p.sameStatics_of_update _ _ _, ?_⟩
  intro byte _ below
  exact if_neg (Nat.not_lt.mpr (clear byte below))

theorem entry_copyPage {source : Word} (aligned : Page page) (otherAligned : Page other) (different : page ≠ other)
    (small : index.toNat < 1024) : (p.copyPage page source).entry other index = p.entry other index :=
  (outside_of_ne aligned otherAligned different small).loadWord_memcpy source

theorem inUse_copyPage {source : Word} (outside : Outside page (p.bitmapWord (frame / 32))) :
    (p.copyPage page source).inUse frame = p.inUse frame := by
  have same : loadWord (memcpy p.mem page source 4096) (p.bitmapWord (frame / 32)) =
      loadWord p.mem (p.bitmapWord (frame / 32)) :=
    outside.loadWord_memcpy source
  exact congrArg (fun word => word.getLsbD (frame % 32)) same

theorem unseen_clearPage (clear : p.Clear page) : Unseen p (p.clearPage page) :=
  ⟨steady_clearPage clear, fun _ bound => inUse_clearPage clear bound, rfl, rfl⟩

end Access

section Allocator

/-! Taking a block and giving it back. -/

private theorem width : 0 < 32 := by decide

theorem bitmap_storeWord (p : Paging) (value : Word) {first second : Nat} (firstSmall : first < 2 ^ 15)
    (secondSmall : second < 2 ^ 15) :
    loadWord (storeWord p.mem (p.bitmapWord first) value) (p.bitmapWord second) =
      Function.update p.pmm.bitmap first value second := by
  by_cases same : second = first
  · subst same
    rw [Function.update_self, loadWord_storeWord_self]
  · rw [Function.update_of_ne same]
    exact loadWord_storeWord_apart (apart_words p.bitmapAddr secondSmall firstSmall same)

theorem inUse_bitmapSet {bit : Word} (marked : bit.toNat < p.searched) (bound : frame < p.searched) :
    (p.bitmapSet bit).inUse frame = (decide (bit.toNat = frame) || p.inUse frame) := by
  have small := p.frame_lt marked
  have frameSmall := p.frame_lt bound
  have word := p.bitmap_storeWord (p.pmm.bitmap (bit.toNat / 32) ||| 1#32 <<< (bit.toNat % 32))
    (by omega : bit.toNat / 32 < 2 ^ 15) (by omega : frame / 32 < 2 ^ 15)
  exact (congrArg (fun word => word.getLsbD (frame % 32)) word).trans (p.pmm.bitmap.test_set width bit.toNat frame)

theorem inUse_bitmapUnset {bit : Word} (marked : bit.toNat < p.searched) (bound : frame < p.searched) :
    (p.bitmapUnset bit).inUse frame = (!decide (bit.toNat = frame) && p.inUse frame) := by
  have small := p.frame_lt marked
  have frameSmall := p.frame_lt bound
  have word := p.bitmap_storeWord (p.pmm.bitmap (bit.toNat / 32) &&& ~~~(1#32 <<< (bit.toNat % 32)))
    (by omega : bit.toNat / 32 < 2 ^ 15) (by omega : frame / 32 < 2 ^ 15)
  exact (congrArg (fun word => word.getLsbD (frame % 32)) word).trans (p.pmm.bitmap.test_clear width bit.toNat frame)

theorem steady_storeBitmap {word : Nat} (bound : word < p.maxBlocks.toNat / 32) (value used : Word) (trace : List Event) :
    Steady p { p with mem := storeWord p.mem (p.bitmapWord word) value, usedBlocks := used, trace } := by
  refine ⟨p.sameStatics_of_update _ _ _, ?_⟩
  intro byte behind below
  exact storeWord_frame (p.rest_outside bound behind below)

/-- The block is one that the allocator can have handed out. -/
structure Block (p : Paging) (block : Word) : Prop where
  page : Page block
  bound : block.toNat / 4096 < p.searched

theorem Steady.block_iff (steady : Steady p q) : q.Block block ↔ p.Block block := by
  constructor
  · intro member
    exact ⟨member.page, steady.searched ▸ member.bound⟩
  · intro member
    exact ⟨member.page, steady.searched.symm ▸ member.bound⟩

/-- What a call of `pmm_free_block` on such a block does. -/
structure Freed (p : Paging) (block : Word) (q : Paging) : Prop where
  steady : Steady p q
  member : p.Block block
  inUse : ∀ frame < p.searched, q.inUse frame = (!decide (block.toNat / 4096 = frame) && p.inUse frame)
  elsewhere : ∀ page index, Outside page (p.bitmapWord (block.toNat / 4096 / 32)) → index.toNat < 1024 →
    q.entry page index = p.entry page index
  used : q.usedBlocks = p.usedBlocks - 1
  trace : q.trace = .freed block :: p.trace

theorem freeBlock_freed (member : p.Block block) : Freed p block (p.freeBlock block) := by
  have limit := block.isLt
  have value : (BitVec.ofNat 32 (block.toNat / pmmBlockSize)).toNat = block.toNat / 4096 := by
    rw [BitVec.toNat_ofNat, pmmBlockSize]
    omega
  have bound := member.bound
  rw [← value] at bound
  constructor
  · exact steady_storeBitmap (p.word_lt bound) _ _ _
  · exact member
  · intro frame small
    have bits := p.inUse_bitmapUnset bound small
    rw [value] at bits
    exact bits
  · intro page index outside small
    rw [← value] at outside
    exact outside.pageWord_storeWord small _
  · rfl
  · rfl

theorem Freed.entry (freed : Freed p block q) (page index : Word) (clear : p.Clear page) (small : index.toNat < 1024) :
    q.entry page index = p.entry page index :=
  freed.elsewhere page index (clear.outside (p.word_lt freed.member.bound)) small

/-- What a call of `pmm_alloc_block` that returns a block does. -/
structure Allocated (p : Paging) (block : Word) (q : Paging) : Prop where
  steady : Steady p q
  member : p.Block block
  free : p.inUse (block.toNat / 4096) = false
  lowest : ∀ frame < block.toNat / 4096, p.inUse frame = true
  inUse : ∀ frame < p.searched, q.inUse frame = (decide (block.toNat / 4096 = frame) || p.inUse frame)
  elsewhere : ∀ page index, Outside page (p.bitmapWord (block.toNat / 4096 / 32)) → index.toNat < 1024 →
    q.entry page index = p.entry page index
  used : q.usedBlocks = p.usedBlocks + 1
  trace : q.trace = .allocated block :: p.trace

theorem allocBlock_cases (p : Paging) :
    p.allocBlock = (0, p) ∨ Allocated p p.allocBlock.1 p.allocBlock.2 := by
  by_cases empty : p.pmm.getFreeBlockCount = 0
  · left
    rw [allocBlock, if_pos empty]
  · cases found : p.pmm.bitmapFirstFree with
    | none =>
      left
      simp only [allocBlock, if_neg empty, found]
    | some frame =>
      obtain ⟨bound, unset, lower⟩ := Pmm.bitmapFirstFree_eq_some.mp found
      have searched : frame < p.searched := bound
      have small := p.frame_lt searched
      have bit : (BitVec.ofNat 32 frame).toNat = frame := by
        rw [BitVec.toNat_ofNat]
        omega
      have address : (BitVec.ofNat 32 (frame * pmmBlockSize)).toNat = frame * 4096 := by
        rw [BitVec.toNat_ofNat, pmmBlockSize]
        omega
      have quotient : (BitVec.ofNat 32 (frame * pmmBlockSize)).toNat / 4096 = frame := by omega
      right
      simp only [allocBlock, if_neg empty, found]
      refine ⟨?_, ⟨?_, ?_⟩, ?_, ?_, ?_, ?_, rfl, rfl⟩
      · exact steady_storeBitmap (by rw [bit]; exact p.word_lt searched) _ _ _
      · rw [Page, address]
        exact Nat.mul_mod_left _ _
      · rwa [quotient]
      · rw [quotient]
        exact unset
      · rw [quotient]
        exact lower
      · intro other otherBound
        have bits := p.inUse_bitmapSet (by rw [bit]; exact searched) otherBound
        rw [bit] at bits
        rw [quotient]
        exact bits
      · intro page index outside indexSmall
        rw [quotient, ← bit] at outside
        exact outside.pageWord_storeWord indexSmall _

/-- The call succeeds when the counter leaves a block and a searched frame is
free. -/
theorem allocBlock_allocated (counted : p.usedBlocks.toNat < p.maxBlocks.toNat) (bound : frame < p.searched)
    (free : p.inUse frame = false) : Allocated p p.allocBlock.1 p.allocBlock.2 := by
  have count : p.pmm.getFreeBlockCount ≠ 0 := by
    have difference : p.pmm.getFreeBlockCount = p.maxBlocks - p.usedBlocks := rfl
    rw [difference]
    bv_omega
  cases found : p.pmm.bitmapFirstFree with
  | none =>
    have used := Pmm.bitmapFirstFree_eq_none.mp found frame bound
    rw [inUse] at free
    rw [free] at used
    cases used
  | some first =>
    rcases allocBlock_cases p with nothing | allocated
    · have shape := congrArg (fun result => result.2.trace) nothing
      simp only [allocBlock, if_neg count, found] at shape
      exact absurd shape (List.cons_ne_self _ _)
    · exact allocated

/-- The clear pages keep their words. -/
theorem Allocated.entry (allocated : Allocated p block q) (page index : Word) (clear : p.Clear page)
    (small : index.toNat < 1024) : q.entry page index = p.entry page index :=
  allocated.elsewhere page index (clear.outside (p.word_lt allocated.member.bound)) small

/-- The block is not NULL when frame zero is in use. -/
theorem Allocated.ne_zero (allocated : Allocated p block q) (zero : p.inUse 0 = true) : block ≠ 0 := by
  rintro rfl
  have free := allocated.free
  rw [show (0 : Word).toNat / 4096 = 0 from rfl, zero] at free
  cases free

theorem Allocated.calls (allocated : Allocated p block q) : q.calls = .taken block :: p.calls := by
  rw [Paging.calls, allocated.trace]
  rfl

theorem Freed.calls (freed : Freed p block q) : q.calls = .returned block :: p.calls := by
  rw [Paging.calls, freed.trace]
  rfl

/-- Looking at a page does not change what the allocator returns. -/
theorem allocBlock_touch_fst (p : Paging) (address : Word) : (p.touch address).allocBlock.1 = p.allocBlock.1 := by
  have view : (p.touch address).pmm = p.pmm := rfl
  unfold allocBlock
  rw [view]
  split
  · rfl
  · cases p.pmm.bitmapFirstFree with
    | none => rfl
    | some frame => rfl

theorem Allocated.ne_of_inUse (allocated : Allocated p block q)
    (used : p.inUse (page.toNat / 4096) = true) : page ≠ block := by
  rintro rfl
  have free := allocated.free
  rw [used] at free
  cases free

end Allocator

end MexOS.Mm.Paging
