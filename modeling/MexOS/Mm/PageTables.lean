import MexOS.Mm.Frames

/-! The two-level lookup of `get_page_table` and what it reads. -/

namespace MexOS.Mm

open MexOS.Machine

theorem toNat_pageDirectoryIndex (address : Word) : (pageDirectoryIndex address).toNat = address.toNat / 2 ^ 22 := by
  have limit := address.isLt
  have mask : (0x3FF : Word).toNat = 2 ^ 10 - 1 := rfl
  rw [pageDirectoryIndex, BitVec.toNat_and, mask, Nat.and_two_pow_sub_one_eq_mod, BitVec.toNat_ushiftRight,
    Nat.shiftRight_eq_div_pow]
  omega

theorem toNat_pageTableIndex (address : Word) : (pageTableIndex address).toNat = address.toNat / 2 ^ 12 % 1024 := by
  have mask : (0x3FF : Word).toNat = 2 ^ 10 - 1 := rfl
  rw [pageTableIndex, BitVec.toNat_and, mask, Nat.and_two_pow_sub_one_eq_mod, BitVec.toNat_ushiftRight,
    Nat.shiftRight_eq_div_pow]

theorem pageDirectoryIndex_lt (address : Word) : (pageDirectoryIndex address).toNat < 1024 := by
  have limit := address.isLt
  rw [toNat_pageDirectoryIndex]
  omega

theorem pageTableIndex_lt (address : Word) : (pageTableIndex address).toNat < 1024 := by
  rw [toNat_pageTableIndex]
  exact Nat.mod_lt _ (by decide)

@[simp] theorem pageDirectoryIndex_pageOf (address : Word) :
    pageDirectoryIndex (pageOf address) = pageDirectoryIndex address := by
  apply BitVec.eq_of_toNat_eq
  rw [toNat_pageDirectoryIndex, toNat_pageDirectoryIndex, toNat_pageOf]
  omega

@[simp] theorem pageTableIndex_pageOf (address : Word) : pageTableIndex (pageOf address) = pageTableIndex address := by
  apply BitVec.eq_of_toNat_eq
  rw [toNat_pageTableIndex, toNat_pageTableIndex, toNat_pageOf]
  omega

/-- The two indices tell the page. -/
theorem pageOf_eq_iff {first second : Word} : pageOf first = pageOf second ↔
    pageDirectoryIndex first = pageDirectoryIndex second ∧ pageTableIndex first = pageTableIndex second := by
  constructor
  · intro same
    rw [← pageDirectoryIndex_pageOf first, ← pageTableIndex_pageOf first, same]
    simp
  · intro ⟨directory, table⟩
    have high := congrArg BitVec.toNat directory
    have low := congrArg BitVec.toNat table
    rw [toNat_pageDirectoryIndex, toNat_pageDirectoryIndex] at high
    rw [toNat_pageTableIndex, toNat_pageTableIndex] at low
    apply BitVec.eq_of_toNat_eq
    rw [toNat_pageOf, toNat_pageOf]
    omega

theorem pageDirectoryIndex_user {address : Word} (user : address < kernelVirtualBase) :
    (pageDirectoryIndex address).toNat < 768 := by
  have below : address.toNat < 0xC0000000 := user
  rw [toNat_pageDirectoryIndex]
  omega

theorem pageOf_user {address : Word} (user : address < kernelVirtualBase) : pageOf address < kernelVirtualBase := by
  have below : address.toNat < 0xC0000000 := user
  have rounded := toNat_pageOf address
  have base : kernelVirtualBase.toNat = 0xC0000000 := rfl
  rw [BitVec.lt_def]
  omega

/-- The flags of a new directory entry. -/
def tableFlags (virtAddr : Word) : Word :=
  if virtAddr < kernelVirtualBase then pagePresent ||| pageWrite ||| pageUser else pagePresent ||| pageWrite

theorem tableFlags_lt (virtAddr : Word) : (tableFlags virtAddr).toNat < 4096 := by
  unfold tableFlags
  split <;> decide

/-- A flag among the low bits of a word is a flag of the word. -/
theorem masked_or {page flags mask : Word} (set : flags &&& mask ≠ 0) : (page ||| flags) &&& mask ≠ 0 := by
  intro zero
  have parts : mask &&& page ||| mask &&& flags = 0#32 := by
    rw [← BitVec.and_or_distrib_left, BitVec.and_comm]
    exact zero
  apply set
  rw [BitVec.and_comm]
  exact (BitVec.or_eq_zero_iff.mp parts).2

/-- A word with the present flag among its low bits is present. -/
theorem present_or {page flags : Word} (present : flags &&& pagePresent ≠ 0) : (page ||| flags) &&& pagePresent ≠ 0 :=
  masked_or present

theorem tableFlags_present (virtAddr : Word) : tableFlags virtAddr &&& pagePresent ≠ 0 := by
  unfold tableFlags
  split <;> decide

namespace Paging

/-- Entry `index` of the directory points to `table`. -/
structure HasTable (p : Paging) (pageDir index table : Word) : Prop where
  small : index.toNat < 1024
  present : p.entry pageDir index &&& pagePresent ≠ 0
  points : pageOf (p.entry pageDir index) = table

variable {p q : Paging} {pageDir virtAddr table : Word}

theorem HasTable.page (has : p.HasTable pageDir index table) : Page table :=
  has.points ▸ page_pageOf _

theorem HasTable.touch (has : p.HasTable pageDir index table) (address : Word) :
    (p.touch address).HasTable pageDir index table :=
  ⟨has.small, has.present, has.points⟩

/-- The place of the directory entry for an address. -/
def slot (pageDir virtAddr : Word) : Word := pageDir + 4 * pageDirectoryIndex virtAddr

theorem getPageTable_found (create : Bool) (present : p.entry pageDir (pageDirectoryIndex virtAddr) &&& pagePresent ≠ 0) :
    p.getPageTable pageDir virtAddr create =
      (pageOf (p.entry pageDir (pageDirectoryIndex virtAddr)), p.touch (slot pageDir virtAddr)) := by
  simp only [getPageTable, physToVirt_eq, read_entry, if_pos present]
  rfl

theorem getPageTable_absent (absent : p.entry pageDir (pageDirectoryIndex virtAddr) &&& pagePresent = 0) :
    p.getPageTable pageDir virtAddr false = (0, p.touch (slot pageDir virtAddr)) := by
  have unset : ¬ p.entry pageDir (pageDirectoryIndex virtAddr) &&& pagePresent ≠ 0 := fun present => present absent
  simp only [getPageTable, physToVirt_eq, read_entry, if_neg unset, Bool.false_eq_true, ↓reduceIte]
  rfl

theorem getPageTable_create (absent : p.entry pageDir (pageDirectoryIndex virtAddr) &&& pagePresent = 0) :
    p.getPageTable pageDir virtAddr true =
      if (p.touch (slot pageDir virtAddr)).allocBlock.1 = 0 then (0, (p.touch (slot pageDir virtAddr)).allocBlock.2)
      else ((p.touch (slot pageDir virtAddr)).allocBlock.1,
        ((p.touch (slot pageDir virtAddr)).allocBlock.2.clearPage (p.touch (slot pageDir virtAddr)).allocBlock.1).write
          (slot pageDir virtAddr) ((p.touch (slot pageDir virtAddr)).allocBlock.1 ||| tableFlags virtAddr)) := by
  have unset : ¬ p.entry pageDir (pageDirectoryIndex virtAddr) &&& pagePresent ≠ 0 := fun present => present absent
  simp only [getPageTable, physToVirt_eq, read_entry, if_neg unset, ↓reduceIte]
  rfl

/-- A new, empty table stands behind the directory entry for `virtAddr`. -/
structure Linked (p : Paging) (pageDir virtAddr table : Word) (q : Paging) : Prop where
  steady : Steady p q
  member : p.Block table
  free : p.inUse (table.toNat / 4096) = false
  inUse : ∀ frame < p.searched, q.inUse frame = (decide (table.toNat / 4096 = frame) || p.inUse frame)
  entry : ∀ page index, Page page → p.Clear page → index.toNat < 1024 →
    q.entry page index =
      if pageDir = page ∧ pageDirectoryIndex virtAddr = index then table ||| tableFlags virtAddr
      else if table = page then 0 else p.entry page index
  used : q.usedBlocks = p.usedBlocks + 1
  calls : q.calls = .taken table :: p.calls

theorem getPageTable_linked (absent : p.entry pageDir (pageDirectoryIndex virtAddr) &&& pagePresent = 0)
    (aligned : Page pageDir) (dirClear : p.Clear pageDir) (some_free : p.allocBlock.1 ≠ 0)
    (clear : p.Clear p.allocBlock.1) :
    (p.getPageTable pageDir virtAddr true).1 = p.allocBlock.1 ∧
      Linked p pageDir virtAddr p.allocBlock.1 (p.getPageTable pageDir virtAddr true).2 := by
  have same := p.allocBlock_touch_fst (slot pageDir virtAddr)
  have small := pageDirectoryIndex_lt virtAddr
  rcases allocBlock_cases (p.touch (slot pageDir virtAddr)) with nothing | allocated
  · rw [nothing] at same
    exact absurd same.symm some_free
  · have created : p.getPageTable pageDir virtAddr true = (p.allocBlock.1,
        ((p.touch (slot pageDir virtAddr)).allocBlock.2.clearPage p.allocBlock.1).write
          (slot pageDir virtAddr) (p.allocBlock.1 ||| tableFlags virtAddr)) := by
      rw [getPageTable_create absent, same, if_neg some_free]
    rw [same] at allocated
    rw [created]
    generalize p.allocBlock.1 = table at *
    generalize (p.touch (slot pageDir virtAddr)).allocBlock.2 = marked at *
    have first : Steady p marked := (p.steady_touch _).trans allocated.steady
    have tablePage := allocated.member.page
    have markedClear : marked.Clear table := first.clear.mpr clear
    have second := first.trans (steady_clearPage markedClear)
    have third : (marked.clearPage table).Clear pageDir := second.clear.mpr dirClear
    refine ⟨rfl, ?_, (p.steady_touch _).block_iff.mp allocated.member, allocated.free, ?_, ?_, allocated.used, ?_⟩
    · exact second.trans (steady_write third small _)
    · intro frame bound
      have inside : frame < (marked.clearPage table).searched := by rwa [second.searched]
      have insideMarked : frame < marked.searched := by rwa [first.searched]
      rw [slot, inUse_write third small _ inside, inUse_clearPage markedClear insideMarked]
      exact allocated.inUse frame bound
    · intro page index page_ pageClear indexSmall
      rw [slot, entry_write aligned page_ small indexSmall, entry_clearPage tablePage page_ indexSmall,
        allocated.entry page index pageClear indexSmall]
      rfl
    · exact allocated.calls

theorem Linked.hasTable (linked : Linked p pageDir virtAddr table q) (aligned : Page pageDir) (clear : p.Clear pageDir) :
    q.HasTable pageDir (pageDirectoryIndex virtAddr) table := by
  have directory : q.entry pageDir (pageDirectoryIndex virtAddr) = table ||| tableFlags virtAddr := by
    rw [linked.entry pageDir _ aligned clear (pageDirectoryIndex_lt _), if_pos ⟨rfl, rfl⟩]
  refine ⟨pageDirectoryIndex_lt _, ?_, ?_⟩
  · rw [directory]
    exact present_or (tableFlags_present virtAddr)
  · rw [directory]
    exact pageOf_or linked.member.page (tableFlags_lt virtAddr)

/-- What a call of `get_page_table` that may create the table can do. -/
theorem getPageTable_cases (aligned : Page pageDir) (dirClear : p.Clear pageDir) (null : p.inUse 0 = true)
    (fresh : p.allocBlock.1 ≠ 0 → p.Clear p.allocBlock.1) (virtAddr : Word) :
    (p.HasTable pageDir (pageDirectoryIndex virtAddr) (p.getPageTable pageDir virtAddr true).1 ∧
      (p.getPageTable pageDir virtAddr true).2 = p.touch (slot pageDir virtAddr)) ∨
    p.entry pageDir (pageDirectoryIndex virtAddr) &&& pagePresent = 0 ∧
      ((p.allocBlock = (0, p) ∧ p.getPageTable pageDir virtAddr true = (0, p.touch (slot pageDir virtAddr))) ∨
      (p.getPageTable pageDir virtAddr true).1 = p.allocBlock.1 ∧ p.allocBlock.1 ≠ 0 ∧
        Linked p pageDir virtAddr p.allocBlock.1 (p.getPageTable pageDir virtAddr true).2) := by
  by_cases absent : p.entry pageDir (pageDirectoryIndex virtAddr) &&& pagePresent = 0
  · refine .inr ⟨absent, ?_⟩
    by_cases none_free : p.allocBlock.1 = 0
    · left
      have nothing : p.allocBlock = (0, p) := by
        rcases allocBlock_cases p with nothing | allocated
        · exact nothing
        · exact absurd none_free (allocated.ne_zero null)
      refine ⟨nothing, ?_⟩
      have same := p.allocBlock_touch_fst (slot pageDir virtAddr)
      rw [none_free] at same
      have failed : (p.touch (slot pageDir virtAddr)).allocBlock = (0, p.touch (slot pageDir virtAddr)) := by
        rcases allocBlock_cases (p.touch (slot pageDir virtAddr)) with nothing | allocated
        · exact nothing
        · exact absurd same (allocated.ne_zero null)
      rw [getPageTable_create absent, failed, if_pos rfl]
    · obtain ⟨result, linked⟩ := getPageTable_linked absent aligned dirClear none_free (fresh none_free)
      exact .inr ⟨result, none_free, linked⟩
  · left
    rw [getPageTable_found true absent]
    exact ⟨⟨pageDirectoryIndex_lt virtAddr, absent, rfl⟩, rfl⟩

theorem mapPage_null (null : (p.getPageTable pageDir (pageOf virtAddr) true).1 = 0) (physAddr flags : Word) :
    p.mapPage pageDir virtAddr physAddr flags = (-1, (p.getPageTable pageDir (pageOf virtAddr) true).2) :=
  if_pos null

theorem mapPage_reached (nonnull : (p.getPageTable pageDir (pageOf virtAddr) true).1 ≠ 0) (physAddr flags : Word) :
    p.mapPage pageDir virtAddr physAddr flags = (0, (p.getPageTable pageDir (pageOf virtAddr) true).2.write
      ((p.getPageTable pageDir (pageOf virtAddr) true).1 + 4 * pageTableIndex (pageOf virtAddr))
      (pageOf physAddr ||| flags)) :=
  if_neg nonnull

/-- The present entry that maps an address, with its flags. -/
def translation (p : Paging) (pageDir virtAddr : Word) : Option Word :=
  let table := p.getPageTable pageDir virtAddr false
  if table.1 = 0 then none
  else
    let entry := (table.2.read (table.1 + 4 * pageTableIndex virtAddr)).1
    if entry &&& pagePresent = 0 then none else some entry

theorem translation_absent (absent : p.entry pageDir (pageDirectoryIndex virtAddr) &&& pagePresent = 0) :
    p.translation pageDir virtAddr = none := by
  simp only [translation, getPageTable_absent absent, ↓reduceIte]

theorem translation_found (has : p.HasTable pageDir (pageDirectoryIndex virtAddr) table) :
    p.translation pageDir virtAddr =
      if table = 0 then none
      else if p.entry table (pageTableIndex virtAddr) &&& pagePresent = 0 then none
      else some (p.entry table (pageTableIndex virtAddr)) := by
  simp only [translation, getPageTable_found false has.present, has.points, read_entry, entry_touch]

theorem unmapPage_found (has : p.HasTable pageDir (pageDirectoryIndex (pageOf virtAddr)) table) (nonnull : table ≠ 0) :
    p.unmapPage pageDir virtAddr = (p.touch (slot pageDir (pageOf virtAddr))).write
      (table + 4 * pageTableIndex (pageOf virtAddr)) 0 := by
  simp only [unmapPage, getPageTable_found false has.present, has.points, nonnull, ↓reduceIte]

theorem getPhysicalAddress_found (has : p.HasTable pageDir (pageDirectoryIndex virtAddr) table) (nonnull : table ≠ 0) :
    p.getPhysicalAddress pageDir virtAddr =
      (if p.entry table (pageTableIndex virtAddr) &&& pagePresent = 0 then 0
        else pageOf (p.entry table (pageTableIndex virtAddr)) ||| (virtAddr &&& 0xFFF),
        (p.touch (slot pageDir virtAddr)).touch (table + 4 * pageTableIndex virtAddr)) := by
  simp only [getPhysicalAddress, getPageTable_found false has.present, has.points, nonnull, ↓reduceIte, read_entry,
    entry_touch]
  split <;> rfl

theorem offset_lt (virtAddr : Word) : (virtAddr &&& 0xFFF).toNat < 4096 := by
  rw [BitVec.toNat_and, show (0xFFF : Word).toNat = 2 ^ 12 - 1 from rfl, Nat.and_two_pow_sub_one_eq_mod]
  exact Nat.mod_lt _ (by decide)

theorem getPhysicalAddress_eq (p : Paging) (pageDir virtAddr : Word) : (p.getPhysicalAddress pageDir virtAddr).1 =
    ((p.translation pageDir virtAddr).map fun entry => pageOf entry ||| (virtAddr &&& 0xFFF)).getD 0 := by
  unfold getPhysicalAddress translation
  dsimp only
  split
  · rfl
  · split <;> rfl

theorem isMapped_eq (p : Paging) (pageDir virtAddr : Word) :
    (p.isMapped pageDir virtAddr).1 = (p.translation pageDir virtAddr).isSome := by
  unfold isMapped translation
  dsimp only
  split
  · rfl
  · split
    · next absent => exact bne_eq_false_iff_eq.mpr absent
    · next present => exact bne_iff_ne.mpr present

/-- A lookup depends on the directory entry and on one entry of its table. -/
theorem translation_congr (directory : q.entry pageDir (pageDirectoryIndex virtAddr) = p.entry pageDir (pageDirectoryIndex virtAddr))
    (tables : ∀ table, p.HasTable pageDir (pageDirectoryIndex virtAddr) table →
      q.entry table (pageTableIndex virtAddr) = p.entry table (pageTableIndex virtAddr)) :
    q.translation pageDir virtAddr = p.translation pageDir virtAddr := by
  by_cases absent : p.entry pageDir (pageDirectoryIndex virtAddr) &&& pagePresent = 0
  · rw [translation_absent absent, translation_absent (by rw [directory]; exact absent)]
  · have has : p.HasTable pageDir (pageDirectoryIndex virtAddr) (pageOf (p.entry pageDir (pageDirectoryIndex virtAddr))) :=
      ⟨pageDirectoryIndex_lt virtAddr, absent, rfl⟩
    have after : q.HasTable pageDir (pageDirectoryIndex virtAddr) (pageOf (p.entry pageDir (pageDirectoryIndex virtAddr))) :=
      ⟨pageDirectoryIndex_lt virtAddr, by rw [directory]; exact absent, by rw [directory]⟩
    rw [translation_found has, translation_found after, tables _ has]

@[simp] theorem translation_touch (p : Paging) (address pageDir virtAddr : Word) :
    (p.touch address).translation pageDir virtAddr = p.translation pageDir virtAddr :=
  translation_congr rfl fun _ _ => rfl

end Paging

end MexOS.Mm
