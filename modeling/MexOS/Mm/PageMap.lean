import MexOS.Mm.PageTables

/-! The page tables of an address space as a finite map from pages to frames:
what `vmm_map_page` and `vmm_unmap_page` change and what they leave alone. -/

namespace MexOS.Mm.Paging

open MexOS.Machine

/-- The page is the directory or a table of one of the address spaces. -/
def Occupied (p : Paging) (spaces : Word → Prop) (page : Word) : Prop :=
  ∃ space, spaces space ∧ (page = space ∨ ∃ index, p.HasTable space index page)

/-- The directory and its user-half tables are pairwise distinct and belong to
no other of the address spaces. All directories and tables lie clear of the
bitmap, and `pmm_alloc_block` returns only pages that are none of them. -/
structure Private (p : Paging) (spaces : Word → Prop) (pageDir : Word) : Prop where
  known : spaces pageDir
  pages : ∀ space, spaces space → Page space
  clear : ∀ page, p.Occupied spaces page → p.Clear page
  directory : ∀ space index, spaces space → ¬ p.HasTable space index pageDir
  tables : ∀ index table, index.toNat < 768 → p.HasTable pageDir index table →
    ∀ space, spaces space → table ≠ space ∧
      ∀ other, p.HasTable space other table → space = pageDir ∧ other = index
  fresh : p.allocBlock.1 ≠ 0 → p.Clear p.allocBlock.1 ∧ ¬ p.Occupied spaces p.allocBlock.1
  null : p.inUse 0 = true

/-- Nothing is different but the trace. -/
def SameState (p q : Paging) : Prop := { q with trace := p.trace } = p

/-- The address translates to the same frame with the same flags. -/
structure SameTranslation (p q : Paging) (pageDir virtAddr : Word) : Prop where
  address : (q.getPhysicalAddress pageDir virtAddr).1 = (p.getPhysicalAddress pageDir virtAddr).1
  mapped : (q.isMapped pageDir virtAddr).1 = (p.isMapped pageDir virtAddr).1
  flags : (q.translation pageDir virtAddr).map (· &&& 0xFFF) = (p.translation pageDir virtAddr).map (· &&& 0xFFF)

variable {p q : Paging} {spaces : Word → Prop} {pageDir virtAddr physAddr flags table block space address : Word}

theorem SameTranslation.of_eq (same : q.translation pageDir virtAddr = p.translation pageDir virtAddr) :
    SameTranslation p q pageDir virtAddr where
  address := by rw [getPhysicalAddress_eq, getPhysicalAddress_eq, same]
  mapped := by rw [isMapped_eq, isMapped_eq, same]
  flags := by rw [same]

theorem Private.directory_clear (apart : p.Private spaces pageDir) : p.Clear pageDir :=
  apart.clear _ ⟨pageDir, apart.known, .inl rfl⟩

theorem Private.directory_page (apart : p.Private spaces pageDir) : Page pageDir := apart.pages pageDir apart.known

theorem Private.table_clear (apart : p.Private spaces pageDir) (known : spaces space) (has : p.HasTable space index table) :
    p.Clear table :=
  apart.clear _ ⟨space, known, .inr ⟨index, has⟩⟩

/-- A store into the table for a user address changes the translation of that
page in that address space only. -/
theorem Private.written (apart : p.Private spaces pageDir) (user : virtAddr < kernelVirtualBase)
    (has : p.HasTable pageDir (pageDirectoryIndex virtAddr) table) (value : Word) (known : spaces space)
    (elsewhere : space = pageDir → pageOf address ≠ pageOf virtAddr) :
    ((p.touch (slot pageDir virtAddr)).write (table + 4 * pageTableIndex virtAddr) value).translation space address =
      p.translation space address := by
  have half := pageDirectoryIndex_user user
  obtain ⟨different, once⟩ := apart.tables _ _ half has space known
  apply translation_congr
  · rw [entry_write has.page (apart.pages space known) (pageTableIndex_lt _) (pageDirectoryIndex_lt _),
      if_neg fun same => different same.1]
    rfl
  · intro other owned
    rw [entry_write has.page owned.page (pageTableIndex_lt _) (pageTableIndex_lt _)]
    split
    · next same =>
      -- a table is shared only with itself, so the address is in the written page
      obtain ⟨samePage, sameIndex⟩ := same
      subst samePage
      obtain ⟨here, indices⟩ := once _ owned
      exact absurd (pageOf_eq_iff.mpr ⟨indices, sameIndex.symm⟩) (elsewhere here)
    · rfl

/-- So does linking a new table and storing into it. -/
theorem Private.linked (apart : p.Private spaces pageDir) (absent : p.entry pageDir (pageDirectoryIndex virtAddr) &&& pagePresent = 0)
    (unoccupied : ¬ p.Occupied spaces table) (clear : p.Clear table) (linked : Linked p pageDir virtAddr table q)
    (value : Word) (known : spaces space) (elsewhere : space = pageDir → pageOf address ≠ pageOf virtAddr) :
    (q.write (table + 4 * pageTableIndex virtAddr) value).translation space address = p.translation space address := by
  have spacePage := apart.pages space known
  have spaceClear : p.Clear space := apart.clear _ ⟨space, known, .inl rfl⟩
  have tablePage := linked.member.page
  have notSpace : table ≠ space := fun same => unoccupied ⟨space, known, .inl same⟩
  have entry (page index : Word) (page_ : Page page) (pageClear : p.Clear page) (small : index.toNat < 1024) :
      (q.write (table + 4 * pageTableIndex virtAddr) value).entry page index =
        if table = page ∧ pageTableIndex virtAddr = index then value
        else if pageDir = page ∧ pageDirectoryIndex virtAddr = index then table ||| tableFlags virtAddr
        else if table = page then 0 else p.entry page index := by
    rw [entry_write tablePage page_ (pageTableIndex_lt _) small, linked.entry page index page_ pageClear small]
  by_cases here : pageDir = space ∧ pageDirectoryIndex virtAddr = pageDirectoryIndex address
  · obtain ⟨same, indices⟩ := here
    have before : p.translation space address = none := by
      apply translation_absent
      rw [← same, ← indices]
      exact absent
    have directory : (q.write (table + 4 * pageTableIndex virtAddr) value).entry space (pageDirectoryIndex address) =
        table ||| tableFlags virtAddr := by
      rw [entry space _ spacePage spaceClear (pageDirectoryIndex_lt _), if_neg fun same => notSpace same.1,
        if_pos ⟨same, indices⟩]
    have has : (q.write (table + 4 * pageTableIndex virtAddr) value).HasTable space (pageDirectoryIndex address) table := by
      refine ⟨pageDirectoryIndex_lt _, ?_, ?_⟩
      · rw [directory]
        exact present_or (tableFlags_present virtAddr)
      · rw [directory]
        exact pageOf_or tablePage (tableFlags_lt virtAddr)
    have other : pageTableIndex virtAddr ≠ pageTableIndex address := by
      intro sameIndex
      exact elsewhere same.symm (pageOf_eq_iff.mpr ⟨indices.symm, sameIndex.symm⟩)
    have notDirectory : pageDir ≠ table := fun impossible => notSpace (impossible.symm.trans same)
    have word : (q.write (table + 4 * pageTableIndex virtAddr) value).entry table (pageTableIndex address) = 0 := by
      rw [entry table _ tablePage clear (pageTableIndex_lt _), if_neg fun both => other both.2,
        if_neg fun both => notDirectory both.1, if_pos rfl]
    rw [before, translation_found has, word]
    split
    · rfl
    · exact if_pos (by decide)
  · apply translation_congr
    · rw [entry space _ spacePage spaceClear (pageDirectoryIndex_lt _), if_neg fun same => notSpace same.1,
        if_neg here, if_neg notSpace]
    · intro other owned
      have different : table ≠ other := fun same => unoccupied ⟨space, known, .inr ⟨_, same ▸ owned⟩⟩
      have notDirectory : pageDir ≠ other := fun same => apart.directory space _ known (same ▸ owned)
      rw [entry other _ owned.page (apart.table_clear known owned) (pageTableIndex_lt _),
        if_neg fun same => different same.1, if_neg fun same => notDirectory same.1, if_neg different]

/-- Every address of another page of the directory, and every address of
another address space, translates as before. -/
def SameElsewhere (p : Paging) (spaces : Word → Prop) (pageDir virtAddr : Word) (q : Paging) : Prop :=
  ∀ space address, spaces space → (space = pageDir → pageOf address ≠ pageOf virtAddr) → SameTranslation p q space address

theorem Private.not_own_table (apart : p.Private spaces pageDir) (has : p.HasTable pageDir index table) : table ≠ pageDir := by
  rintro rfl
  exact apart.directory _ _ apart.known has

/-- The translation of the page itself after a store into its table. -/
theorem translation_written {value : Word} (aligned : Page pageDir) (has : p.HasTable pageDir (pageDirectoryIndex virtAddr) table)
    (different : table ≠ pageDir) (same : pageOf address = pageOf virtAddr) :
    (p.write (table + 4 * pageTableIndex virtAddr) value).translation pageDir address =
      if table = 0 then none else if value &&& pagePresent = 0 then none else some value := by
  obtain ⟨directory, index⟩ := pageOf_eq_iff.mp same
  have kept : (p.write (table + 4 * pageTableIndex virtAddr) value).entry pageDir (pageDirectoryIndex virtAddr) =
      p.entry pageDir (pageDirectoryIndex virtAddr) := by
    rw [entry_write has.page aligned (pageTableIndex_lt _) (pageDirectoryIndex_lt _), if_neg fun both => different both.1]
  have after : (p.write (table + 4 * pageTableIndex virtAddr) value).HasTable pageDir (pageDirectoryIndex address) table := by
    rw [directory]
    refine ⟨has.small, ?_, ?_⟩
    · rw [kept]
      exact has.present
    · rw [kept]
      exact has.points
  have word : (p.write (table + 4 * pageTableIndex virtAddr) value).entry table (pageTableIndex virtAddr) = value := by
    rw [entry_write has.page has.page (pageTableIndex_lt _) (pageTableIndex_lt _), if_pos ⟨rfl, rfl⟩]
  rw [translation_found after, index, word]

/-- What a call of `vmm_map_page` for a user address can do. -/
theorem Private.mapPage_cases (apart : p.Private spaces pageDir) (user : virtAddr < kernelVirtualBase)
    (physAddr : Word) {flags : Word} (present : flags &&& pagePresent ≠ 0) :
    ((p.mapPage pageDir virtAddr physAddr flags).1 = -1 ∧
      SameState p (p.mapPage pageDir virtAddr physAddr flags).2) ∨
    (p.mapPage pageDir virtAddr physAddr flags).1 = 0 ∧
      (∀ address, pageOf address = pageOf virtAddr →
        (p.mapPage pageDir virtAddr physAddr flags).2.translation pageDir address = some (pageOf physAddr ||| flags)) ∧
      SameElsewhere p spaces pageDir virtAddr (p.mapPage pageDir virtAddr physAddr flags).2 := by
  have rounded : pageOf (pageOf virtAddr) = pageOf virtAddr := pageOf_of_page (page_pageOf virtAddr)
  have valuePresent : (pageOf physAddr ||| flags) &&& pagePresent ≠ 0 := present_or present
  have aligned := apart.directory_page
  rcases getPageTable_cases aligned apart.directory_clear apart.null (fun granted => (apart.fresh granted).1)
    (pageOf virtAddr) with ⟨has, state⟩ | ⟨absent, ⟨_, failed⟩ | ⟨result, nonnull, linked⟩⟩
  · by_cases null : (p.getPageTable pageDir (pageOf virtAddr) true).1 = 0
    · rw [mapPage_null null, state]
      exact .inl ⟨rfl, rfl⟩
    · rw [mapPage_reached null, state]
      refine .inr ⟨rfl, ?_, ?_⟩
      · intro address same
        rw [translation_written aligned (has.touch _) (apart.not_own_table has) (same.trans rounded.symm), if_neg null,
          if_neg valuePresent]
      · intro space address known elsewhere
        exact .of_eq (apart.written (pageOf_user user) has _ known (by rwa [rounded]))
  · rw [mapPage_null (by rw [failed]), failed]
    exact .inl ⟨rfl, rfl⟩
  · obtain ⟨clear, unoccupied⟩ := apart.fresh nonnull
    rw [mapPage_reached (by rwa [result]), result]
    refine .inr ⟨rfl, ?_, ?_⟩
    · intro address same
      have has := linked.hasTable aligned apart.directory_clear
      have different : p.allocBlock.1 ≠ pageDir := fun same => unoccupied ⟨pageDir, apart.known, .inl same⟩
      rw [translation_written aligned has different (same.trans rounded.symm), if_neg nonnull, if_neg valuePresent]
    · intro space address known elsewhere
      exact .of_eq (apart.linked absent unoccupied clear linked _ known (by rwa [rounded]))

/-- What a call of `vmm_unmap_page` for a user address does. -/
theorem Private.unmapPage_spec (apart : p.Private spaces pageDir) (user : virtAddr < kernelVirtualBase) :
    (∀ address, pageOf address = pageOf virtAddr → (p.unmapPage pageDir virtAddr).translation pageDir address = none) ∧
      SameElsewhere p spaces pageDir virtAddr (p.unmapPage pageDir virtAddr) := by
  have rounded : pageOf (pageOf virtAddr) = pageOf virtAddr := pageOf_of_page (page_pageOf virtAddr)
  have aligned := apart.directory_page
  by_cases absent : p.entry pageDir (pageDirectoryIndex (pageOf virtAddr)) &&& pagePresent = 0
  · have unchanged : p.unmapPage pageDir virtAddr = p.touch (slot pageDir (pageOf virtAddr)) := by
      simp only [unmapPage, getPageTable_absent absent, ↓reduceIte]
    rw [unchanged]
    constructor
    · intro address same
      rw [translation_touch]
      apply translation_absent
      rw [(pageOf_eq_iff.mp (same.trans rounded.symm)).1]
      exact absent
    · intro space address known elsewhere
      exact .of_eq (p.translation_touch _ _ _)
  · have has : p.HasTable pageDir (pageDirectoryIndex (pageOf virtAddr))
        (pageOf (p.entry pageDir (pageDirectoryIndex (pageOf virtAddr)))) := ⟨pageDirectoryIndex_lt _, absent, rfl⟩
    by_cases null : pageOf (p.entry pageDir (pageDirectoryIndex (pageOf virtAddr))) = 0
    · have unchanged : p.unmapPage pageDir virtAddr = p.touch (slot pageDir (pageOf virtAddr)) := by
        simp only [unmapPage, getPageTable_found false absent, null, ↓reduceIte]
      rw [unchanged]
      constructor
      · intro address same
        rw [← (pageOf_eq_iff.mp (same.trans rounded.symm)).1] at has null
        rw [translation_touch, translation_found has, if_pos null]
      · intro space address known elsewhere
        exact .of_eq (p.translation_touch _ _ _)
    · rw [unmapPage_found has null]
      constructor
      · intro address same
        rw [translation_written aligned (has.touch _) (apart.not_own_table has) (same.trans rounded.symm), if_neg null]
        exact if_pos (by decide)
      · intro space address known elsewhere
        exact .of_eq (apart.written (pageOf_user user) has _ known (by rwa [rounded]))

/-- `vmm_map_page` and `vmm_unmap_page` on an address space that shares nothing
are the two updates of a finite map from pages to frames. -/
theorem page_tables_finite_map (p : Paging) (spaces : Word → Prop) (pageDir virtAddr physAddr flags : Word)
    (apart : p.Private spaces pageDir) (user : virtAddr < kernelVirtualBase) (small : flags.toNat < 0x1000)
    (present : flags &&& pagePresent ≠ 0) :
    ((p.mapPage pageDir virtAddr physAddr flags).1 = 0 →
      (∀ address, pageOf address = pageOf virtAddr →
        ((p.mapPage pageDir virtAddr physAddr flags).2.getPhysicalAddress pageDir address).1 =
          pageOf physAddr ||| (address &&& 0xFFF) ∧
        ((p.mapPage pageDir virtAddr physAddr flags).2.isMapped pageDir address).1 = true) ∧
      SameElsewhere p spaces pageDir virtAddr (p.mapPage pageDir virtAddr physAddr flags).2) ∧
    ((p.mapPage pageDir virtAddr physAddr flags).1 ≠ 0 →
      (p.mapPage pageDir virtAddr physAddr flags).1 = -1 ∧ SameState p (p.mapPage pageDir virtAddr physAddr flags).2) ∧
    (∀ address, pageOf address = pageOf virtAddr → ((p.unmapPage pageDir virtAddr).isMapped pageDir address).1 = false) ∧
    SameElsewhere p spaces pageDir virtAddr (p.unmapPage pageDir virtAddr) := by
  obtain ⟨gone, others⟩ := apart.unmapPage_spec user
  have unmapped (address : Word) (same : pageOf address = pageOf virtAddr) :
      ((p.unmapPage pageDir virtAddr).isMapped pageDir address).1 = false := by
    rw [isMapped_eq, gone address same]
    rfl
  rcases apart.mapPage_cases user physAddr present with ⟨failed, same⟩ | ⟨returned, here, elsewhere⟩
  · refine ⟨?_, fun _ => ⟨failed, same⟩, unmapped, others⟩
    intro impossible
    rw [failed] at impossible
    cases impossible
  · refine ⟨fun _ => ⟨?_, elsewhere⟩, fun nonzero => absurd returned nonzero, unmapped, others⟩
    intro address same
    have frame : pageOf (pageOf physAddr ||| flags) = pageOf physAddr := pageOf_or (page_pageOf physAddr) small
    constructor
    · rw [getPhysicalAddress_eq, here address same, Option.map_some, Option.getD_some, frame]
    · rw [isMapped_eq, here address same]
      rfl

theorem smallMachine_blocks : (32 : Word).toNat < 2 ^ 20 := by decide

/-- A memory of zeros but for the bit of frame zero, whose bitmap is the word
at 1 MiB. -/
def smallMachine : Paging where
  mem := fun place => if place = 0x100000 then 1 else 0
  kernelDirectory := 0
  currentDirectory := 0
  kernelDirectoryPhys := 0
  bitmapAddr := 0x100000
  bitmapSize := 4
  memorySize := 0x20000
  usedBlocks := 1
  maxBlocks := 32
  cr3 := 0
  paging := false
  trace := []
  direct := .inl rfl
  blocks := smallMachine_blocks

theorem smallMachine_entry {page index : Word} (aligned : Page page) (below : page.toNat < 0x100000) (small : index.toNat < 1024) :
    smallMachine.entry page index = 0 := by
  have zero : loadWord smallMachine.mem (page + 4 * index) = loadWord (fun _ => 0) (page + 4 * index) := by
    apply loadWord_congr
    intro lane laneSmall
    unfold Page at aligned
    have different : page + 4 * index + lane ≠ 0x100000 := by bv_omega
    exact if_neg different
  rw [entry, pageWord, zero]
  simp only [loadWord]
  decide

theorem smallMachine_clear {page : Word} (below : page.toNat + 4096 ≤ 0x100000) : smallMachine.Clear page := by
  intro byte small
  have blocks : smallMachine.maxBlocks.toNat = 32 := rfl
  have base : smallMachine.bitmapAddr = 0x100000 := rfl
  rw [storage, base]
  bv_omega

theorem smallMachine_alloc : smallMachine.allocBlock.1 = 0x1000 := by
  decide

theorem smallMachine_private : smallMachine.Private (fun space => space = 0x5000 ∨ space = 0x9000) 0x5000 := by
  have pages (space : Word) (known : space = 0x5000 ∨ space = 0x9000) : Page space ∧ space.toNat + 4096 ≤ 0x100000 := by
    rcases known with rfl | rfl <;> decide
  have tableless (space index table : Word) (known : space = 0x5000 ∨ space = 0x9000) :
      ¬ smallMachine.HasTable space index table := by
    intro has
    apply has.present
    obtain ⟨aligned, below⟩ := pages space known
    rw [smallMachine_entry aligned (by omega) has.small]
    decide
  constructor
  case known => exact .inl rfl
  case pages => exact fun space known => (pages space known).1
  case clear =>
    rintro page ⟨space, known, rfl | ⟨index, has⟩⟩
    · exact smallMachine_clear (pages _ known).2
    · exact absurd has (tableless _ _ _ known)
  case directory => exact fun space index known => tableless _ _ _ known
  case tables => exact fun index table _ has => absurd has (tableless _ _ _ (.inl rfl))
  case fresh =>
    intro _
    rw [smallMachine_alloc]
    refine ⟨smallMachine_clear (by decide), ?_⟩
    rintro ⟨space, known, same | ⟨index, has⟩⟩
    · rcases known with rfl | rfl <;> exact absurd same (by decide)
    · exact absurd has (tableless _ _ _ known)
  case null => decide

/-- A page of the user half is mapped in one of two empty address spaces, which
takes a new table, and unmapped again. -/
theorem page_tables_finite_map_two_spaces :
    (smallMachine.mapPage 0x5000 0x40000000 0x7000 7).1 = 0 ∧
    ((smallMachine.mapPage 0x5000 0x40000000 0x7000 7).2.getPhysicalAddress 0x5000 0x40000123).1 = 0x7123 ∧
    SameElsewhere smallMachine (fun space => space = 0x5000 ∨ space = 0x9000) 0x5000 0x40000000
      (smallMachine.mapPage 0x5000 0x40000000 0x7000 7).2 := by
  have exactly := page_tables_finite_map smallMachine (fun space => space = 0x5000 ∨ space = 0x9000) 0x5000 0x40000000
    0x7000 7 smallMachine_private (by decide) (by decide) (by decide)
  have returned : (smallMachine.mapPage 0x5000 0x40000000 0x7000 7).1 = 0 := by decide +kernel
  obtain ⟨mapped, elsewhere⟩ := exactly.1 returned
  exact ⟨returned, (mapped 0x40000123 (by decide)).1, elsewhere⟩

end MexOS.Mm.Paging
