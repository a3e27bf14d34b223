import MexOS.Mm.Holdings
import MexOS.Mm.Window

/-! What the calls of `mm/vmm.c` do to a kernel whose window is intact, one
lemma for each call. -/

namespace MexOS.Mm.Paging

open MexOS.Machine

variable {p q : Paging} {kernelEnd : Word} {live : List Word}
  {page index block space table address virtAddr value : Word} {frame : Nat}

section Stores

/-! The stores into directories and tables. -/

theorem owner_window (p : Paging) (low : index.toNat < 2) : p.owner p.kernelDirectory index = some p.kernelDirectory := by
  rw [owner, if_pos rfl, if_pos low]

theorem owner_shared (p : Paging) (space : Word) (high : 768 ≤ index.toNat) : p.owner space index = none := by
  rw [owner]
  apply if_neg
  split <;> omega

theorem owner_user (p : Paging) (created : space ≠ p.kernelDirectory) (user : index.toNat < 768) :
    p.owner space index = some space := by
  rw [owner, if_neg created, if_pos user]

theorem owner_eq_some (owned : p.owner space index = some page) : space = page := by
  rw [owner, ite_eq_iff] at owned
  rcases owned with ⟨_, same⟩ | ⟨_, impossible⟩
  · exact Option.some.inj same
  · cases impossible

theorem owner_ne_kernel (behind : space = p.kernelDirectory → 2 ≤ index.toNat) :
    p.owner space index ≠ some p.kernelDirectory := by
  intro owned
  have here := owner_eq_some owned
  have high := behind here
  rw [owner, if_pos here, if_neg (by omega)] at owned
  cases owned

/-- A store into a table that is none of the window's. -/
theorem Active.store_table (active : Active kernelEnd live p) (known : p.Known live space)
    (has : p.HasTable space index table) (behind : space = p.kernelDirectory → 2 ≤ index.toNat)
    {place : Word} (small : place.toNat < 1024) (value : Word) :
    Active kernelEnd live (p.write (table + 4 * place) value) := by
  have windowed := active.table_windowed known has
  have kept : Kept kernelEnd (· = table) p (p.write (table + 4 * place) value) := kept_write windowed.toBehind small value
  have bits (frame : Nat) (bound : frame < reach kernelEnd) :
      (p.write (table + 4 * place) value).inUse frame = p.inUse frame :=
    bits_write windowed.toBehind active.bitmapAddr small value bound
  have room := active.room
  have far := windowFrames_le_reach kernelEnd
  refine active.of_intact (active.transfer kept.statics ?_ ?_ ?_ ?_ ?_) kept.statics
  · apply kept.directories active.toIntact
    rintro _ otherKnown rfl
    exact active.apart space _ index known otherKnown has
  · intro j other low otherHas k kSmall
    apply kept.entry other k (active.table_windowed (.inl rfl) otherHas).toBehind _ kSmall
    -- a table of the window is reached through the window only
    rintro rfl
    have same := active.owners _ _ _ _ _ known (.inl rfl) has otherHas
    rw [p.owner_window low] at same
    exact owner_ne_kernel behind same
  · intro page occupied
    obtain ⟨pageWindowed, used⟩ := active.windowed page occupied
    rw [bits _ pageWindowed.last, used]
  · intro frame bound
    rw [bits frame (by omega)]
    exact active.reserved frame bound
  · exact active.faultless_touch (windowed.place small)

/-- The value may stand at this place of a directory. -/
structure Fits (kernelEnd : Word) (live : List Word) (p : Paging) (space index value : Word) : Prop where
  windowed : Windowed kernelEnd (pageOf value)
  inUse : p.inUse ((pageOf value).toNat / 4096) = true
  unknown : ¬ p.Known live (pageOf value)
  owner : ∀ other second, p.Known live other → p.HasTable other second (pageOf value) → p.owner other second = p.owner space index

/-- A page that was taken and is referred to nowhere fits everywhere. -/
theorem fits_vacant (windowed : Windowed kernelEnd (pageOf value)) (used : p.inUse ((pageOf value).toNat / 4096) = true)
    (vacant : p.Vacant live (pageOf value)) : Fits kernelEnd live p space index value where
  windowed := windowed
  inUse := used
  unknown := fun known => vacant ⟨_, known, .inl rfl⟩
  owner := fun other second known has => absurd ⟨other, known, .inr ⟨second, has⟩⟩ vacant

/-- A store into a directory, not into the window. -/
theorem Active.store_directory (active : Active kernelEnd live p) (known : p.Known live space) (small : index.toNat < 1024)
    (behind : space = p.kernelDirectory → 2 ≤ index.toNat) (value : Word)
    (fits : value &&& pagePresent ≠ 0 → Fits kernelEnd live p space index value) :
    Active kernelEnd live (p.write (space + 4 * index) value) := by
  have windowed := active.directory_windowed known
  have word (page second : Word) (pageBehind : Page page) (secondSmall : second.toNat < 1024) :
      (p.write (space + 4 * index) value).entry page second =
        if space = page ∧ index = second then value else p.entry page second :=
    entry_write windowed.aligned pageBehind small secondSmall
  have statics : SameStatics p (p.write (space + 4 * index) value) := p.sameStatics_write _ _
  have bits (frame : Nat) (bound : frame < reach kernelEnd) :
      (p.write (space + 4 * index) value).inUse frame = p.inUse frame :=
    bits_write windowed.toBehind active.bitmapAddr small value bound
  have faultless : (p.write (space + 4 * index) value).Faultless := active.faultless_touch (windowed.place small)
  have room := active.room
  have far := windowFrames_le_reach kernelEnd
  generalize p.write (space + 4 * index) value = q at *
  -- behind an entry stands the old table, or the new one at this place
  have tables {other second table : Word} (otherKnown : p.Known live other) (has : q.HasTable other second table) :
      p.HasTable other second table ∨
        (space = other ∧ index = second ∧ value &&& pagePresent ≠ 0 ∧ pageOf value = table) := by
    have here := word other second (active.directory_windowed otherKnown).aligned has.small
    by_cases same : space = other ∧ index = second
    · rw [if_pos same] at here
      exact .inr ⟨same.1, same.2, here ▸ has.present, here ▸ has.points⟩
    · rw [if_neg same] at here
      exact .inl ⟨has.small, here ▸ has.present, here ▸ has.points⟩
  have owner (other second : Word) : q.owner other second = p.owner other second := by
    rw [Paging.owner, Paging.owner, statics.kernelDirectory]
  refine active.of_intact ?_ statics
  constructor
  case bitmapAddr => exact statics.bitmapAddr.trans active.bitmapAddr
  case maxBlocks => exact statics.maxBlocks.trans active.maxBlocks
  case paging => exact statics.paging.trans active.paging
  case room => exact room
  case kernel =>
    rw [statics.kernelDirectory]
    exact active.kernel
  case windowed =>
    rintro page ⟨other, otherKnown, here⟩
    rw [statics.known] at otherKnown
    have before : Windowed kernelEnd page ∧ p.inUse (page.toNat / 4096) = true := by
      rcases here with same | ⟨second, has⟩
      · exact active.windowed page ⟨other, otherKnown, .inl same⟩
      · rcases tables otherKnown has with old | ⟨_, _, present, rfl⟩
        · exact active.windowed page ⟨other, otherKnown, .inr ⟨second, old⟩⟩
        · exact ⟨(fits present).windowed, (fits present).inUse⟩
    exact ⟨before.1, by rw [bits _ before.1.last, before.2]⟩
  case apart =>
    intro first other second firstKnown otherKnown has
    rw [statics.known] at firstKnown otherKnown
    rcases tables firstKnown has with old | ⟨_, _, present, rfl⟩
    · exact active.apart _ _ _ firstKnown otherKnown old
    · exact (fits present).unknown otherKnown
  case owners =>
    intro first i other j table firstKnown otherKnown has otherHas
    rw [statics.known] at firstKnown otherKnown
    rw [owner, owner]
    rcases tables firstKnown has with old | ⟨rfl, rfl, present, rfl⟩
    · rcases tables otherKnown otherHas with otherOld | ⟨rfl, rfl, present, rfl⟩
      · exact active.owners _ _ _ _ _ firstKnown otherKnown old otherOld
      · exact (fits present).owner _ _ firstKnown old
    · rcases tables otherKnown otherHas with otherOld | ⟨rfl, rfl, _, _⟩
      · exact ((fits present).owner _ _ otherKnown otherOld).symm
      · rfl
  case identity =>
    intro address inside
    obtain ⟨table, has, present, points⟩ := active.identity address inside
    have low : (pageDirectoryIndex address).toNat < 2 := by
      rw [toNat_pageDirectoryIndex]
      unfold windowSize at inside
      omega
    have directory := word p.kernelDirectory _ (active.directory_windowed (.inl rfl)).aligned has.small
    rw [if_neg (by rintro ⟨same, rfl⟩; exact absurd (behind same) (by omega))] at directory
    have different : space ≠ table := by
      rintro rfl
      exact active.apart _ _ _ (.inl rfl) known has
    have translated := word table (pageTableIndex address) has.page (pageTableIndex_lt address)
    rw [if_neg fun same => different same.1] at translated
    rw [statics.kernelDirectory]
    refine ⟨table, ⟨has.small, ?_, ?_⟩, ?_, ?_⟩
    · rw [directory]
      exact has.present
    · rw [directory]
      exact has.points
    · rw [translated]
      exact present
    · rw [translated]
      exact points
  case reserved =>
    intro frame bound
    rw [bits frame (by omega)]
    exact active.reserved frame bound
  case faultless => exact faultless

/-- An empty page that was taken becomes a directory. -/
theorem Active.add_space (active : Active kernelEnd live p) (windowed : Windowed kernelEnd page)
    (used : p.inUse (page.toNat / 4096) = true) (vacant : p.Vacant live page)
    (empty : ∀ i : Word, i.toNat < 1024 → p.entry page i = 0) : Active kernelEnd (page :: live) p := by
  have tableless {index table : Word} (has : p.HasTable page index table) : False := by
    apply has.present
    rw [empty index has.small]
    decide
  -- the new directory is known now, and it has no tables
  have known {space : Word} (now : p.Known (page :: live) space) : space = page ∨ p.Known live space := by
    rcases now with kernel | member
    · exact .inr (.inl kernel)
    · rcases List.mem_cons.mp member with same | old
      · exact .inl same
      · exact .inr (.inr old)
  have before {space index table : Word} (now : p.Known (page :: live) space) (has : p.HasTable space index table) :
      p.Known live space := by
    rcases known now with rfl | old
    · exact (tableless has).elim
    · exact old
  refine ⟨?_, active.cr3⟩
  constructor
  case bitmapAddr => exact active.bitmapAddr
  case maxBlocks => exact active.maxBlocks
  case paging => exact active.paging
  case room => exact active.room
  case kernel =>
    intro member
    rcases List.mem_cons.mp member with same | old
    · exact vacant ⟨_, .inl rfl, .inl same.symm⟩
    · exact active.kernel old
  case windowed =>
    rintro other ⟨space, now, rfl | ⟨index, has⟩⟩
    · rcases known now with rfl | old
      · exact ⟨windowed, used⟩
      · exact active.windowed _ ⟨_, old, .inl rfl⟩
    · exact active.windowed _ ⟨space, before now has, .inr ⟨index, has⟩⟩
  case apart =>
    intro space other index now otherNow has
    have old := before now has
    rcases known otherNow with rfl | otherOld
    · exact vacant ⟨space, old, .inr ⟨index, has⟩⟩
    · exact active.apart _ _ _ old otherOld has
  case owners =>
    intro space index other second table now otherNow has otherHas
    exact active.owners _ _ _ _ _ (before now has) (before otherNow otherHas) has otherHas
  case identity => exact active.identity
  case reserved => exact active.reserved
  case faultless => exact active.faultless

end Stores

section Pages

/-! `vmm_map_page`, `vmm_alloc_page` and `vmm_free_page`. -/

theorem Intact.kernelEnd_pos (intact : Intact kernelEnd live p) : 0 < kernelEnd.toNat := by
  have room := intact.room
  rw [windowFrames, reach, Pmm.kernelFrames] at room
  omega

theorem Active.slot_lt (active : Active kernelEnd live p) (known : p.Known live space) (virtAddr : Word) :
    (slot space virtAddr).toNat < windowSize :=
  (active.directory_windowed known).place (pageDirectoryIndex_lt virtAddr)

/-- What `get_page_table` returns when it may create the table. -/
theorem Active.getPageTable_cases (active : Active kernelEnd live p) (known : p.Known live space)
    (behind : space = p.kernelDirectory → 2 ≤ (pageDirectoryIndex virtAddr).toNat)
    (enough : p.entry space (pageDirectoryIndex virtAddr) &&& pagePresent = 0 → 0 < p.spare (windowFrames kernelEnd)) :
    p.getPageTable space virtAddr true = (0, p.touch (slot space virtAddr)) ∨
      (p.getPageTable space virtAddr true).1 ≠ 0 ∧ Active kernelEnd live (p.getPageTable space virtAddr true).2 ∧
        (p.getPageTable space virtAddr true).2.HasTable space (pageDirectoryIndex virtAddr)
          (p.getPageTable space virtAddr true).1 := by
  have touched := active.touch (active.slot_lt known virtAddr)
  have small := pageDirectoryIndex_lt virtAddr
  have above := active.kernelEnd_pos
  by_cases absent : p.entry space (pageDirectoryIndex virtAddr) &&& pagePresent = 0
  · have some_free : 0 < (p.touch (slot space virtAddr)).spare (windowFrames kernelEnd) := enough absent
    have far := (p.touch (slot space virtAddr)).spare_mono (windowFrames_le_reach kernelEnd)
    rw [getPageTable_create absent]
    rcases touched.allocBlock_cases (by omega) with nothing | granted
    · rw [nothing, if_pos rfl]
      exact .inl rfl
    · have nonnull := granted.behind.ne_zero above
      have windowed := granted.windowed some_free
      have vacant := granted.vacant_after touched.toIntact
      have used := granted.inUse
      rw [if_neg nonnull]
      generalize (p.touch (slot space virtAddr)).allocBlock.1 = table at *
      generalize (p.touch (slot space virtAddr)).allocBlock.2 = q at *
      have statics : SameStatics p q := (p.sameStatics_touch _).trans granted.kept.statics
      have cleared := granted.active.clearPage windowed vacant
      have kept : Kept kernelEnd (· = table) q (q.clearPage table) := kept_clearPage windowed.toBehind
      have apart (space : Word) (known : q.Known live space) : space ≠ table := by
        rintro rfl
        exact vacant ⟨_, known, .inl rfl⟩
      have vacantCleared : (q.clearPage table).Vacant live table := kept.vacant granted.active.toIntact apart vacant
      have usedCleared : (q.clearPage table).inUse (table.toNat / 4096) = true := by
        rwa [inUse_clearPage_of_outside (windowed.outside granted.active.bitmapAddr windowed.last)]
      have points : pageOf (table ||| tableFlags virtAddr) = table := pageOf_or windowed.aligned (tableFlags_lt virtAddr)
      have stored := cleared.store_directory ((statics.trans kept.statics).known.mpr known) small
        (by rwa [(statics.trans kept.statics).kernelDirectory]) (table ||| tableFlags virtAddr)
        (fun _ => fits_vacant (points.symm ▸ windowed) (points.symm ▸ usedCleared) (points.symm ▸ vacantCleared))
      refine .inr ⟨nonnull, stored, small, ?_, ?_⟩
      · rw [slot, entry_write (active.directory_windowed known).aligned (active.directory_windowed known).aligned small small,
          if_pos ⟨rfl, rfl⟩]
        exact present_or (tableFlags_present virtAddr)
      · rw [slot, entry_write (active.directory_windowed known).aligned (active.directory_windowed known).aligned small small,
          if_pos ⟨rfl, rfl⟩]
        exact points
  · rw [getPageTable_found true absent]
    have has : p.HasTable space (pageDirectoryIndex virtAddr) (pageOf (p.entry space (pageDirectoryIndex virtAddr))) :=
      ⟨small, absent, rfl⟩
    exact .inr ⟨(active.table_windowed known has).ne_zero above, touched, has.touch _⟩

/-- The call stays outside the window. -/
def OutsideWindow (p : Paging) (space virtAddr : Word) : Prop := space = p.kernelDirectory → windowSize ≤ virtAddr.toNat

theorem OutsideWindow.directoryIndex (outside : p.OutsideWindow space virtAddr) (here : space = p.kernelDirectory) :
    2 ≤ (pageDirectoryIndex virtAddr).toNat := by
  have far := outside here
  unfold windowSize at far
  rw [toNat_pageDirectoryIndex]
  omega

/-- `vmm_map_page` has to make a table. -/
def Missing (p : Paging) (space virtAddr : Word) : Prop := p.entry space (pageDirectoryIndex virtAddr) &&& pagePresent = 0

theorem Active.mapPage (active : Active kernelEnd live p) (known : p.Known live space) (outside : p.OutsideWindow space virtAddr)
    (enough : p.Missing space virtAddr → 0 < p.spare (windowFrames kernelEnd)) (physAddr flags : Word) :
    Active kernelEnd live (p.mapPage space virtAddr physAddr flags).2 ∧
      ((p.mapPage space virtAddr physAddr flags).1 ≠ 0 →
        (p.mapPage space virtAddr physAddr flags).2 = p.touch (slot space (pageOf virtAddr))) := by
  have behind : space = p.kernelDirectory → 2 ≤ (pageDirectoryIndex (pageOf virtAddr)).toNat := by
    rw [pageDirectoryIndex_pageOf]
    exact outside.directoryIndex
  rcases active.getPageTable_cases known behind (by rwa [pageDirectoryIndex_pageOf]) with failed | ⟨nonnull, reached, has⟩
  · rw [mapPage_null (by rw [failed]), failed]
    exact ⟨active.touch (active.slot_lt known _), fun _ => rfl⟩
  · have statics := p.sameStatics_getPageTable space (pageOf virtAddr) true
    rw [mapPage_reached nonnull]
    refine ⟨?_, fun impossible => absurd rfl impossible⟩
    apply reached.store_table (statics.known.mpr known) has _ (pageTableIndex_lt _)
    rwa [statics.kernelDirectory]

theorem Active.allocPage (active : Active kernelEnd live p) (known : p.Known live space) (outside : p.OutsideWindow space virtAddr)
    (enough : 1 ≤ p.spare (reach kernelEnd) ∧ (p.Missing space virtAddr → 2 ≤ p.spare (windowFrames kernelEnd)))
    (flags : Word) : Active kernelEnd live (p.allocPage space virtAddr flags).2 := by
  obtain ⟨page, table⟩ := enough
  rcases active.allocBlock_cases page with nothing | granted
  · simp only [Paging.allocPage, nothing, ↓reduceIte]
    exact active
  · have nonnull := granted.behind.ne_zero active.kernelEnd_pos
    have vacant := granted.vacant_after active.toIntact
    simp only [Paging.allocPage, if_neg nonnull]
    generalize p.allocBlock.1 = block at *
    generalize p.allocBlock.2 = q at *
    have statics := granted.kept.statics
    have enough (missing : q.Missing space virtAddr) : 0 < q.spare (windowFrames kernelEnd) := by
      rw [Missing, granted.kept.entry space _ (active.directory_windowed known).toBehind id (pageDirectoryIndex_lt _)] at missing
      have two := table missing
      have inside := granted.allocated.frame_lt (by omega : 0 < p.spare (windowFrames kernelEnd))
      have searched := active.searched
      have near := windowFrames_le_reach kernelEnd
      have far := reach_lt kernelEnd
      have less := spare_take granted.allocated.free inside fun frame bound => granted.allocated.inUse frame (by omega)
      omega
    obtain ⟨mapped, failed⟩ := granted.active.mapPage (statics.known.mpr known)
      (by rwa [OutsideWindow, statics.kernelDirectory]) enough block (flags ||| pagePresent)
    split
    · next nonzero =>
      rw [failed nonzero] at mapped ⊢
      have looked : Kept kernelEnd (fun _ => False) q (q.touch (slot space (pageOf virtAddr))) := kept_touch q _
      exact (mapped.freeBlock granted.behind (looked.vacant granted.active.toIntact (fun _ _ none => none) vacant)).1
    · exact mapped

theorem Active.read_table (active : Active kernelEnd live p) (known : p.Known live space) (has : p.HasTable space index table)
    {place : Word} (small : place.toNat < 1024) : Active kernelEnd live (p.touch (table + 4 * place)) :=
  active.touch ((active.table_windowed known has).place small)

theorem Active.getPhysicalAddress (active : Active kernelEnd live p) (known : p.Known live space) (virtAddr : Word) :
    Active kernelEnd live (p.getPhysicalAddress space virtAddr).2 ∧
      Kept kernelEnd (fun _ => False) p (p.getPhysicalAddress space virtAddr).2 := by
  have touched := active.touch (active.slot_lt known virtAddr)
  by_cases absent : p.entry space (pageDirectoryIndex virtAddr) &&& pagePresent = 0
  · simp only [Paging.getPhysicalAddress, getPageTable_absent absent, ↓reduceIte]
    exact ⟨touched, kept_touch p _⟩
  · have has : p.HasTable space (pageDirectoryIndex virtAddr) (pageOf (p.entry space (pageDirectoryIndex virtAddr))) :=
      ⟨pageDirectoryIndex_lt _, absent, rfl⟩
    rw [getPhysicalAddress_found has ((active.table_windowed known has).ne_zero active.kernelEnd_pos)]
    exact ⟨touched.read_table known (has.touch _) (pageTableIndex_lt _), (kept_touch p _).trans (kept_touch _ _)⟩

theorem Active.unmapPage (active : Active kernelEnd live p) (known : p.Known live space)
    (outside : p.OutsideWindow space virtAddr) : Active kernelEnd live (p.unmapPage space virtAddr) := by
  have touched := active.touch (active.slot_lt known (pageOf virtAddr))
  by_cases absent : p.entry space (pageDirectoryIndex (pageOf virtAddr)) &&& pagePresent = 0
  · simp only [Paging.unmapPage, getPageTable_absent absent, ↓reduceIte]
    exact touched
  · have has : p.HasTable space (pageDirectoryIndex (pageOf virtAddr))
        (pageOf (p.entry space (pageDirectoryIndex (pageOf virtAddr)))) := ⟨pageDirectoryIndex_lt _, absent, rfl⟩
    rw [unmapPage_found has ((active.table_windowed known has).ne_zero active.kernelEnd_pos)]
    apply touched.store_table known (has.touch _) _ (pageTableIndex_lt _)
    rw [pageDirectoryIndex_pageOf]
    exact outside.directoryIndex

/-- A page that may be given back. -/
structure Disposable (kernelEnd : Word) (live : List Word) (p : Paging) (page : Word) : Prop where
  behind : Behind kernelEnd page
  vacant : p.Vacant live page

theorem Active.freePage (active : Active kernelEnd live p) (known : p.Known live space) (outside : p.OutsideWindow space virtAddr)
    (disposable : (p.getPhysicalAddress space virtAddr).1 ≠ 0 →
      Disposable kernelEnd live p (pageOf (p.getPhysicalAddress space virtAddr).1)) :
    Active kernelEnd live (p.freePage space virtAddr) := by
  obtain ⟨looked, kept⟩ := active.getPhysicalAddress known virtAddr
  simp only [Paging.freePage]
  generalize (p.getPhysicalAddress space virtAddr).1 = phys at *
  generalize (p.getPhysicalAddress space virtAddr).2 = q at *
  have released : Active kernelEnd live (if phys ≠ 0 then q.freeBlock (pageOf phys) else q) ∧
      SameStatics p (if phys ≠ 0 then q.freeBlock (pageOf phys) else q) := by
    split
    · next nonzero =>
      have gone := disposable nonzero
      obtain ⟨freed, after⟩ := looked.freeBlock gone.behind
        (kept.vacant active.toIntact (fun _ _ none => none) gone.vacant)
      exact ⟨freed, kept.statics.trans after.statics⟩
    · exact ⟨looked, kept.statics⟩
  obtain ⟨after, statics⟩ := released
  exact after.unmapPage (statics.known.mpr known) (by rwa [OutsideWindow, statics.kernelDirectory])

end Pages

section Create

/-! `vmm_create_address_space`. -/

/-- Of the pages in use behind the kernel only those in `except` have other
words, and no bit was cleared. -/
structure Grown (kernelEnd : Word) (except : Word → Prop) (p q : Paging) : Prop where
  statics : SameStatics p q
  bits : ∀ frame < reach kernelEnd, p.inUse frame = true → q.inUse frame = true
  entry : ∀ page index, Behind kernelEnd page → p.inUse (page.toNat / 4096) = true → ¬ except page → index.toNat < 1024 →
    q.entry page index = p.entry page index

variable {except : Word → Prop} {r : Paging}

theorem Grown.refl (p : Paging) : Grown kernelEnd except p p := ⟨.refl p, fun _ _ used => used, fun _ _ _ _ _ _ => rfl⟩

theorem Grown.trans (first : Grown kernelEnd except p q) (second : Grown kernelEnd except q r) : Grown kernelEnd except p r where
  statics := first.statics.trans second.statics
  bits := fun frame bound used => second.bits frame bound (first.bits frame bound used)
  entry := by
    intro page index behind used same small
    rw [second.entry page index behind (first.bits _ behind.last used) same small,
      first.entry page index behind used same small]

theorem Kept.grown {changed : Word → Prop} (kept : Kept kernelEnd changed p q)
    (bits : ∀ frame < reach kernelEnd, p.inUse frame = true → q.inUse frame = true)
    (fresh : ∀ page, changed page → p.inUse (page.toNat / 4096) = false ∨ except page) : Grown kernelEnd except p q := by
  refine ⟨kept.statics, bits, ?_⟩
  intro page index behind used same small
  refine kept.entry page index behind ?_ small
  intro here
  rcases fresh page here with free | excepted
  · rw [used] at free
    cases free
  · exact same excepted

theorem Grown.directories (grown : Grown kernelEnd except p q) (intact : Intact kernelEnd live p)
    (same : ∀ space, p.Known live space → ¬ except space) : SameDirectories live p q := by
  intro space known i small
  obtain ⟨windowed, used⟩ := intact.windowed space ⟨space, known, .inl rfl⟩
  exact grown.entry space i windowed.toBehind used (same space known) small

theorem Grown.occupied (grown : Grown kernelEnd except p q) (intact : Intact kernelEnd live p)
    (same : ∀ space, p.Known live space → ¬ except space) :
    q.Occupied (q.Known live) page ↔ p.Occupied (p.Known live) page :=
  (grown.directories intact same).occupied grown.statics

theorem Granted.bits (granted : Granted kernelEnd live p block q) (intact : Intact kernelEnd live p) (bound : frame < reach kernelEnd) :
    q.inUse frame = (decide (block.toNat / 4096 = frame) || p.inUse frame) := by
  have searched := intact.searched
  have far := reach_lt kernelEnd
  exact granted.allocated.inUse frame (by omega)

theorem Granted.grown (granted : Granted kernelEnd live p block q) (intact : Intact kernelEnd live p) :
    Grown kernelEnd (fun _ => False) p q := by
  apply granted.kept.grown
  · intro frame bound used
    rw [granted.bits intact bound, used, Bool.or_true]
  · exact fun _ none => none.elim

theorem Granted.spare (granted : Granted kernelEnd live p block q) (intact : Intact kernelEnd live p)
    (some_free : 0 < p.spare (windowFrames kernelEnd)) :
    q.spare (windowFrames kernelEnd) + 1 = p.spare (windowFrames kernelEnd) := by
  have near := windowFrames_le_reach kernelEnd
  exact spare_take granted.allocated.free (granted.allocated.frame_lt some_free)
    fun frame bound => granted.bits intact (by omega)

/-- One turn of the loop that copies the kernel half. -/
theorem Active.copyEntry (active : Active kernelEnd live p) (member : space ∈ live) {i : Nat} (lower : 768 ≤ i) (upper : i < 1024) :
    Active kernelEnd live (copyEntry p.kernelDirectory space p i) := by
  have small : (BitVec.ofNat 32 i).toNat < 1024 := by rwa [toNat_ofNat_index upper]
  have high : 768 ≤ (BitVec.ofNat 32 i).toNat := by rwa [toNat_ofNat_index upper]
  have looked := active.touch ((active.directory_windowed (.inl rfl)).place small)
  apply looked.store_directory (.inr member) small
  · rintro rfl
    exact absurd member active.kernel
  · intro present
    -- a present entry of the kernel directory brings its table, which is shared
    have has : (p.touch (p.kernelDirectory + 4 * BitVec.ofNat 32 i)).HasTable p.kernelDirectory (BitVec.ofNat 32 i)
        (pageOf (p.entry p.kernelDirectory (BitVec.ofNat 32 i))) := ⟨small, present, rfl⟩
    obtain ⟨windowed, used⟩ := looked.windowed _ ⟨_, .inl rfl, .inr ⟨_, has⟩⟩
    refine ⟨windowed, used, ?_, ?_⟩
    · intro known
      exact looked.apart _ _ _ (.inl rfl) known has
    · intro other second known otherHas
      rw [looked.owners _ _ _ _ _ known (.inl rfl) otherHas has, owner_shared _ _ high, owner_shared _ _ high]

theorem Active.copyEntries (active : Active kernelEnd live p) (member : space ∈ live) {source : Word}
    (kernel : p.kernelDirectory = source) {indices : List Nat} (upper : ∀ i ∈ indices, 768 ≤ i ∧ i < 1024) :
    Active kernelEnd live (indices.foldl (Paging.copyEntry source space) p) ∧
      Kept kernelEnd (· = space) p (indices.foldl (Paging.copyEntry source space) p) ∧
      (∀ frame < reach kernelEnd, (indices.foldl (Paging.copyEntry source space) p).inUse frame = p.inUse frame) ∧
      ∀ i : Word, i.toNat < 768 → (indices.foldl (Paging.copyEntry source space) p).entry space i = p.entry space i := by
  induction indices generalizing p with
  | nil => exact ⟨active, .refl p, fun _ _ => rfl, fun _ _ => rfl⟩
  | cons first rest ih =>
    obtain ⟨low, high⟩ := upper first List.mem_cons_self
    have windowed := active.directory_windowed (.inr member)
    have small : (BitVec.ofNat 32 first).toNat < 1024 := by rwa [toNat_ofNat_index high]
    have once := active.copyEntry member low high
    rw [kernel] at once
    have kept : Kept kernelEnd (· = space) p (Paging.copyEntry source space p first) :=
      (kept_touch p _).trans (kept_write windowed.toBehind small _)
    have bits (frame : Nat) (bound : frame < reach kernelEnd) :
        (Paging.copyEntry source space p first).inUse frame = p.inUse frame :=
      bits_write windowed.toBehind (p := p.touch (source + 4 * BitVec.ofNat 32 first)) active.bitmapAddr small _ bound
    obtain ⟨last, lastKept, lastBits, lower⟩ := ih once (kept.statics.kernelDirectory.trans kernel)
      fun i inside => upper i (List.mem_cons_of_mem _ inside)
    rw [List.foldl_cons]
    refine ⟨last, kept.trans lastKept, ?_, ?_⟩
    · intro frame bound
      rw [lastBits frame bound, bits frame bound]
    · intro i below
      rw [lower i below, Paging.copyEntry, entry_write windowed.aligned windowed.aligned small (by omega)]
      apply if_neg
      rintro ⟨_, rfl⟩
      rw [toNat_ofNat_index high] at below
      omega

/-- What a call of `vmm_create_address_space` that returns a directory does. -/
structure Created (kernelEnd : Word) (live : List Word) (p : Paging) (pageDir : Word) (q : Paging) : Prop where
  active : Active kernelEnd (pageDir :: live) q
  nonnull : pageDir ≠ 0
  free : p.inUse (pageDir.toNat / 4096) = false
  grown : Grown kernelEnd (fun _ => False) p q
  spare : q.spare (windowFrames kernelEnd) + 1 = p.spare (windowFrames kernelEnd)
  empty : ∀ i : Word, i.toNat < 768 → q.entry pageDir i = 0

theorem Active.createAddressSpace_cases (active : Active kernelEnd live p) (some_free : 0 < p.spare (windowFrames kernelEnd)) :
    p.createAddressSpace = (0, p) ∨ Created kernelEnd live p p.createAddressSpace.1 p.createAddressSpace.2 := by
  have near := windowFrames_le_reach kernelEnd
  have far := p.spare_mono near
  rcases active.allocBlock_cases (by omega) with nothing | granted
  · left
    simp only [Paging.createAddressSpace, nothing, ↓reduceIte]
  · right
    have nonnull := granted.behind.ne_zero active.kernelEnd_pos
    have kernel : p.kernelDirectory ≠ 0 := (active.directory_windowed (.inl rfl)).ne_zero active.kernelEnd_pos
    have windowed := granted.windowed some_free
    have vacant := granted.vacant_after active.toIntact
    have used := granted.inUse
    have less := granted.spare active.toIntact some_free
    simp only [Paging.createAddressSpace, if_neg nonnull, if_neg kernel, physToVirt_eq]
    generalize p.allocBlock.1 = pageDir at *
    generalize p.allocBlock.2 = m at *
    have cleared := granted.active.clearPage windowed vacant
    have kept : Kept kernelEnd (· = pageDir) m (m.clearPage pageDir) := kept_clearPage windowed.toBehind
    have unknown (space : Word) (known : m.Known live space) : space ≠ pageDir := by
      rintro rfl
      exact vacant ⟨_, known, .inl rfl⟩
    have bits (frame : Nat) (bound : frame < reach kernelEnd) : (m.clearPage pageDir).inUse frame = m.inUse frame :=
      inUse_clearPage_of_outside (windowed.outside granted.active.bitmapAddr bound)
    have zero (i : Word) (small : i.toNat < 1024) : (m.clearPage pageDir).entry pageDir i = 0 := by
      rw [entry_clearPage windowed.aligned windowed.aligned small, if_pos rfl]
    have added := cleared.add_space windowed (by rwa [bits _ windowed.last])
      (kept.vacant granted.active.toIntact unknown vacant) zero
    have upper (i : Nat) (inside : i ∈ List.range' 768 256) : 768 ≤ i ∧ i < 1024 := by
      rw [List.mem_range'_1] at inside
      omega
    obtain ⟨last, lastKept, lastBits, lower⟩ := added.copyEntries List.mem_cons_self
      ((granted.kept.statics.trans kept.statics).kernelDirectory) upper
    have all (frame : Nat) (bound : frame < reach kernelEnd) : ((List.range' 768 256).foldl
        (Paging.copyEntry p.kernelDirectory pageDir) (m.clearPage pageDir)).inUse frame =
          (decide (pageDir.toNat / 4096 = frame) || p.inUse frame) := by
      rw [lastBits frame bound, bits frame bound, granted.bits active.toIntact bound]
    refine ⟨last, nonnull, granted.allocated.free, ?_, ?_, ?_⟩
    · have unchanged : Kept kernelEnd (· = pageDir) p m := granted.kept.weaken fun _ none => none.elim
      apply ((unchanged.trans kept).trans lastKept).grown
      · intro frame bound used
        rw [all frame bound, used, Bool.or_true]
      · rintro _ rfl
        exact .inl granted.allocated.free
    · exact spare_take granted.allocated.free windowed.frame_lt fun frame bound => all frame (by omega)
    · intro i small
      rw [lower i small, zero i (by omega)]

end Create

end MexOS.Mm.Paging
