import MexOS.Mm.CloneCopy

/-! Address spaces whose directories and tables the processor cannot reach
through the addresses that are stored to. -/

namespace MexOS.Mm.Paging

open MexOS.Machine

/-- The page is one of the directories, or a table of one behind an entry below
`top`. -/
def Structural (p : Paging) (spaces : Word → Prop) (top : Nat) (page : Word) : Prop :=
  ∃ space, spaces space ∧ (page = space ∨ ∃ index, index.toNat < top ∧ p.HasTable space index page)

/-- The directories and their tables are in use, and none is both. What the
active directory maps where the processor stores is in use as well and none of
them. -/
structure Guarded (p : Paging) (spaces : Word → Prop) (top : Nat) (reach : Word → Prop) : Prop where
  range : top ≤ 1024
  active : spaces p.cr3
  paging : p.paging = true
  null : p.inUse 0 = true
  storage : ∀ block, p.Block block → p.inUse (block.toNat / 4096) = false → p.Clear block
  structural : ∀ page, p.Structural spaces top page → p.Taken page ∧ page ≠ 0
  levels : ∀ space other index, spaces space → spaces other → index.toNat < top → ¬ p.HasTable space index other
  frames : ∀ address entry, (pageDirectoryIndex address).toNat < top → reach address → p.translation p.cr3 address = some entry →
    p.Taken (pageOf entry) ∧ ¬ p.Structural spaces top (pageOf entry)

variable {p q : Paging} {spaces reach except : Word → Prop} {top : Nat} {space pageDir virtAddr flags index table value page address : Word}

section Guarded

/-- Looking whether a page is mapped changes nothing but the trace. -/
theorem isMapped_state (p : Paging) (pageDir address : Word) : ∃ trace, (p.isMapped pageDir address).2 = { p with trace } := by
  unfold Paging.isMapped
  dsimp only
  by_cases absent : p.entry pageDir (pageDirectoryIndex address) &&& pagePresent = 0
  · rw [getPageTable_absent absent]
    exact ⟨_, rfl⟩
  · rw [getPageTable_found false absent]
    split
    · exact ⟨_, rfl⟩
    · exact ⟨_, rfl⟩

theorem preserves_isMapped (p : Paging) (pageDir address : Word) : Preserves except p (p.isMapped pageDir address).2 := by
  obtain ⟨trace, state⟩ := isMapped_state p pageDir address
  rw [state]
  exact ⟨⟨p.sameStatics_of_update _ _ _, fun _ _ _ => rfl⟩, fun _ _ used => used, fun _ _ _ _ _ => rfl⟩

/-- The addresses of a page translate alike. -/
theorem translation_of_page {other : Word} (same : pageOf address = pageOf other) :
    p.translation pageDir address = p.translation pageDir other := by
  obtain ⟨directory, index⟩ := pageOf_eq_iff.mp same
  by_cases absent : p.entry pageDir (pageDirectoryIndex other) &&& pagePresent = 0
  · rw [translation_absent absent, translation_absent (directory ▸ absent)]
  · have has : p.HasTable pageDir (pageDirectoryIndex other) (pageOf (p.entry pageDir (pageDirectoryIndex other))) :=
      ⟨pageDirectoryIndex_lt other, absent, rfl⟩
    have alike : p.HasTable pageDir (pageDirectoryIndex address) (pageOf (p.entry pageDir (pageDirectoryIndex other))) :=
      directory.symm ▸ has
    rw [translation_found has, translation_found alike, index]

theorem Structural.directory (known : spaces space) : p.Structural spaces top space := ⟨space, known, .inl rfl⟩

theorem Structural.of_table (known : spaces space) (below : index.toNat < top) (has : p.HasTable space index table) :
    p.Structural spaces top table :=
  ⟨space, known, .inr ⟨index, below, has⟩⟩

/-- The entries below `top` of these directories map what they mapped. -/
def SameBelow (p : Paging) (spaces : Word → Prop) (top : Nat) (q : Paging) : Prop :=
  ∀ space address, spaces space → (pageDirectoryIndex address).toNat < top → q.translation space address = p.translation space address

theorem Guarded.directory (guarded : p.Guarded spaces top reach) (known : spaces space) : p.Taken space :=
  (guarded.structural space (.directory known)).1

theorem Guarded.table_taken (guarded : p.Guarded spaces top reach) (known : spaces space) (below : index.toNat < top)
    (has : p.HasTable space index table) : p.Taken table ∧ table ≠ 0 :=
  guarded.structural table (.of_table known below has)

theorem hasTable_congr (same : q.entry space index = p.entry space index) :
    q.HasTable space index table ↔ p.HasTable space index table := by
  constructor
  · exact fun has => ⟨has.small, same ▸ has.present, same ▸ has.points⟩
  · exact fun has => ⟨has.small, same.symm ▸ has.present, same.symm ▸ has.points⟩

theorem structural_congr (same : ∀ space index, spaces space → index.toNat < top → q.entry space index = p.entry space index) :
    q.Structural spaces top page ↔ p.Structural spaces top page := by
  refine exists_congr fun space => and_congr_right fun known => or_congr_right (exists_congr fun index => ?_)
  exact and_congr_right fun below => hasTable_congr (same space index known below)

/-- What is in use stays so; what is left is to look at the directories, the tables
and the frames. -/
theorem Guarded.renew (guarded : p.Guarded spaces top reach) (preserves : Preserves except p q)
    (structural : ∀ page, q.Structural spaces top page → q.Taken page ∧ page ≠ 0)
    (levels : ∀ space other index, spaces space → spaces other → index.toNat < top → ¬ q.HasTable space index other)
    (frames : ∀ address entry, (pageDirectoryIndex address).toNat < top → reach address →
      q.translation p.cr3 address = some entry → q.Taken (pageOf entry) ∧ ¬ q.Structural spaces top (pageOf entry)) :
    q.Guarded spaces top reach := by
  have cr3 : q.cr3 = p.cr3 := preserves.steady.cr3
  have bound := (guarded.directory guarded.active).bound
  refine ⟨guarded.range, ?_, preserves.steady.paging.trans guarded.paging, preserves.bits 0 (by omega) guarded.null,
    preserves.storage guarded.storage, structural, levels, ?_⟩
  · rw [cr3]
    exact guarded.active
  · rw [cr3]
    exact frames

/-- Nothing is stored in the directories and tables. -/
theorem Guarded.keep (guarded : p.Guarded spaces top reach) (preserves : Preserves except p q)
    (apart : ∀ page, p.Structural spaces top page → ¬ except page) :
    q.Guarded spaces top reach ∧ SameBelow p spaces top q := by
  have range := guarded.range
  have directory (space index : Word) (known : spaces space) (below : index.toNat < top) :
      q.entry space index = p.entry space index :=
    preserves.entry space index (guarded.directory known) (apart space (.directory known)) (by omega)
  have same : SameBelow p spaces top q := by
    intro space address known below
    refine translation_congr (directory space _ known below) fun table has => ?_
    exact preserves.entry table _ (guarded.table_taken known below has).1 (apart table (.of_table known below has)) (pageTableIndex_lt _)
  refine ⟨guarded.renew preserves ?_ ?_ ?_, same⟩
  · intro page structural
    obtain ⟨taken, nonnull⟩ := guarded.structural page ((structural_congr directory).mp structural)
    exact ⟨preserves.taken taken, nonnull⟩
  · intro space other index known otherKnown below has
    exact guarded.levels space other index known otherKnown below ((hasTable_congr (directory space index known below)).mp has)
  · intro address entry below reached found
    rw [same _ address guarded.active below] at found
    obtain ⟨taken, outside⟩ := guarded.frames address entry below reached found
    exact ⟨preserves.taken taken, fun structural => outside ((structural_congr directory).mp structural)⟩

theorem Guarded.keep_structural (guarded : p.Guarded spaces top reach) (preserves : Preserves except p q)
    (apart : ∀ page, p.Structural spaces top page → ¬ except page) : q.Structural spaces top page ↔ p.Structural spaces top page := by
  have range := guarded.range
  refine structural_congr fun space index known below => ?_
  exact preserves.entry space index (guarded.directory known) (apart space (.directory known)) (by omega)

/-- A store into a table: what it changes for the addresses behind the table. -/
structure Entered (p : Paging) (spaces : Word → Prop) (top : Nat) (table index value : Word) (q : Paging) : Prop where
  tables : ∀ space i other, spaces space → i.toNat < top → (q.HasTable space i other ↔ p.HasTable space i other)
  there : ∀ space address, spaces space → p.HasTable space (pageDirectoryIndex address) table → pageTableIndex address = index →
    q.translation space address = some value
  elsewhere : ∀ space address, spaces space → (pageDirectoryIndex address).toNat < top →
    ¬ (p.HasTable space (pageDirectoryIndex address) table ∧ pageTableIndex address = index) →
    q.translation space address = p.translation space address
  directory : ∀ space i, spaces space → i.toNat < top → q.entry space i = p.entry space i

theorem Guarded.write_entry (guarded : p.Guarded spaces top reach) (known : spaces pageDir) (below : index.toNat < top)
    (has : p.HasTable pageDir index table) {j : Word} (small : j.toNat < 1024) (present : value &&& pagePresent ≠ 0)
    (taken : p.Taken (pageOf value)) (apart : ¬ p.Structural spaces top (pageOf value)) :
    (p.write (table + 4 * j) value).Guarded spaces top reach ∧ Entered p spaces top table j value (p.write (table + 4 * j) value) := by
  obtain ⟨own, nonnull⟩ := guarded.table_taken known below has
  have range := guarded.range
  have preserves := preserves_write own small value
  have different (space : Word) (spaceKnown : spaces space) : table ≠ space := by
    rintro rfl
    exact guarded.levels pageDir table index known spaceKnown below has
  have stored (page k : Word) (aligned : Page page) (kSmall : k.toNat < 1024) :
      (p.write (table + 4 * j) value).entry page k = if table = page ∧ j = k then value else p.entry page k :=
    entry_write own.page aligned small kSmall
  have directory (space i : Word) (spaceKnown : spaces space) (iSmall : i.toNat < 1024) :
      (p.write (table + 4 * j) value).entry space i = p.entry space i :=
    (stored space i (guarded.directory spaceKnown).page iSmall).trans (if_neg fun same => different space spaceKnown same.1)
  have lower (space i : Word) (spaceKnown : spaces space) (i_below : i.toNat < top) :
      (p.write (table + 4 * j) value).entry space i = p.entry space i := directory space i spaceKnown (by omega)
  have entered : Entered p spaces top table j value (p.write (table + 4 * j) value) := by
    refine ⟨fun space i other spaceKnown i_below => hasTable_congr (lower space i spaceKnown i_below), ?_, ?_, lower⟩
    · intro space address spaceKnown behind here
      have after := (hasTable_congr (directory space _ spaceKnown (pageDirectoryIndex_lt address))).mpr behind
      have word : (p.write (table + 4 * j) value).entry table (pageTableIndex address) = value :=
        (stored table _ own.page (pageTableIndex_lt _)).trans (if_pos ⟨rfl, here.symm⟩)
      rw [translation_found after, if_neg nonnull, word, if_neg present]
    · intro space address spaceKnown address_below away
      refine translation_congr (directory space _ spaceKnown (pageDirectoryIndex_lt address)) fun other otherHas => ?_
      rw [stored other _ otherHas.page (pageTableIndex_lt _)]
      apply if_neg
      rintro ⟨rfl, rfl⟩
      exact away ⟨otherHas, rfl⟩
  refine ⟨guarded.renew preserves ?_ ?_ ?_, entered⟩
  · intro page structural
    obtain ⟨held, other⟩ := guarded.structural page ((structural_congr lower).mp structural)
    exact ⟨preserves.taken held, other⟩
  · intro space other i spaceKnown otherKnown i_below after
    exact guarded.levels space other i spaceKnown otherKnown i_below ((hasTable_congr (lower space i spaceKnown i_below)).mp after)
  · intro address entry address_below reached found
    suffices frame : p.Taken (pageOf entry) ∧ ¬ p.Structural spaces top (pageOf entry) from
      ⟨preserves.taken frame.1, fun structural => frame.2 ((structural_congr lower).mp structural)⟩
    by_cases here : p.HasTable p.cr3 (pageDirectoryIndex address) table ∧ pageTableIndex address = j
    · rw [entered.there p.cr3 address guarded.active here.1 here.2] at found
      rw [← Option.some.inj found]
      exact ⟨taken, apart⟩
    · rw [entered.elsewhere p.cr3 address guarded.active address_below here] at found
      exact guarded.frames address entry address_below reached found

section Linking

variable (linked : Linked p pageDir virtAddr table q)

include linked

/-- The new table was not in use. -/
theorem Linked.unused {other : Word} (taken : p.Taken other) : table ≠ other := by
  rintro rfl
  have free := linked.free
  rw [taken.inUse] at free
  cases free

theorem Linked.preserves : Preserves (· = pageDir) p q := by
  refine ⟨linked.steady, ?_, ?_⟩
  · intro frame bound used
    rw [linked.inUse frame bound, used, Bool.or_true]
  · intro other k taken different small
    rw [linked.entry other k taken.page taken.clear small, if_neg fun same => different same.1.symm,
      if_neg (linked.unused taken)]

theorem Linked.table_taken (clear : p.Clear table) : q.Taken table := by
  refine ⟨linked.steady.block_iff.mpr linked.member, ?_, linked.steady.clear.mpr clear⟩
  rw [linked.inUse _ linked.member.bound, decide_eq_true rfl, Bool.true_or]

theorem Linked.table_empty (own : p.Taken pageDir) (clear : p.Clear table) {j : Word} (small : j.toNat < 1024) :
    q.entry table j = 0 := by
  rw [linked.entry table j linked.member.page clear small, if_neg fun same => linked.unused own same.1.symm, if_pos rfl]

section Directories

variable (guarded : p.Guarded spaces top reach) (known : spaces pageDir)

include guarded

/-- The other entries of the directories are what they were. -/
theorem Linked.directory {i : Word} (spaceKnown : spaces space) (small : i.toNat < 1024)
    (different : ¬ (pageDir = space ∧ pageDirectoryIndex virtAddr = i)) : q.entry space i = p.entry space i := by
  have held := guarded.directory spaceKnown
  rw [linked.entry space i held.page held.clear small, if_neg different, if_neg (linked.unused held)]

include known

theorem Linked.tables (absent : p.entry pageDir (pageDirectoryIndex virtAddr) &&& pagePresent = 0) {i other : Word}
    (spaceKnown : spaces space) (below : i.toNat < top) :
    q.HasTable space i other ↔ p.HasTable space i other ∨ space = pageDir ∧ i = pageDirectoryIndex virtAddr ∧ other = table := by
  have own := guarded.directory known
  have has := linked.hasTable own.page own.clear
  have range := guarded.range
  by_cases here : pageDir = space ∧ pageDirectoryIndex virtAddr = i
  · obtain ⟨rfl, rfl⟩ := here
    constructor
    · exact fun after => .inr ⟨rfl, rfl, after.points.symm.trans has.points⟩
    · rintro (before | ⟨_, _, rfl⟩)
      · exact absurd absent before.present
      · exact has
  · rw [hasTable_congr (linked.directory guarded spaceKnown (by omega) here)]
    exact (or_iff_left fun same => here ⟨same.1.symm, same.2.1.symm⟩).symm

theorem Linked.structural (absent : p.entry pageDir (pageDirectoryIndex virtAddr) &&& pagePresent = 0)
    (after : q.Structural spaces top page) : p.Structural spaces top page ∨ page = table := by
  obtain ⟨space, spaceKnown, rfl | ⟨i, below, after⟩⟩ := after
  · exact .inl (.directory spaceKnown)
  · rcases (linked.tables guarded known absent spaceKnown below).mp after with before | ⟨_, _, rfl⟩
    · exact .inl (.of_table spaceKnown below before)
    · exact .inr rfl

/-- The table is empty, so nothing is mapped through it. -/
theorem Linked.sameBelow (absent : p.entry pageDir (pageDirectoryIndex virtAddr) &&& pagePresent = 0) (clear : p.Clear table)
    (nonnull : table ≠ 0) : SameBelow p spaces top q := by
  intro space address spaceKnown below
  have own := guarded.directory known
  by_cases here : pageDir = space ∧ pageDirectoryIndex virtAddr = pageDirectoryIndex address
  · obtain ⟨rfl, indices⟩ := here
    have before : p.translation pageDir address = none := by
      apply translation_absent
      rw [← indices]
      exact absent
    have after : q.HasTable pageDir (pageDirectoryIndex address) table := indices ▸ linked.hasTable own.page own.clear
    rw [before, translation_found after, if_neg nonnull, linked.table_empty own clear (pageTableIndex_lt _)]
    exact if_pos (by decide)
  · refine translation_congr (linked.directory guarded spaceKnown (pageDirectoryIndex_lt _) here) fun other before => ?_
    refine linked.preserves.entry other _ (guarded.table_taken spaceKnown below before).1 ?_ (pageTableIndex_lt _)
    rintro rfl
    exact guarded.levels space other _ spaceKnown known below before

end Directories

end Linking

/-- A new, empty table is linked. -/
theorem Guarded.linked (guarded : p.Guarded spaces top reach) (known : spaces pageDir)
    (absent : p.entry pageDir (pageDirectoryIndex virtAddr) &&& pagePresent = 0) (clear : p.Clear table)
    (nonnull : table ≠ 0) (linked : Linked p pageDir virtAddr table q) : q.Guarded spaces top reach := by
  have tables {space i other : Word} := @Linked.tables p q spaces reach top space pageDir virtAddr table linked guarded known absent i other
  refine guarded.renew linked.preserves ?_ ?_ ?_
  · intro page after
    rcases linked.structural guarded known absent after with before | rfl
    · obtain ⟨held, other⟩ := guarded.structural page before
      exact ⟨linked.preserves.taken held, other⟩
    · exact ⟨linked.table_taken clear, nonnull⟩
  · intro space other i spaceKnown otherKnown below after
    rcases (tables spaceKnown below).mp after with before | ⟨_, _, rfl⟩
    · exact guarded.levels space other i spaceKnown otherKnown below before
    · exact linked.unused (guarded.directory otherKnown) rfl
  · intro address entry below reached found
    rw [linked.sameBelow guarded known absent clear nonnull _ address guarded.active below] at found
    obtain ⟨held, outside⟩ := guarded.frames address entry below reached found
    refine ⟨linked.preserves.taken held, fun after => ?_⟩
    rcases linked.structural guarded known absent after with before | fresh
    · exact outside before
    · exact linked.unused held fresh.symm

/-- An entry of a directory is as before, or the one of the new table. -/
theorem Guarded.linked_directory (guarded : p.Guarded spaces top reach) (known : spaces pageDir)
    (absent : p.entry pageDir (pageDirectoryIndex virtAddr) &&& pagePresent = 0) (linked : Linked p pageDir virtAddr table q)
    {i : Word} (spaceKnown : spaces space) (below : i.toNat < top) :
    q.entry space i = p.entry space i ∨ p.entry space i &&& pagePresent = 0 ∧ q.entry space i = table ||| tableFlags virtAddr := by
  have own := guarded.directory known
  have range := guarded.range
  by_cases here : pageDir = space ∧ pageDirectoryIndex virtAddr = i
  · obtain ⟨rfl, rfl⟩ := here
    refine .inr ⟨absent, ?_⟩
    rw [linked.entry pageDir _ own.page own.clear (by omega), if_pos ⟨rfl, rfl⟩]
  · exact .inl (linked.directory guarded spaceKnown (by omega) here)

theorem tableFlags_pageOf (virtAddr : Word) : tableFlags (pageOf virtAddr) = tableFlags virtAddr := by
  have same : pageOf virtAddr < kernelVirtualBase ↔ virtAddr < kernelVirtualBase := by
    have base : kernelVirtualBase.toNat = 0xC0000000 := rfl
    rw [BitVec.lt_def, BitVec.lt_def, toNat_pageOf]
    omega
  rw [tableFlags, tableFlags, if_congr same rfl rfl]

/-- A page is mapped: how the tables and the translations change. -/
structure Placed (p : Paging) (spaces : Word → Prop) (top : Nat) (pageDir virtAddr table value : Word) (q : Paging) : Prop where
  has : q.HasTable pageDir (pageDirectoryIndex virtAddr) table
  fresh : p.HasTable pageDir (pageDirectoryIndex virtAddr) table ∨ ¬ p.Taken table
  tables : ∀ space i other, spaces space → i.toNat < top → (q.HasTable space i other ↔
    p.HasTable space i other ∨ space = pageDir ∧ i = pageDirectoryIndex virtAddr ∧ other = table)
  there : ∀ space address, spaces space → (pageDirectoryIndex address).toNat < top → q.HasTable space (pageDirectoryIndex address) table →
    pageTableIndex address = pageTableIndex virtAddr → q.translation space address = some value
  elsewhere : ∀ space address, spaces space → (pageDirectoryIndex address).toNat < top →
    ¬ (q.HasTable space (pageDirectoryIndex address) table ∧ pageTableIndex address = pageTableIndex virtAddr) →
    q.translation space address = p.translation space address
  directory : ∀ space i, spaces space → i.toNat < top → q.entry space i = p.entry space i ∨
    p.entry space i &&& pagePresent = 0 ∧ q.entry space i = table ||| tableFlags virtAddr

/-- The store that ends `vmm_map_page`, in a state in which the table is there. -/
theorem Guarded.placed {m : Paging} (guarded : m.Guarded spaces top reach) (known : spaces pageDir) (below : (pageDirectoryIndex virtAddr).toNat < top)
    (preserves : Preserves (p.Structural spaces top) p m) (same : SameBelow p spaces top m)
    (has : m.HasTable pageDir (pageDirectoryIndex virtAddr) table)
    (fresh : p.HasTable pageDir (pageDirectoryIndex virtAddr) table ∨ ¬ p.Taken table)
    (tables : ∀ space i other, spaces space → i.toNat < top → (m.HasTable space i other ↔
      p.HasTable space i other ∨ space = pageDir ∧ i = pageDirectoryIndex virtAddr ∧ other = table))
    (directory : ∀ space i, spaces space → i.toNat < top → m.entry space i = p.entry space i ∨
      p.entry space i &&& pagePresent = 0 ∧ m.entry space i = table ||| tableFlags virtAddr)
    (present : value &&& pagePresent ≠ 0) (taken : m.Taken (pageOf value)) (apart : ¬ m.Structural spaces top (pageOf value)) :
    (m.write (table + 4 * pageTableIndex virtAddr) value).Guarded spaces top reach ∧
      Preserves (p.Structural spaces top) p (m.write (table + 4 * pageTableIndex virtAddr) value) ∧
      Placed p spaces top pageDir virtAddr table value (m.write (table + 4 * pageTableIndex virtAddr) value) := by
  have small := pageTableIndex_lt virtAddr
  obtain ⟨after, entered⟩ := guarded.write_entry known below has small present taken apart
  have stored := preserves_write (guarded.table_taken known below has).1 small value
  refine ⟨after, ?_, (entered.tables pageDir _ table known below).mpr has, fresh, ?_, ?_, ?_, ?_⟩
  · rcases fresh with before | unused
    · exact preserves.trans (stored.weaken fun other same => same ▸ .of_table known below before)
    · exact preserves.unused stored fun page taken same => unused (same ▸ taken)
  · exact fun space i other spaceKnown i_below => (entered.tables space i other spaceKnown i_below).trans (tables space i other spaceKnown i_below)
  · intro space address spaceKnown address_below behind here
    exact entered.there space address spaceKnown
      ((entered.tables space _ table spaceKnown (address_below)).mp behind) here
  · intro space address spaceKnown address_below away
    rw [entered.elsewhere space address spaceKnown address_below, same space address spaceKnown address_below]
    rw [← entered.tables space _ table spaceKnown (address_below)]
    exact away
  · intro space i spaceKnown i_below
    rw [entered.directory space i spaceKnown i_below]
    exact directory space i spaceKnown i_below

theorem Guarded.mapPage (guarded : p.Guarded spaces top reach) (known : spaces pageDir) (below : (pageDirectoryIndex virtAddr).toNat < top)
    (taken : p.Taken page) (apart : ¬ p.Structural spaces top page) (small : flags.toNat < 0x1000)
    (present : flags &&& pagePresent ≠ 0) :
    ((p.mapPage pageDir virtAddr page flags).1 ≠ 0 ∧ ∃ address, (p.mapPage pageDir virtAddr page flags).2 = p.touch address) ∨
      (p.mapPage pageDir virtAddr page flags).1 = 0 ∧ (p.mapPage pageDir virtAddr page flags).2.Guarded spaces top reach ∧
        Preserves (p.Structural spaces top) p (p.mapPage pageDir virtAddr page flags).2 ∧
        ∃ table, Placed p spaces top pageDir virtAddr table (page ||| flags) (p.mapPage pageDir virtAddr page flags).2 := by
  have own := guarded.directory known
  have value : pageOf (page ||| flags) = page := pageOf_or taken.page small
  have clear (granted : p.allocBlock.1 ≠ 0) : p.Clear p.allocBlock.1 := by
    have allocated := allocBlock_returned granted
    exact guarded.storage _ allocated.member allocated.free
  have cases := getPageTable_cases own.page own.clear guarded.null clear (pageOf virtAddr)
  rcases cases with ⟨has, state⟩ | ⟨missing, ⟨_, failed⟩ | ⟨result, granted, linked⟩⟩
  · rw [pageDirectoryIndex_pageOf] at has
    have nonnull := (guarded.table_taken known below has).2
    rw [mapPage_reached nonnull, state, pageTableIndex_pageOf, pageOf_of_page taken.page]
    generalize (p.getPageTable pageDir (pageOf virtAddr) true).1 = table at *
    obtain ⟨looked, same⟩ := guarded.keep (preserves_touch p (slot pageDir (pageOf virtAddr))) fun _ _ => id
    have still : ¬ (p.touch (slot pageDir (pageOf virtAddr))).Structural spaces top page :=
      fun structural => apart ((structural_congr (p := p) (q := p.touch _) fun _ _ _ _ => rfl).mp structural)
    have tables (space i other : Word) (_ : spaces space) (_ : i.toNat < top) :
        (p.touch (slot pageDir (pageOf virtAddr))).HasTable space i other ↔
          p.HasTable space i other ∨ space = pageDir ∧ i = pageDirectoryIndex virtAddr ∧ other = table := by
      refine (hasTable_congr (p := p) (q := p.touch _) rfl).trans (or_iff_left_of_imp ?_).symm
      rintro ⟨rfl, rfl, rfl⟩
      exact has
    obtain ⟨after, preserves, placed⟩ := looked.placed known below (preserves_touch p _) same (has.touch _) (.inl has) tables
      (fun _ _ _ _ => .inl rfl) (present_or present) (value.symm ▸ taken.touch _) (value.symm ▸ still)
    exact .inr ⟨rfl, after, preserves, table, placed⟩
  · rw [mapPage_null (by rw [failed]), failed]
    have minus : (-1 : Int) ≠ 0 := by decide
    exact .inl ⟨minus, _, rfl⟩
  · rw [mapPage_reached (by rwa [result]), result, pageTableIndex_pageOf, pageOf_of_page taken.page]
    have looked := guarded.linked known missing (clear granted) granted linked
    have has := linked.hasTable own.page own.clear
    have tables (space i other : Word) := @Linked.tables p _ spaces reach top space pageDir _ _ linked guarded known missing i other
    have directory (space i : Word) := @Guarded.linked_directory p _ spaces reach top space pageDir _ _ guarded known missing linked i
    rw [pageDirectoryIndex_pageOf] at has
    simp only [pageDirectoryIndex_pageOf] at tables
    simp only [tableFlags_pageOf] at directory
    have still : ¬ (p.getPageTable pageDir (pageOf virtAddr) true).2.Structural spaces top page := fun after =>
      (linked.structural guarded known missing after).elim apart fun fresh => linked.unused taken fresh.symm
    obtain ⟨after, kept, placed⟩ := looked.placed known below (linked.preserves.weaken fun other same => same ▸ .directory known)
      (linked.sameBelow guarded known missing (clear granted) granted) has (.inr fun held => linked.unused held rfl) tables directory
      (present_or present) (value.symm ▸ linked.preserves.taken taken) (value.symm ▸ still)
    exact .inr ⟨rfl, after, kept, _, placed⟩

/-- What a call of `vmm_alloc_page` can do. -/
theorem Guarded.allocPage (guarded : p.Guarded spaces top reach) (known : spaces pageDir) (below : (pageDirectoryIndex virtAddr).toNat < top)
    (small : flags.toNat < 0x1000) :
    (p.allocPage pageDir virtAddr flags).2.Guarded spaces top reach ∧
      Preserves (p.Structural spaces top) p (p.allocPage pageDir virtAddr flags).2 ∧
      (((p.allocPage pageDir virtAddr flags).1 ≠ 0 ∧ Preserves (fun _ => False) p (p.allocPage pageDir virtAddr flags).2) ∨
        (p.allocPage pageDir virtAddr flags).1 = 0 ∧ ∃ table block, p.Block block ∧
          p.inUse (block.toNat / 4096) = false ∧ Placed p spaces top pageDir virtAddr table (block ||| (flags ||| pagePresent))
            (p.allocPage pageDir virtAddr flags).2) := by
  have minus : (-1 : Int) ≠ 0 := by decide
  by_cases returned : p.allocBlock.1 = 0
  · simp only [Paging.allocPage, allocBlock_failed guarded.null returned, ↓reduceIte]
    exact ⟨guarded, .refl p, .inl ⟨minus, .refl p⟩⟩
  · have allocated := allocBlock_returned returned
    have clear := guarded.storage _ allocated.member allocated.free
    simp only [Paging.allocPage, returned, ↓reduceIte]
    generalize p.allocBlock.1 = page at *
    generalize p.allocBlock.2 = m at *
    have range := guarded.range
    have preserves : Preserves (fun _ => False) p m := allocated.preserves
    obtain ⟨marked, same⟩ := guarded.keep preserves fun _ _ => id
    have taken : m.Taken page := by
      refine ⟨preserves.steady.block_iff.mpr allocated.member, ?_, preserves.steady.clear.mpr clear⟩
      rw [allocated.inUse _ allocated.member.bound, decide_eq_true rfl, Bool.true_or]
    have directory (space i : Word) (spaceKnown : spaces space) (i_below : i.toNat < top) : m.entry space i = p.entry space i :=
      preserves.entry space i (guarded.directory spaceKnown) id (by omega)
    have apart : ¬ m.Structural spaces top page := by
      intro structural
      have held := (guarded.structural page ((structural_congr directory).mp structural)).1
      exact allocated.ne_of_inUse held.inUse rfl
    have bits : (flags ||| pagePresent).toNat < 0x1000 := by
      rw [BitVec.toNat_or]
      exact @Nat.or_lt_two_pow _ _ 12 small (by decide)
    rcases marked.mapPage known below taken apart bits (present_or (by decide)) with
      ⟨failed, address, touched⟩ | ⟨mapped, after, kept, table, placed⟩
    · rw [if_pos failed, touched]
      have back : Preserves (fun _ => False) p ((m.touch address).freeBlock page) := allocated.undone address
      exact ⟨(guarded.keep back fun _ _ => id).1, back.weaken fun _ => False.elim, .inl ⟨minus, back⟩⟩
    · rw [if_neg (not_not_intro mapped)]
      have tables (space i other : Word) (spaceKnown : spaces space) (i_below : i.toNat < top) :
          m.HasTable space i other ↔ p.HasTable space i other := hasTable_congr (directory space i spaceKnown i_below)
      refine ⟨after, ?_, .inr ⟨rfl, table, page, allocated.member, allocated.free, placed.has, ?_, ?_, placed.there, ?_, ?_⟩⟩
      · exact (preserves.weaken fun _ => False.elim).trans (kept.weaken fun other => (structural_congr directory).mp)
      · exact placed.fresh.imp (tables pageDir _ table known below).mp fun unused held => unused (preserves.taken held)
      · exact fun space i other spaceKnown i_below =>
          (placed.tables space i other spaceKnown i_below).trans (or_congr_left (tables space i other spaceKnown i_below))
      · exact fun space address spaceKnown address_below away =>
          (placed.elsewhere space address spaceKnown address_below away).trans (same space address spaceKnown address_below)
      · intro space i spaceKnown i_below
        rw [← directory space i spaceKnown i_below]
        exact placed.directory space i spaceKnown i_below

theorem Placed.maps (placed : Placed p spaces top pageDir virtAddr table value q) (known : spaces pageDir)
    (below : (pageDirectoryIndex virtAddr).toNat < top) (same : pageOf address = pageOf virtAddr) :
    q.translation pageDir address = some value := by
  obtain ⟨directory, index⟩ := pageOf_eq_iff.mp same
  exact placed.there pageDir address known (directory ▸ below) (directory ▸ placed.has) index

/-- What was mapped stays so. -/
theorem Placed.mapped (placed : Placed p spaces top pageDir virtAddr table value q) (known : spaces space)
    (below : (pageDirectoryIndex address).toNat < top) (mapped : (p.translation space address).isSome = true) :
    (q.translation space address).isSome = true := by
  by_cases here : q.HasTable space (pageDirectoryIndex address) table ∧ pageTableIndex address = pageTableIndex virtAddr
  · rw [placed.there space address known below here.1 here.2]
    rfl
  · rw [placed.elsewhere space address known below here]
    exact mapped

end Guarded

section Standing

variable {src : Word}

/-- The frame that an address is mapped to is a block of its table. -/
theorem mem_pageBlocks_of_translation {entry : Word} (found : p.translation src address = some entry) :
    ∃ table, p.HasTable src (pageDirectoryIndex address) table ∧ pageOf entry ∈ p.pageBlocks table := by
  obtain ⟨table, has, _, present, rfl⟩ := translation_some_iff.mp found
  exact ⟨table, has, mem_pageBlocks (pageTableIndex_lt address) present⟩

/-- No page of an address space is its directory or one of its tables. -/
theorem Standing.page_apart (standing : Standing p src) {block : Word} (user : index.toNat < 768) (has : p.HasTable src index table)
    (member : block ∈ p.pageBlocks table) : ¬ p.Structural (fun space => space = src) 768 block := by
  obtain ⟨blocks, _, apart⟩ := List.nodup_append.mp standing.distinct
  have inside : block ∈ p.tableBlocks src index.toNat := by
    rw [has.tableBlocks_eq]
    exact List.mem_append_left _ member
  rintro ⟨space, rfl, rfl | ⟨other, other_user, otherHas⟩⟩
  · exact apart block (List.mem_flatMap.mpr ⟨_, List.mem_range.mpr user, inside⟩) block (List.mem_singleton_self _) rfl
  · have insideOther : block ∈ p.tableBlocks space other.toNat := by
      rw [otherHas.tableBlocks_eq]
      exact List.mem_append_right _ (List.mem_singleton_self _)
    have same := eq_of_mem_flatMap_nodup blocks (List.mem_range.mpr user) (List.mem_range.mpr other_user) inside insideOther
    obtain rfl := BitVec.eq_of_toNat_eq same
    have own := (List.nodup_flatMap.mp blocks).1 _ (List.mem_range.mpr user)
    rw [has.tableBlocks_eq] at own
    have equal : table = block := has.points.symm.trans otherHas.points
    exact (List.nodup_append.mp own).2.2 block member table (List.mem_singleton_self _) equal.symm

/-- An address space that the kernel has built is guarded while it is active. -/
theorem Standing.guarded (standing : Standing p src) (paging : p.paging = true) (active : p.cr3 = src) :
    p.Guarded (fun space => space = src) 768 reach := by
  refine ⟨by decide, active, paging, standing.ready.null, standing.ready.storage, ?_, ?_, ?_⟩
  · rintro page ⟨space, rfl, rfl | ⟨other, user, has⟩⟩
    · exact ⟨standing.directory, standing.nonnull _ (Owns.mem_directory p _)⟩
    · exact ⟨standing.hasTable_taken has user, standing.nonnull _ (Owns.mem_table has user)⟩
  · rintro space other other_index rfl rfl user has
    exact table_ne_directory standing.distinct has user rfl
  · intro address entry half _ found
    rw [active] at found
    obtain ⟨table, has, member⟩ := mem_pageBlocks_of_translation found
    exact ⟨standing.taken _ (has.mem_owned half (List.mem_append_left _ member)), standing.page_apart half has member⟩

/-- Two pages of it have two frames. -/
theorem Standing.single (standing : Standing p src) {first second one other : Word} (user : first < kernelVirtualBase)
    (userToo : second < kernelVirtualBase) (found : p.translation src first = some one)
    (again : p.translation src second = some other) (same : pageOf one = pageOf other) : pageOf first = pageOf second := by
  obtain ⟨table, has, _, present, rfl⟩ := translation_some_iff.mp found
  obtain ⟨table', has', _, present', rfl⟩ := translation_some_iff.mp again
  have half := pageDirectoryIndex_user user
  have halfToo := pageDirectoryIndex_user userToo
  have blocks := (List.nodup_append.mp standing.distinct).1
  have inside {index table j : Word} (has : p.HasTable src index table) (small : j.toNat < 1024)
      (present : p.entry table j &&& pagePresent ≠ 0) : pageOf (p.entry table j) ∈ p.tableBlocks src index.toNat := by
    rw [has.tableBlocks_eq]
    exact List.mem_append_left _ (mem_pageBlocks small present)
  have directory := eq_of_mem_flatMap_nodup blocks (List.mem_range.mpr half) (List.mem_range.mpr halfToo)
    (inside has (pageTableIndex_lt first) present) (same ▸ inside has' (pageTableIndex_lt second) present')
  have indices := BitVec.eq_of_toNat_eq directory
  have tables : table' = table := has'.points.symm.trans (indices ▸ has.points)
  subst tables
  refine pageOf_eq_iff.mpr ⟨indices, BitVec.eq_of_toNat_eq ?_⟩
  have own := (List.nodup_flatMap.mp blocks).1 _ (List.mem_range.mpr half)
  rw [has.tableBlocks_eq] at own
  have slot {j : Word} (present : p.entry table' j &&& pagePresent ≠ 0) :
      pageOf (p.entry table' j) ∈ entryBlock (p.entry table' (BitVec.ofNat 32 j.toNat)) := by
    rw [ofNat_toNat_index, entryBlock_present present]
    exact List.mem_singleton_self _
  exact eq_of_mem_flatMap_nodup (List.nodup_append.mp own).1 (List.mem_range.mpr (pageTableIndex_lt first))
    (List.mem_range.mpr (pageTableIndex_lt second)) (slot present) (same ▸ slot present')

end Standing

section Stores

theorem Guarded.walk (guarded : p.Guarded spaces top reach) (below : (pageDirectoryIndex address).toNat < top) :
    p.walk address = (p.translation p.cr3 address).map fun entry => pageOf entry ||| (address &&& 0xFFF) := by
  have aligned := (guarded.directory guarded.active).page
  rw [Paging.walk, if_pos guarded.paging, pageOf_of_page aligned]
  dsimp only
  by_cases absent : p.entry p.cr3 (pageDirectoryIndex address) &&& pagePresent = 0
  · rw [translation_absent absent]
    exact if_pos absent
  · have has : p.HasTable p.cr3 (pageDirectoryIndex address) (pageOf (p.entry p.cr3 (pageDirectoryIndex address))) :=
      ⟨pageDirectoryIndex_lt address, absent, rfl⟩
    rw [translation_found has, if_neg (guarded.table_taken guarded.active below has).2]
    refine (if_neg absent).trans ?_
    by_cases unset : p.entry (pageOf (p.entry p.cr3 (pageDirectoryIndex address))) (pageTableIndex address) &&& pagePresent = 0
    · rw [if_pos unset]
      exact if_pos unset
    · rw [if_neg unset]
      exact if_neg unset

theorem preserves_storeByte {place : Word} (taken : p.Taken page) (inside : (place - page).toNat < 4096) (value : Byte) :
    Preserves (· = page) p { p with mem := storeByte p.mem place value } := by
  refine ⟨⟨p.sameStatics_of_update _ _ _, ?_⟩, ?_, ?_⟩
  · intro byte _ below
    have far := taken.clear byte below
    apply Function.update_of_ne
    rintro rfl
    omega
  · intro frame bound used
    obtain ⟨behind, before⟩ := taken.clear.outside (p.word_lt bound)
    have same : loadWord (storeByte p.mem place value) (p.bitmapWord (frame / 32)) = loadWord p.mem (p.bitmapWord (frame / 32)) := by
      apply loadWord_congr
      intro lane small
      apply Function.update_of_ne
      bv_omega
    exact (congrArg (fun word => word.getLsbD (frame % 32)) same).trans used
  · intro other index held different small
    have outside := outside_of_ne taken.page held.page (Ne.symm different) small
    obtain ⟨behind, before⟩ := outside
    apply loadWord_congr
    intro lane laneSmall
    apply Function.update_of_ne
    bv_omega

/-- A store through the active directory. -/
theorem Guarded.storeByte (guarded : p.Guarded spaces top reach) (below : (pageDirectoryIndex address).toNat < top) (reached : reach address)
    {frame : Word} (walked : p.walk address = some frame) (value : Byte) : ∃ entry, p.translation p.cr3 address = some entry ∧
      frame = pageOf entry ||| (address &&& 0xFFF) ∧
      Preserves (· = pageOf entry) p { p with mem := Machine.storeByte p.mem frame value } ∧
      Guarded { p with mem := Machine.storeByte p.mem frame value } spaces top reach ∧
      SameBelow p spaces top { p with mem := Machine.storeByte p.mem frame value } := by
  rw [guarded.walk below] at walked
  obtain ⟨entry, found, rfl⟩ := Option.map_eq_some_iff.mp walked
  obtain ⟨taken, outside⟩ := guarded.frames address entry below reached found
  have inside : ((pageOf entry ||| (address &&& 0xFFF)) - pageOf entry).toNat < 4096 := by
    have page := toNat_pageOf (pageOf entry ||| (address &&& 0xFFF))
    rw [pageOf_or (page_pageOf entry) (offset_lt address)] at page
    bv_omega
  have preserves := preserves_storeByte taken inside value
  obtain ⟨after, same⟩ := guarded.keep preserves fun page structural here => outside (here ▸ structural)
  exact ⟨entry, found, rfl, preserves, after, same⟩

end Stores

end MexOS.Mm.Paging
