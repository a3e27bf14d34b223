import MexOS.Mm.CloneRun

/-! An address space that was built by `vmm_create_address_space` and
`vmm_alloc_page`, and its clone. -/

namespace MexOS.Mm.Paging

open MexOS.Machine

variable {b p q : Paging} {src dst virtAddr flags index table value page block : Word}
  {except : Word → Prop}

section Building

/-- A block that is free now was free before. -/
theorem Preserves.storage (preserves : Preserves except p q)
    (storage : ∀ block, p.Block block → p.inUse (block.toNat / 4096) = false → p.Clear block) :
    ∀ block, q.Block block → q.inUse (block.toNat / 4096) = false → q.Clear block := by
  intro block known free
  have before := preserves.steady.block_iff.mp known
  refine preserves.steady.clear.mpr (storage block before ?_)
  by_contra used
  rw [preserves.bits _ before.bound (Bool.eq_true_of_not_eq_false used)] at free
  cases free

theorem Preserves.settled (preserves : Preserves except p q) (settled : p.Settled) (some_frame : 0 < p.searched) : q.Settled where
  null := preserves.bits 0 some_frame settled.null
  storage := preserves.storage settled.storage
  kernel := by
    rw [preserves.steady.kernelDirectory]
    exact fun nonnull => preserves.bits _ (settled.known nonnull) (settled.kernel nonnull)
  known := by
    rw [preserves.steady.kernelDirectory, preserves.steady.searched]
    exact settled.known

theorem Standing.some_frame (standing : Standing p src) : 0 < p.searched :=
  Nat.lt_of_le_of_lt (Nat.zero_le _) standing.directory.bound

theorem Standing.hasTable_taken (standing : Standing p src) (has : p.HasTable src index table) (user : index.toNat < 768) :
    p.Taken table :=
  standing.taken table (Owns.mem_table has user)

/-- The directory and the tables are left alone. -/
theorem owned_eq
    (entry : ∀ page index, page ∈ p.owned src → index.toNat < 1024 → q.entry page index = p.entry page index) :
    q.owned src = p.owned src := by
  refine owned_congr ?_ ?_
  · exact fun i user => entry src i (Owns.mem_directory p src) (by omega)
  · exact fun i table user has j small => entry table j (Owns.mem_table has user) small

theorem Standing.keep (standing : Standing p src) (preserves : Preserves (fun _ => False) p q) : Standing q src := by
  have same := owned_eq fun page index member small => preserves.entry page index (standing.taken page member) id small
  refine ⟨preserves.settled standing.ready standing.some_frame, ?_, ?_, ?_⟩
  · rw [same]
    exact standing.distinct
  · rw [same]
    exact fun block member => preserves.taken (standing.taken block member)
  · rw [same]
    exact standing.nonnull

/-- A table entry gets a page that is not in the address space yet; what it had
before is let go. -/
theorem Standing.write_entry (standing : Standing p src) (has : p.HasTable src index table) (user : index.toNat < 768) {j : Word}
    (small : j.toNat < 1024) (points : entryBlock value = [page]) (taken : p.Taken page) (nonnull : page ≠ 0)
    (fresh : page ∉ p.owned src) :
    Standing (p.write (table + 4 * j) value) src := by
  have own := standing.hasTable_taken has user
  have aligned := standing.directory.page
  have different := table_ne_directory standing.distinct has user
  have preserves := preserves_write own small value
  have stored (last other k : Word) (other_ : Page other) (kSmall : k.toNat < 1024) :
      (p.write (table + 4 * j) last).entry other k = if table = other ∧ j = k then last else p.entry other k :=
    entry_write has.page other_ small kSmall
  have directory (last i : Word) (iSmall : i.toNat < 768) : (p.write (table + 4 * j) last).entry src i = p.entry src i :=
    (stored last src i aligned (by omega)).trans (if_neg fun same => different same.1)
  have before := cleared_perm standing.distinct aligned has user small
  have after : ((p.write (table + 4 * j) value).owned src).Perm (entryBlock value ++ (p.write (table + 4 * j) 0).owned src) := by
    have cleared : (p.write (table + 4 * j) 0).HasTable src index table :=
      ⟨has.small, (directory 0 index user).symm ▸ has.present, (directory 0 index user).symm ▸ has.points⟩
    refine owned_perm_of_entry cleared user small ?_ ?_ ?_ ?_
    · intro other otherUser again
      have old : p.HasTable src other table :=
        ⟨again.small, directory 0 other otherUser ▸ again.present, directory 0 other otherUser ▸ again.points⟩
      exact table_once standing.distinct has user otherUser old
    · rw [stored 0 table j has.page small, if_pos ⟨rfl, rfl⟩]
      decide
    · intro i iSmall
      rw [directory value i iSmall, directory 0 i iSmall]
    · intro i other iSmall otherHas k kSmall
      rw [stored value other k otherHas.page kSmall, stored 0 other k otherHas.page kSmall]
      split
      · rfl
      · rfl
  rw [points, List.singleton_append] at after
  have rest (block : Word) (member : block ∈ (p.write (table + 4 * j) 0).owned src) : block ∈ p.owned src :=
    before.symm.subset (List.mem_append_right _ member)
  refine ⟨preserves.settled standing.ready standing.some_frame, ?_, ?_, ?_⟩
  · refine after.symm.nodup (List.nodup_cons.mpr ⟨fun member => fresh (rest page member), ?_⟩)
    exact (List.nodup_append.mp (before.nodup standing.distinct)).2.1
  · intro block member
    rcases List.mem_cons.mp (after.subset member) with rfl | old
    · exact preserves.taken taken
    · exact preserves.taken (standing.taken block (rest block old))
  · intro block member
    rcases List.mem_cons.mp (after.subset member) with rfl | old
    · exact nonnull
    · exact standing.nonnull block (rest block old)

/-- A new table is linked. -/
theorem Standing.linked (standing : Standing p src) (user : (pageDirectoryIndex virtAddr).toNat < 768)
    (absent : p.entry src (pageDirectoryIndex virtAddr) &&& pagePresent = 0) (clear : p.Clear table)
    (nonnull : table ≠ 0) (linked : Linked p src virtAddr table q) :
    Standing q src ∧ q.HasTable src (pageDirectoryIndex virtAddr) table ∧ Preserves (· = src) p q ∧
      ∀ block ∈ q.owned src, block = table ∨ block ∈ p.owned src := by
  have aligned := standing.directory.page
  have dirClear := standing.directory.clear
  have unused (other : Word) (taken : p.Taken other) : table ≠ other := by
    rintro rfl
    have free := linked.free
    rw [taken.inUse] at free
    cases free
  have preserves : Preserves (· = src) p q := by
    refine ⟨linked.steady, ?_, ?_⟩
    · intro frame bound used
      rw [linked.inUse frame bound, used, Bool.or_true]
    · intro other k taken different small
      rw [linked.entry other k taken.page taken.clear small, if_neg fun same => different same.1.symm,
        if_neg (unused other taken)]
  have has := linked.hasTable aligned dirClear
  have notDirectory := (unused src standing.directory).symm
  have empty (j : Word) (small : j.toNat < 1024) : q.entry table j = 0 := by
    rw [linked.entry table j linked.member.page clear small, if_neg fun same => notDirectory same.1, if_pos rfl]
  have after : (q.owned src).Perm (q.pageBlocks table ++ [table] ++ p.owned src) := by
    refine owned_perm_of_table user absent has ?_ ?_
    · intro i small different
      rw [linked.entry src i aligned dirClear (by omega), if_neg fun same => different same.2.symm,
        if_neg (Ne.symm notDirectory)]
    · intro i other small otherHas j jSmall
      exact preserves.entry other j (standing.hasTable_taken otherHas small) (table_ne_directory standing.distinct otherHas small) jSmall
  rw [pageBlocks_empty empty, List.nil_append, List.singleton_append] at after
  have tableTaken : q.Taken table := by
    refine ⟨preserves.steady.block_iff.mpr linked.member, ?_, preserves.steady.clear.mpr clear⟩
    rw [linked.inUse _ linked.member.bound, decide_eq_true rfl, Bool.true_or]
  refine ⟨⟨preserves.settled standing.ready standing.some_frame, ?_, ?_, ?_⟩, has, preserves, ?_⟩
  · refine after.symm.nodup (List.nodup_cons.mpr ⟨?_, standing.distinct⟩)
    exact fun member => unused table (standing.taken table member) rfl
  · intro block member
    rcases List.mem_cons.mp (after.subset member) with rfl | old
    · exact tableTaken
    · exact preserves.taken (standing.taken block old)
  · intro block member
    rcases List.mem_cons.mp (after.subset member) with rfl | old
    · exact nonnull
    · exact standing.nonnull block old
  · exact fun block member => List.mem_cons.mp (after.subset member)

/-- The page that was taken for it is mapped, or the call fails and changes
nothing. -/
theorem Standing.mapPage (standing : Standing p src) (user : virtAddr < kernelVirtualBase) (taken : p.Taken page)
    (nonnull : page ≠ 0) (fresh : page ∉ p.owned src) (small : flags.toNat < 0x1000) (present : flags &&& pagePresent ≠ 0) :
    Standing (p.mapPage src virtAddr page flags).2 src ∧
      ((p.mapPage src virtAddr page flags).1 ≠ 0 → ∃ address, (p.mapPage src virtAddr page flags).2 = p.touch address) := by
  have half : (pageDirectoryIndex (pageOf virtAddr)).toNat < 768 := pageDirectoryIndex_user (pageOf_user user)
  have block : entryBlock (pageOf page ||| flags) = [page] := by
    rw [entryBlock_present (present_or present), pageOf_or (page_pageOf page) small, pageOf_of_page taken.page]
  have clear (granted : p.allocBlock.1 ≠ 0) : p.Clear p.allocBlock.1 := by
    have allocated := allocBlock_returned granted
    exact standing.ready.storage _ allocated.member allocated.free
  rcases getPageTable_cases standing.directory.page standing.directory.clear standing.ready.null clear (pageOf virtAddr) with
    ⟨has, state⟩ | ⟨missing, ⟨_, failed⟩ | ⟨result, granted, linked⟩⟩
  · have reached := standing.nonnull _ (Owns.mem_table has half)
    rw [mapPage_reached reached, state]
    have looked : Standing (p.touch (slot src (pageOf virtAddr))) src := standing.keep (preserves_touch p _)
    exact ⟨looked.write_entry (has.touch _) half (pageTableIndex_lt _) block (taken.touch _) nonnull
      fresh, fun failed => absurd rfl failed⟩
  · rw [mapPage_null (by rw [failed]), failed]
    exact ⟨standing.keep (preserves_touch p _), fun _ => ⟨_, rfl⟩⟩
  · rw [mapPage_reached (by rwa [result]), result]
    obtain ⟨after, has, preserves, blocks⟩ := standing.linked half missing (clear granted) granted linked
    refine ⟨after.write_entry has half (pageTableIndex_lt _) block (preserves.taken taken) nonnull ?_, fun failed => absurd rfl failed⟩
    intro member
    rcases blocks page member with rfl | old
    · have free := linked.free
      rw [taken.inUse] at free
      cases free
    · exact fresh old

/-- Whatever `vmm_alloc_page` returns, also for an address that is mapped
already. -/
theorem Standing.allocPage (standing : Standing p src) (user : virtAddr < kernelVirtualBase) (small : flags.toNat < 0x1000) :
    Standing (p.allocPage src virtAddr flags).2 src := by
  by_cases returned : p.allocBlock.1 = 0
  · simp only [Paging.allocPage, allocBlock_failed standing.ready.null returned, ↓reduceIte]
    exact standing
  · have allocated := allocBlock_returned returned
    have clear := standing.ready.storage _ allocated.member allocated.free
    simp only [Paging.allocPage, returned, ↓reduceIte]
    generalize p.allocBlock.1 = page at *
    generalize p.allocBlock.2 = m at *
    have preserves : Preserves (fun _ => False) p m := allocated.preserves
    have after := standing.keep preserves
    have taken : m.Taken page := by
      refine ⟨preserves.steady.block_iff.mpr allocated.member, ?_, preserves.steady.clear.mpr clear⟩
      rw [allocated.inUse _ allocated.member.bound, decide_eq_true rfl, Bool.true_or]
    have fresh : page ∉ m.owned src := by
      rw [owned_eq fun page index member small => preserves.entry page index (standing.taken page member) id small]
      exact fun member => allocated.ne_of_inUse (standing.taken page member).inUse rfl
    have bits : (flags ||| pagePresent).toNat < 0x1000 := by
      rw [BitVec.toNat_or]
      exact Nat.or_lt_two_pow (n := 12) small (by decide)
    obtain ⟨mapped, failing⟩ := after.mapPage user taken returned fresh bits (present_or (by decide))
    split
    · next failed =>
      obtain ⟨address, same⟩ := failing failed
      rw [same]
      have freed := freeBlock_freed (taken.touch address).toBlock
      refine standing.keep ⟨preserves.steady.trans ((m.steady_touch address).trans freed.steady), ?_, ?_⟩
      · intro frame bound used
        have different : page.toNat / 4096 ≠ frame := by
          rintro rfl
          have free := allocated.free
          rw [used] at free
          cases free
        rw [freed.inUse frame (by rwa [(m.steady_touch address).searched, preserves.steady.searched]),
          decide_eq_false different]
        exact preserves.bits frame bound used
      · intro other k held _ kSmall
        have before := preserves.taken held
        exact (freed.entry other k before.clear kSmall).trans (preserves.entry other k held id kSmall)
    · exact mapped

/-- Anything else that happens meanwhile: it gives back none of the blocks and
stores nothing in the directory and the tables. -/
structure Elsewhere (src : Word) (p q : Paging) : Prop where
  ready : q.Settled
  steady : Steady p q
  inUse : ∀ block ∈ p.owned src, q.inUse (block.toNat / 4096) = true
  directory : ∀ i : Word, i.toNat < 768 → q.entry src i = p.entry src i
  tables : ∀ i table, i.toNat < 768 → p.HasTable src i table → ∀ j : Word, j.toNat < 1024 → q.entry table j = p.entry table j

/-- A step in which an address space is built. -/
inductive Building (src : Word) : Paging → Paging → Prop
  | alloc (p : Paging) (virtAddr flags : Word) : virtAddr < kernelVirtualBase → flags.toNat < 0x1000 →
    Building src p (p.allocPage src virtAddr flags).2
  | other {p q : Paging} : Elsewhere src p q → Building src p q

theorem Standing.building (standing : Standing p src) (step : Building src p q) : Standing q src := by
  cases step with
  | alloc virtAddr flags user small => exact standing.allocPage user small
  | other elsewhere =>
    have same : q.owned src = p.owned src := owned_congr elsewhere.directory fun i table user has => elsewhere.tables i table user has
    refine ⟨elsewhere.ready, ?_, ?_, ?_⟩
    · rw [same]
      exact standing.distinct
    · rw [same]
      intro block member
      have before := standing.taken block member
      exact ⟨elsewhere.steady.block_iff.mpr before.toBlock, elsewhere.inUse block member,
        elsewhere.steady.clear.mpr before.clear⟩
    · rw [same]
      exact standing.nonnull

theorem Owns.standing (owns : Owns b p src []) (ready : p.Settled) : Standing p src :=
  ⟨ready, owns.distinct, fun _ member => owns.taken member, fun _ member => owns.ne_zero member⟩

theorem Settled.standing (ready : b.Settled) (created : b.createAddressSpace.1 ≠ 0)
    (run : Reachable (Building b.createAddressSpace.1) b.createAddressSpace.2 p) : Standing p b.createAddressSpace.1 := by
  refine @Reachable.invariant _ _ _ _ (fun p => Standing p b.createAddressSpace.1) run ?_ ?_
  · have owns := ready.toReady.createAddressSpace created
    have some_frame : 0 < b.searched := by
      have known := (owns.all.fresh _ (Owns.mem_directory _ _)).1.bound
      omega
    exact owns.standing (((ready.toReady.opened created).copying owns).kept.settled ready some_frame)
  · exact fun before after standing step => standing.building step

end Building

section Copy

theorem translation_some_iff {entry : Word} : p.translation src virtAddr = some entry ↔
    ∃ table, p.HasTable src (pageDirectoryIndex virtAddr) table ∧ table ≠ 0 ∧ entry &&& pagePresent ≠ 0 ∧
      p.entry table (pageTableIndex virtAddr) = entry := by
  by_cases absent : p.entry src (pageDirectoryIndex virtAddr) &&& pagePresent = 0
  · rw [translation_absent absent]
    refine iff_of_false nofun ?_
    rintro ⟨table, has, _⟩
    exact has.present absent
  · have has : p.HasTable src (pageDirectoryIndex virtAddr) (pageOf (p.entry src (pageDirectoryIndex virtAddr))) :=
      ⟨pageDirectoryIndex_lt virtAddr, absent, rfl⟩
    rw [translation_found has]
    constructor
    · intro found
      split at found
      · cases found
      · next nonnull =>
        split at found
        · cases found
        · next present =>
          cases found
          exact ⟨_, has, nonnull, present, rfl⟩
    · rintro ⟨table, other, nonnull, present, rfl⟩
      have same : table = pageOf (p.entry src (pageDirectoryIndex virtAddr)) := other.points.symm
      subst same
      rw [if_neg nonnull, if_neg present]

/-- The directory, the tables and the pages of the user half are as they were. -/
structure SameSpace (p : Paging) (src : Word) (q : Paging) : Prop where
  directory : ∀ i : Word, i.toNat < 1024 → q.entry src i = p.entry src i
  tables : ∀ i table, i.toNat < 768 → p.HasTable src i table → ∀ j : Word, j.toNat < 1024 → q.entry table j = p.entry table j
  pages : ∀ virtAddr entry, virtAddr < kernelVirtualBase → p.translation src virtAddr = some entry → ∀ offset < 4096,
    q.mem (pageOf entry + BitVec.ofNat 32 offset) = p.mem (pageOf entry + BitVec.ofNat 32 offset)

/-- In `q` the user half of `dst` maps what that of `src` maps in `p`, with the
same flags and the same bytes, in blocks that were free. -/
structure DeepCopy (p : Paging) (src : Word) (q : Paging) (dst : Word) : Prop where
  absent : ∀ virtAddr, virtAddr < kernelVirtualBase → p.translation src virtAddr = none → q.translation dst virtAddr = none
  present : ∀ virtAddr entry, virtAddr < kernelVirtualBase → p.translation src virtAddr = some entry →
    ∃ copy, q.translation dst virtAddr = some copy ∧ copy &&& 0xFFF = entry &&& 0xFFF ∧
      q.entry dst (pageDirectoryIndex virtAddr) &&& 0xFFF = p.entry src (pageDirectoryIndex virtAddr) &&& 0xFFF ∧
      pageOf copy ∈ q.owned dst ∧ pageOf (q.entry dst (pageDirectoryIndex virtAddr)) ∈ q.owned dst ∧ ∀ offset < 4096,
        q.mem (pageOf copy + BitVec.ofNat 32 offset) = p.mem (pageOf entry + BitVec.ofNat 32 offset)
  fresh : ∀ block ∈ q.owned dst, p.Block block ∧ p.inUse (block.toNat / 4096) = false
  distinct : (q.owned dst ++ q.owned src).Nodup
  source : SameSpace p src q

theorem Standing.sameSpace (standing : Standing p src) (kept : Preserves (fun _ => False) p q) : SameSpace p src q := by
  refine ⟨fun i small => kept.entry src i standing.directory id small, ?_, ?_⟩
  · exact fun i table user has j small => kept.entry table j (standing.hasTable_taken has user) id small
  · intro virtAddr entry user found offset small
    obtain ⟨table, has, _, present, rfl⟩ := translation_some_iff.mp found
    have member := has.mem_owned (pageDirectoryIndex_user user)
      (List.mem_append_left _ (mem_pageBlocks (pageTableIndex_lt virtAddr) present))
    have taken := standing.taken _ member
    exact bytes_of_pageWords (fun index indexSmall => kept.entry _ index taken id indexSmall) small

theorem Standing.deepCopy (standing : Standing p src) (owns : Owns p q dst []) (kept : Preserves (fun _ => False) p q)
    (copied : ∀ i < 768, CopiedTable p q src dst (BitVec.ofNat 32 i)) : DeepCopy p src q dst := by
  have table (virtAddr : Word) (user : virtAddr < kernelVirtualBase) : CopiedTable p q src dst (pageDirectoryIndex virtAddr) := by
    have entry := copied _ (pageDirectoryIndex_user user)
    rwa [ofNat_toNat_index] at entry
  -- a present directory entry has its counterpart
  have entry (virtAddr other : Word) (user : virtAddr < kernelVirtualBase)
      (has : p.HasTable src (pageDirectoryIndex virtAddr) other) :
      q.HasTable dst (pageDirectoryIndex virtAddr) (pageOf (q.entry dst (pageDirectoryIndex virtAddr))) ∧
        q.entry dst (pageDirectoryIndex virtAddr) &&& 0xFFF = p.entry src (pageDirectoryIndex virtAddr) &&& 0xFFF ∧
        CopiedEntry p q other (pageOf (q.entry dst (pageDirectoryIndex virtAddr))) (pageTableIndex virtAddr) := by
    have whole := table virtAddr user
    rw [CopiedTable, if_neg has.present] at whole
    have words := whole.2 _ (pageTableIndex_lt virtAddr)
    rw [has.points] at words
    exact ⟨⟨has.small, by rw [present_congr whole.1]; exact has.present, rfl⟩, whole.1, words⟩
  refine ⟨?_, ?_, ?_, ?_, standing.sameSpace kept⟩
  · intro virtAddr user missing
    by_cases absent : p.entry src (pageDirectoryIndex virtAddr) &&& pagePresent = 0
    · have whole := table virtAddr user
      rw [CopiedTable, if_pos absent] at whole
      apply translation_absent
      rw [whole]
      decide
    · have has : p.HasTable src (pageDirectoryIndex virtAddr) (pageOf (p.entry src (pageDirectoryIndex virtAddr))) :=
        ⟨pageDirectoryIndex_lt virtAddr, absent, rfl⟩
      have nonnull := standing.nonnull _ (Owns.mem_table has (pageDirectoryIndex_user user))
      have unset : p.entry (pageOf (p.entry src (pageDirectoryIndex virtAddr))) (pageTableIndex virtAddr) &&& pagePresent = 0 := by
        by_contra present
        rw [translation_found has, if_neg nonnull, if_neg present] at missing
        cases missing
      obtain ⟨after, _, words⟩ := entry virtAddr _ user has
      rw [CopiedEntry, if_pos unset] at words
      have zero : (0 : Word) &&& pagePresent = 0 := by decide
      rw [translation_found after, words, if_pos zero, ite_self]
  · intro virtAddr found user translated
    obtain ⟨other, has, _, present, rfl⟩ := translation_some_iff.mp translated
    obtain ⟨after, low, words⟩ := entry virtAddr other user has
    rw [CopiedEntry, if_neg present] at words
    have member := Owns.mem_table after (pageDirectoryIndex_user user)
    have there : q.entry (pageOf (q.entry dst (pageDirectoryIndex virtAddr))) (pageTableIndex virtAddr) &&& pagePresent ≠ 0 := by
      rwa [present_congr words.1]
    refine ⟨_, translation_some_iff.mpr ⟨_, after, owns.ne_zero member, there, rfl⟩, words.1, low, ?_, member, ?_⟩
    · exact after.mem_owned (pageDirectoryIndex_user user) (List.mem_append_left _ (mem_pageBlocks (pageTableIndex_lt virtAddr) there))
    · exact fun offset small => bytes_of_pageWords (fun index indexSmall => words.2 index indexSmall) small
  · exact owns.all.fresh
  · have same : q.owned src = p.owned src :=
      owned_eq fun page index member small => kept.entry page index (standing.taken page member) id small
    rw [same]
    refine List.nodup_append.mpr ⟨owns.distinct, standing.distinct, ?_⟩
    rintro block mine other theirs rfl
    have free := (owns.all.fresh block mine).2
    rw [(standing.taken block theirs).inUse] at free
    cases free

/-- The clone of an address space is a copy of it in fresh blocks, however the
address space was built. -/
theorem clone_deep_copy (ready : b.Settled) (created : b.createAddressSpace.1 ≠ 0)
    (run : Reachable (Building b.createAddressSpace.1) b.createAddressSpace.2 p)
    (cloned : (p.cloneAddressSpace b.createAddressSpace.1).1 ≠ 0) :
    DeepCopy p b.createAddressSpace.1 (p.cloneAddressSpace b.createAddressSpace.1).2
      (p.cloneAddressSpace b.createAddressSpace.1).1 := by
  have standing := ready.standing created run
  obtain ⟨owns, kept, copied, _⟩ := standing.clone_returned cloned
  exact standing.deepCopy owns kept copied

/-- The blocks of an address space, counted by its tables. -/
theorem length_owned (p : Paging) (src : Word) : (p.owned src).length = needed (p.tablePages src (List.range 768)) + 1 := by
  have each (turns : List Nat) : (turns.flatMap (p.tableBlocks src)).length = needed (p.tablePages src turns) := by
    induction turns with
    | nil => rfl
    | cons i rest ih =>
      rw [List.flatMap_cons, List.length_append, ih, tableBlocks]
      by_cases present : p.entry src (BitVec.ofNat 32 i) &&& pagePresent ≠ 0
      · rw [entryBlock_present present, List.flatMap_singleton, tablePages_present present, needed_cons, List.length_append,
          List.length_singleton]
      · have absent : p.entry src (BitVec.ofNat 32 i) &&& pagePresent = 0 := not_not.mp present
        rw [entryBlock_absent absent, tablePages_absent absent, List.flatMap_nil, List.length_nil, Nat.zero_add]
  rw [owned, List.length_append, each, List.length_singleton]

/-- A call with a free block for each block of the address space succeeds. -/
theorem Standing.clone_ne_zero (standing : Standing p src) (enough : (p.owned src).length ≤ p.supply) :
    (p.cloneAddressSpace src).1 ≠ 0 := by
  intro failed
  have short := (standing.clone_failed failed).2.1
  rw [← length_owned] at short
  exact absurd enough (Nat.not_le.mpr short)

theorem smallMachine_settled : smallMachine.Settled := ⟨smallMachine_ready, fun impossible => absurd rfl impossible⟩

/-- On a machine of 31 free frames an address space with one page is cloned. -/
theorem clone_deep_copy_one_page : ∃ p, Reachable (Building 0x1000) smallMachine.createAddressSpace.2 p ∧
    (p.isMapped 0x1000 0x40000000).1 = true ∧ (p.cloneAddressSpace 0x1000).1 ≠ 0 ∧
    DeepCopy p 0x1000 (p.cloneAddressSpace 0x1000).2 (p.cloneAddressSpace 0x1000).1 := by
  have created : smallMachine.createAddressSpace.1 = 0x1000 := by decide +kernel
  have nonnull : smallMachine.createAddressSpace.1 ≠ 0 := by
    rw [created]
    decide
  have unmapped : (smallMachine.createAddressSpace.2.isMapped 0x1000 0x40000000).1 = false := by decide +kernel
  have run : Reachable (Building 0x1000) smallMachine.createAddressSpace.2
      (smallMachine.createAddressSpace.2.allocPage 0x1000 0x40000000 7).2 := .single (.alloc _ _ _ (by decide) (by decide))
  have mapped : ((smallMachine.createAddressSpace.2.allocPage 0x1000 0x40000000 7).2.isMapped 0x1000 0x40000000).1 = true := by
    decide +kernel
  have used : (smallMachine.createAddressSpace.2.allocPage 0x1000 0x40000000 7).2.usedBlocks = 4 := by decide +kernel
  have supply : (smallMachine.createAddressSpace.2.allocPage 0x1000 0x40000000 7).2.supply = 28 := by decide +kernel
  have owns := smallMachine_ready.createAddressSpace nonnull
  rw [created] at owns
  have holds := (owns.allocPage (by decide : (0x40000000 : Word) < kernelVirtualBase) unmapped
    (by decide : (7 : Word).toNat < 0x1000)).all
  have fromStart : Reachable (Building smallMachine.createAddressSpace.1) smallMachine.createAddressSpace.2
      (smallMachine.createAddressSpace.2.allocPage 0x1000 0x40000000 7).2 := by
    rw [created]
    exact run
  generalize (smallMachine.createAddressSpace.2.allocPage 0x1000 0x40000000 7).2 = p at *
  -- the counter of the allocator tells how many blocks the address space has
  have three : (p.owned 0x1000).length ≤ 28 := by
    have counted := holds.used
    have start : smallMachine.usedBlocks = 1 := rfl
    rw [used, start] at counted
    have known : p.owned 0x1000 ⊆ (List.range 32).map fun frame => BitVec.ofNat 32 (frame * 4096) := by
      intro block member
      obtain ⟨aligned, bound⟩ := (holds.fresh block member).1
      have searched : smallMachine.searched = 32 := by decide
      unfold Page at aligned
      refine List.mem_map.mpr ⟨block.toNat / 4096, List.mem_range.mpr (by omega), BitVec.eq_of_toNat_eq ?_⟩
      rw [BitVec.toNat_ofNat]
      omega
    have few := (List.subperm_of_subset holds.distinct known).length_le
    rw [List.length_map, List.length_range] at few
    have value := congrArg BitVec.toNat counted
    rw [BitVec.toNat_add, BitVec.toNat_ofNat] at value
    have four : (4 : Word).toNat = 4 := rfl
    have one : (1 : Word).toNat = 1 := rfl
    omega
  have standing := smallMachine_settled.standing nonnull fromStart
  have cloned := standing.clone_ne_zero (by rw [created, supply]; exact three)
  have copy := clone_deep_copy smallMachine_settled nonnull fromStart cloned
  rw [created] at cloned copy
  exact ⟨p, run, mapped, cloned, copy⟩

end Copy

end MexOS.Mm.Paging
