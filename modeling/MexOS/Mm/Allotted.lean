import MexOS.Mm.NewSpace

/-! The order in which a new address space gets its blocks, and what is stored in
them. -/

namespace MexOS.Mm.Paging

open MexOS.Machine

variable {b p q r : Paging} {pageDir virtAddr flags table block page value : Word} {count : Nat}

section Order

/-- The block is free, and so many free blocks stand in front of it. -/
structure Nth (b : Paging) (count : Nat) (block : Word) : Prop extends Block b block where
  free : b.inUse (block.toNat / 4096) = false
  before : b.spare (block.toNat / 4096) = count

/-- The first blocks that were free in `b`, so many of them, are in use now, and no
others. -/
def Served (b p : Paging) (count : Nat) : Prop :=
  Steady b p ∧ ∀ frame < b.searched, p.inUse frame = true ↔ b.inUse frame = true ∨ b.spare frame < count

theorem spare_succ (b : Paging) (frame : Nat) :
    b.spare (frame + 1) = b.spare frame + if b.inUse frame = false then 1 else 0 := by
  rw [spare, Finset.range_add_one, Finset.filter_insert]
  split
  · rw [Finset.card_insert_of_notMem (by simp), spare]
  · rfl

/-- Behind more free frames than `count` there is one with so many in front of it. -/
theorem exists_spare {bound : Nat} (more : count < b.spare bound) : ∃ frame < bound, b.inUse frame = false ∧ b.spare frame = count := by
  induction bound with
  | zero => exact absurd more (by simp [spare])
  | succ bound ih =>
    rw [spare_succ] at more
    by_cases below : count < b.spare bound
    · obtain ⟨frame, small, found⟩ := ih below
      exact ⟨frame, Nat.lt_succ_of_lt small, found⟩
    · by_cases free : b.inUse bound = false
      · rw [if_pos free] at more
        exact ⟨bound, Nat.lt_succ_self bound, free, by omega⟩
      · rw [if_neg free] at more
        omega

theorem spare_lt {first second : Nat} (free : b.inUse first = false) (less : first < second) : b.spare first < b.spare second := by
  have step := b.spare_succ first
  rw [if_pos free] at step
  have mono := b.spare_mono (show first + 1 ≤ second from less)
  omega

theorem spare_unique {first second : Nat} (free : b.inUse first = false) (other : b.inUse second = false)
    (same : b.spare first = b.spare second) : first = second := by
  rcases Nat.lt_trichotomy first second with less | equal | more
  · have below := spare_lt free less
    omega
  · exact equal
  · have above := spare_lt other more
    omega

/-- The block that is handed out when so many others have been. -/
def vacant (b : Paging) (count : Nat) : Word :=
  BitVec.ofNat 32 (4096 * ((List.range b.searched).find? fun frame => !b.inUse frame && b.spare frame == count).getD 0)

theorem Nth.eq_vacant (nth : Nth b count block) : block = b.vacant count := by
  have here : ∃ frame ∈ List.range b.searched, (!b.inUse frame && b.spare frame == count) = true :=
    ⟨_, List.mem_range.mpr nth.bound, by simp [nth.free, nth.before]⟩
  obtain ⟨frame, found⟩ := Option.isSome_iff_exists.mp (List.find?_isSome.mpr here)
  have chosen := List.find?_some found
  rw [Bool.and_eq_true, Bool.not_eq_true', beq_iff_eq] at chosen
  obtain rfl := spare_unique nth.free chosen.1 (nth.before.trans chosen.2.symm)
  have aligned := nth.page
  have limit := block.isLt
  unfold Page at aligned
  rw [vacant, found, Option.getD_some]
  apply BitVec.eq_of_toNat_eq
  rw [BitVec.toNat_ofNat]
  omega

/-- It is free, or there are not so many blocks. -/
theorem vacant_free (b : Paging) (count : Nat) : b.vacant count = 0 ∨ b.inUse ((b.vacant count).toNat / 4096) = false := by
  rw [vacant]
  cases found : (List.range b.searched).find? fun frame => !b.inUse frame && b.spare frame == count with
  | none => exact .inl rfl
  | some frame =>
    have chosen := List.find?_some found
    have bound := b.frame_lt (List.mem_range.mp (List.mem_of_find?_eq_some found))
    rw [Bool.and_eq_true, Bool.not_eq_true'] at chosen
    have place : (BitVec.ofNat 32 (4096 * (some frame).getD 0)).toNat / 4096 = frame := by
      rw [Option.getD_some, BitVec.toNat_ofNat]
      omega
    rw [place]
    exact .inr chosen.1

theorem Nth.unique {other : Nat} (first : Nth b count block) (second : Nth b other block) : count = other :=
  first.before.symm.trans second.before

theorem Nth.clear (nth : Nth b count block) (ready : b.Ready) : b.Clear block := ready.storage block nth.toBlock nth.free

theorem Served.refl (b : Paging) : Served b b 0 :=
  ⟨.refl b, fun _ _ => (or_iff_left (Nat.not_lt_zero _)).symm⟩

theorem Served.keep (served : Served b p count) (unseen : Unseen p q) : Served b q count := by
  refine ⟨served.1.trans unseen.steady, fun frame bound => ?_⟩
  rw [unseen.inUse frame (by rwa [served.1.searched])]
  exact served.2 frame bound

/-- The allocator hands out the next of the blocks. -/
theorem Served.allocated (served : Served b p count) (allocated : Allocated p block q) : Nth b count block ∧ Served b q (count + 1) := by
  have member := served.1.block_iff.mp allocated.member
  have here := served.2 _ member.bound
  rw [allocated.free, Bool.false_eq_true, false_iff, not_or, Bool.not_eq_true, Nat.not_lt] at here
  obtain ⟨free, late⟩ := here
  have nth : b.spare (block.toNat / 4096) = count := by
    by_contra different
    obtain ⟨frame, small, unset, same⟩ := exists_spare (show count < b.spare (block.toNat / 4096) by omega)
    have bound := member.bound
    have used := (served.2 frame (by omega)).mp (allocated.lowest frame small)
    rw [unset, same] at used
    simp at used
  refine ⟨⟨member, free, nth⟩, served.1.trans allocated.steady, fun frame bound => ?_⟩
  rw [allocated.inUse frame (by rwa [served.1.searched]), Bool.or_eq_true, decide_eq_true_eq, served.2 frame bound]
  constructor
  · rintro (rfl | used | early)
    · exact .inr (by omega)
    · exact .inl used
    · exact .inr (by omega)
  · rintro (used | early)
    · exact .inr (.inl used)
    · by_cases unset : b.inUse frame = false
      · -- of two free frames the later one has more in front of it
        rcases Nat.lt_trichotomy (block.toNat / 4096) frame with less | same | more
        · have above := spare_lt free less
          omega
        · exact .inl same
        · have below := spare_lt unset more
          exact .inr (.inr (by omega))
      · exact .inr (.inl (by simpa using unset))

end Order

section Words

/-- What entering `value` for an address does: a table that is missing is the block
`count` of those that were free in `b`. -/
structure Allotted (b p : Paging) (pageDir virtAddr value : Word) (count : Nat) (table : Word) (q : Paging) : Prop where
  served : Served b q (count + if p.entry pageDir (pageDirectoryIndex virtAddr) &&& pagePresent = 0 then 1 else 0)
  stands : p.HasTable pageDir (pageDirectoryIndex virtAddr) table ∨
    p.entry pageDir (pageDirectoryIndex virtAddr) &&& pagePresent = 0 ∧ Nth b count table
  words : ∀ page index, Page page → p.Clear page → index.toNat < 1024 →
    q.entry page index =
      if table = page ∧ pageTableIndex virtAddr = index then value
      else if p.entry pageDir (pageDirectoryIndex virtAddr) &&& pagePresent = 0 ∧ pageDir = page ∧ pageDirectoryIndex virtAddr = index
      then table ||| tableFlags virtAddr
      else if p.entry pageDir (pageDirectoryIndex virtAddr) &&& pagePresent = 0 ∧ table = page then 0
      else p.entry page index
  bytes : Alters (fun page => page = pageDir ∨ page = table) p q

theorem alters_copyEntries (source : Word) {target : Word} (aligned : Page target) {indices : List Nat}
    (small : ∀ i ∈ indices, i < 1024) (p : Paging) : Alters (· = target) p (indices.foldl (copyEntry source target) p) := by
  induction indices generalizing p with
  | nil => exact .refl p
  | cons first rest ih =>
    have bound := small first List.mem_cons_self
    have index : (BitVec.ofNat 32 first).toNat < 1024 := by rwa [toNat_ofNat_index bound]
    have statics : SameStatics p (copyEntry source target p first) :=
      (p.steady_touch (source + 4 * BitVec.ofNat 32 first)).toSameStatics.trans (sameStatics_write _ _ _)
    have once : Alters (· = target) p (copyEntry source target p first) :=
      Alters.trans (p.steady_touch (source + 4 * BitVec.ofNat 32 first)).toSameStatics (alters_touch p _)
        (alters_write aligned index _)
    rw [List.foldl_cons]
    exact Alters.trans statics once (ih (fun i member => small i (List.mem_cons_of_mem _ member)) _)

theorem alters_createAddressSpace (returned : b.createAddressSpace.1 ≠ 0) :
    Alters (· = b.createAddressSpace.1) b b.createAddressSpace.2 := by
  by_cases nothing : b.allocBlock.1 = 0
  · simp only [Paging.createAddressSpace, nothing, ↓reduceIte, ne_eq, not_true] at returned
  · have allocated := allocBlock_returned nothing
    have aligned := allocated.member.page
    have statics := b.sameStatics_allocBlock
    have marked : Alters (· = b.allocBlock.1) b b.allocBlock.2 := alters_allocBlock b
    simp only [Paging.createAddressSpace, nothing, ↓reduceIte, physToVirt_eq]
    generalize b.allocBlock.1 = pageDir at *
    generalize b.allocBlock.2 = m at *
    have cleared : Alters (· = pageDir) b (m.clearPage pageDir) := Alters.trans statics marked (alters_clearPage aligned)
    have upper (i : Nat) (member : i ∈ List.range' 768 256) : i < 1024 := by
      rw [List.mem_range'_1] at member
      omega
    have whole : SameStatics b (m.clearPage pageDir) := statics.trans (sameStatics_clearPage m pageDir)
    have copied := alters_copyEntries b.kernelDirectory aligned upper (m.clearPage pageDir)
    by_cases kernel : b.kernelDirectory = 0
    · simp only [kernel, ↓reduceIte]
      exact cleared
    · simp only [kernel, ↓reduceIte]
      exact Alters.trans whole cleared copied

theorem Linked.served (linked : Linked p pageDir virtAddr p.allocBlock.1 q) (nonnull : p.allocBlock.1 ≠ 0)
    (served : Served b p count) : Nth b count p.allocBlock.1 ∧ Served b q (count + 1) := by
  have allocated := allocBlock_returned nonnull
  obtain ⟨nth, after⟩ := served.allocated allocated
  refine ⟨nth, served.1.trans linked.steady, fun frame bound => ?_⟩
  have inside : frame < p.searched := by rwa [served.1.searched]
  rw [linked.inUse frame inside, ← allocated.inUse frame inside]
  exact after.2 frame bound

/-- The page has a table, or gets one, and is entered there. -/
theorem Owns.mapPage_allotted (owns : Owns b p pageDir [block]) (served : Served b p count) (user : virtAddr < kernelVirtualBase)
    (mapped : (p.mapPage pageDir virtAddr block flags).1 = 0) :
    ∃ table, Allotted b p pageDir virtAddr (pageOf block ||| flags) count table (p.mapPage pageDir virtAddr block flags).2 := by
  have half := pageDirectoryIndex_user user
  have small := pageTableIndex_lt virtAddr
  have dirClear := owns.clear (Owns.mem_directory p pageDir)
  rcases getPageTable_cases owns.directory_page dirClear owns.null
    (fun granted => owns.holds.next_clear owns.ready granted) (pageOf virtAddr) with
    ⟨has, state⟩ | ⟨missing, ⟨_, failed⟩ | ⟨result, nonnull, linked⟩⟩
  · rw [pageDirectoryIndex_pageOf] at has
    have taken := owns.taken (Owns.mem_table has half)
    rw [mapPage_reached (owns.ne_zero (Owns.mem_table has half)), state, pageTableIndex_pageOf]
    generalize (p.getPageTable pageDir (pageOf virtAddr) true).1 = table at *
    refine ⟨table, ?_, .inl has, ?_, ?_⟩
    · rw [if_neg has.present]
      exact (served.keep (p.unseen_touch _)).keep (unseen_write (p := p.touch _) taken.clear small _)
    · intro page index aligned _ bound
      simp only [has.present, false_and, ↓reduceIte]
      exact entry_write taken.page aligned small bound
    · refine Alters.trans (p.steady_touch _).toSameStatics (alters_touch p _) ((alters_write taken.page small _).weaken ?_)
      exact fun page => .inr
  · rw [mapPage_null (by rw [failed])] at mapped
    cases mapped
  · have clear := owns.holds.next_clear owns.ready nonnull
    have aligned : Page (p.getPageTable pageDir (pageOf virtAddr) true).1 := by
      rw [result]
      exact linked.member.page
    have bytes := alters_getPageTable owns.directory_page aligned
    obtain ⟨nth, after⟩ := linked.served nonnull served
    have flagged : tableFlags (pageOf virtAddr) = tableFlags virtAddr := by
      rw [tableFlags, tableFlags, if_pos user, if_pos (pageOf_user user)]
    rw [mapPage_reached (by rwa [result]), result, pageTableIndex_pageOf]
    rw [result] at bytes
    rw [pageDirectoryIndex_pageOf] at missing
    have words := linked.entry
    rw [pageDirectoryIndex_pageOf, flagged] at words
    refine ⟨p.allocBlock.1, ?_, .inr ⟨missing, nth⟩, ?_, ?_⟩
    · rw [if_pos missing]
      exact after.keep (unseen_write (linked.steady.clear.mpr clear) small _)
    · intro page index page_ pageClear bound
      rw [entry_write linked.member.page page_ small bound, words page index page_ pageClear bound]
      simp only [missing, true_and]
    · exact Alters.trans linked.steady.toSameStatics bytes ((alters_write linked.member.page small _).weaken fun _ => .inr)

/-- A page for an address: it is the next block, and a table that is missing the one
behind it. -/
theorem Owns.allocPage_allotted (owns : Owns b p pageDir []) (served : Served b p count) (user : virtAddr < kernelVirtualBase)
    (done : (p.allocPage pageDir virtAddr flags).1 = 0) : ∃ page table, Nth b count page ∧
      Allotted b p pageDir virtAddr (page ||| (flags ||| pagePresent)) (count + 1) table (p.allocPage pageDir virtAddr flags).2 := by
  obtain ⟨returned, mapped, state⟩ := allocPage_done done
  have allocated := allocBlock_returned returned
  have marked : Alters (fun _ => False) p p.allocBlock.2 := alters_allocBlock p
  have half := pageDirectoryIndex_user user
  rw [state]
  generalize p.allocBlock.1 = page at *
  generalize p.allocBlock.2 = m at *
  have entry (other index : Word) (clear : p.Clear other) (small : index.toNat < 1024) : m.entry other index = p.entry other index :=
    allocated.entry other index clear small
  have directory : m.entry pageDir (pageDirectoryIndex virtAddr) = p.entry pageDir (pageDirectoryIndex virtAddr) :=
    entry pageDir _ (owns.clear (Owns.mem_directory p pageDir)) (by omega)
  have taken : Owns b m pageDir [page] := by
    refine owns.congr (owns.holds.allocated allocated) fun other index _ member small => ?_
    exact entry other index (owns.clear member) small
  obtain ⟨nth, next⟩ := served.allocated allocated
  obtain ⟨table, allotted⟩ := taken.mapPage_allotted next user mapped
  rw [pageOf_of_page allocated.member.page] at allotted
  refine ⟨page, table, nth, ?_, ?_, ?_, ?_⟩
  · rw [← directory]
    exact allotted.served
  · rw [← directory]
    refine allotted.stands.imp_left fun before => ?_
    exact ⟨before.small, directory ▸ before.present, directory ▸ before.points⟩
  · intro other index aligned clear small
    rw [allotted.words other index aligned (allocated.steady.clear.mpr clear) small, directory, entry other index clear small]
  · exact Alters.trans allocated.steady.toSameStatics (marked.weaken fun _ => False.elim) allotted.bytes

/-- A call that fails stores bits of the bitmap at most. -/
theorem Owns.alters_refused (owns : Owns b p pageDir []) (user : virtAddr < kernelVirtualBase)
    (failed : (p.allocPage pageDir virtAddr flags).1 ≠ 0) : Alters (fun _ => False) p (p.allocPage pageDir virtAddr flags).2 := by
  rcases owns.allocPage_failed user failed with ⟨same, _⟩ | ⟨⟨allocated, address, state⟩, _⟩
  · rw [same]
    exact .refl p
  · have looked := p.allocBlock.2.steady_touch address
    have member := (allocated.steady.trans looked).block_iff.mpr allocated.member
    have marked : Alters (fun _ => False) p (p.allocBlock.2.touch address) :=
      (alters_allocBlock p).trans (sameStatics_allocBlock p) (alters_touch _ _)
    rw [state]
    exact Alters.trans (allocated.steady.trans looked).toSameStatics marked (alters_freeBlock member)

end Words

end MexOS.Mm.Paging
