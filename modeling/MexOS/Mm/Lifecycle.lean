import MexOS.Machine.Transition
import MexOS.Mm.Footprint
import MexOS.Mm.Holdings
import MexOS.Mm.PageMap

/-! The life of an address space from `vmm_create_address_space` to
`vmm_destroy_address_space`: which blocks it holds on the way. -/

namespace MexOS.Mm.Paging

open MexOS.Machine

/-- Frame zero is not free, the bitmap's storage shares nothing with the frames
that can be handed out, and the kernel directory is not one of these. -/
structure Ready (b : Paging) : Prop where
  null : b.inUse 0 = true
  storage : ∀ block, b.Block block → b.inUse (block.toNat / 4096) = false → b.Clear block
  kernel : b.kernelDirectory ≠ 0 → b.inUse (b.kernelDirectory.toNat / 4096) = true

variable {b p q : Paging} {pageDir virtAddr flags block table index : Word} {blocks rest : List Word}

section Held

variable (ready : b.Ready) (holds : Holds b p blocks)

include ready holds

theorem Holds.null (member : block ∈ blocks) : p.inUse 0 = true := by
  have bound := (holds.fresh block member).1.bound
  exact (holds.inUse 0 (by omega)).mpr (.inl ready.null)

theorem Holds.ne_zero (member : block ∈ blocks) : block ≠ 0 := by
  rintro rfl
  have free := (holds.fresh 0 member).2
  rw [show (0 : Word).toNat / 4096 = 0 from rfl, ready.null] at free
  cases free

theorem Holds.clear (member : block ∈ blocks) : p.Clear block := by
  obtain ⟨known, free⟩ := holds.fresh block member
  exact holds.steady.clear.mpr (ready.storage block known free)

/-- What the allocator returns next lies clear of the bitmap. -/
theorem Holds.next_clear (returned : p.allocBlock.1 ≠ 0) : p.Clear p.allocBlock.1 := by
  rcases allocBlock_cases p with nothing | allocated
  · rw [nothing] at returned
    exact absurd rfl returned
  · exact holds.steady.clear.mpr <| by
      have taken := holds.allocated allocated
      obtain ⟨known, free⟩ := taken.fresh _ List.mem_cons_self
      exact ready.storage _ known free

end Held

/-- What a table entry points to is all that the address space loses with it. -/
theorem cleared_perm (distinct : (p.owned pageDir).Nodup) (aligned : Page pageDir)
    (has : p.HasTable pageDir index table) (user : index.toNat < 768) {j : Word} (small : j.toNat < 1024) :
    (p.owned pageDir).Perm (entryBlock (p.entry table j) ++ (p.write (table + 4 * j) 0).owned pageDir) := by
  have different := table_ne_directory distinct has user
  have entry (page k : Word) (page_ : Page page) (kSmall : k.toNat < 1024) :
      (p.write (table + 4 * j) 0).entry page k = if table = page ∧ j = k then 0 else p.entry page k :=
    entry_write has.page page_ small kSmall
  have directory (i : Word) (iSmall : i.toNat < 768) : (p.write (table + 4 * j) 0).entry pageDir i = p.entry pageDir i :=
    (entry pageDir i aligned (by omega)).trans (if_neg fun same => different same.1)
  have back {i other : Word} (iSmall : i.toNat < 768) (after : (p.write (table + 4 * j) 0).HasTable pageDir i other) :
      p.HasTable pageDir i other :=
    ⟨after.small, directory i iSmall ▸ after.present, directory i iSmall ▸ after.points⟩
  have after : (p.write (table + 4 * j) 0).HasTable pageDir index table :=
    ⟨has.small, (directory index user).symm ▸ has.present, (directory index user).symm ▸ has.points⟩
  have cleared : (p.write (table + 4 * j) 0).entry table j = 0 :=
    (entry table j has.page small).trans (if_pos ⟨rfl, rfl⟩)
  -- seen from the state after the store, the old entry is the one that gets a value
  refine owned_perm_of_entry after user small ?_ ?_ ?_ ?_
  · intro other otherUser again
    exact table_once distinct has user otherUser (back otherUser again)
  · rw [cleared]
    decide
  · intro i iSmall
    exact (directory i iSmall).symm
  · intro i other iSmall otherHas k kSmall
    rw [entry other k otherHas.page kSmall]
    split
    · next same =>
      obtain ⟨rfl, rfl⟩ := same
      rfl
    · rfl

/-- The blocks of an address space are among the held ones. -/
structure Owns (b p : Paging) (pageDir : Word) (more : List Word) : Prop where
  ready : b.Ready
  holds : Holds b p (more ++ p.owned pageDir)

namespace Owns

variable {more : List Word}

theorem distinct (owns : Owns b p pageDir more) : (p.owned pageDir).Nodup := (List.nodup_append.mp owns.holds.distinct).2.1

theorem all (owns : Owns b p pageDir []) : Holds b p (p.owned pageDir) := by
  have holds := owns.holds
  rwa [List.nil_append] at holds

theorem mem_directory (p : Paging) (pageDir : Word) : pageDir ∈ p.owned pageDir :=
  List.mem_append_right _ (List.mem_singleton_self _)

theorem mem_table (has : p.HasTable pageDir index table) (user : index.toNat < 768) : table ∈ p.owned pageDir :=
  has.mem_owned user (List.mem_append_right _ (List.mem_singleton_self _))

theorem directory_page (owns : Owns b p pageDir more) : Page pageDir :=
  (owns.holds.fresh pageDir (List.mem_append_right _ (mem_directory p pageDir))).1.page

theorem clear (owns : Owns b p pageDir more) (member : block ∈ p.owned pageDir) : p.Clear block :=
  owns.holds.clear owns.ready (List.mem_append_right _ member)

theorem ne_zero (owns : Owns b p pageDir more) (member : block ∈ p.owned pageDir) : block ≠ 0 :=
  owns.holds.ne_zero owns.ready (List.mem_append_right _ member)

theorem null (owns : Owns b p pageDir more) : p.inUse 0 = true :=
  owns.holds.null owns.ready (List.mem_append_right _ (mem_directory p pageDir))

/-- A change outside the blocks of the address space. -/
theorem congr (owns : Owns b p pageDir more) {others : List Word} (holds : Holds b q (others ++ p.owned pageDir))
    (same : ∀ page index, Page page → page ∈ p.owned pageDir → index.toNat < 1024 → q.entry page index = p.entry page index) :
    Owns b q pageDir others := by
  have directory (i : Word) (small : i.toNat < 768) : q.entry pageDir i = p.entry pageDir i :=
    same pageDir i owns.directory_page (mem_directory p pageDir) (by omega)
  have tables (i table : Word) (small : i.toNat < 768) (has : p.HasTable pageDir i table) (j : Word)
      (jSmall : j.toNat < 1024) : q.entry table j = p.entry table j :=
    same table j has.page (mem_table has small) jSmall
  refine ⟨owns.ready, ?_⟩
  rw [owned_congr directory tables]
  exact holds

/-- One entry of a table that was not present gets a value. -/
theorem write_entry (owns : Owns b p pageDir more) (has : p.HasTable pageDir index table) (user : index.toNat < 768)
    {j value : Word} (small : j.toNat < 1024) (absent : p.entry table j &&& pagePresent = 0) {others : List Word}
    (moved : (more ++ p.owned pageDir).Perm (others ++ (entryBlock value ++ p.owned pageDir))) :
    Owns b (p.write (table + 4 * j) value) pageDir others := by
  have clear := owns.clear (mem_table has user)
  have different := table_ne_directory owns.distinct has user
  have entry (page k : Word) (page_ : Page page) (kSmall : k.toNat < 1024) :
      (p.write (table + 4 * j) value).entry page k = if table = page ∧ j = k then value else p.entry page k :=
    entry_write has.page page_ small kSmall
  have after := owned_perm_of_entry has user small (fun other otherUser again => table_once owns.distinct has user otherUser again)
    absent (fun i iSmall => (entry pageDir i owns.directory_page (by omega)).trans (if_neg fun same => different same.1))
    (fun i other iSmall otherHas k kSmall => entry other k otherHas.page kSmall)
  refine ⟨owns.ready, ?_⟩
  exact (owns.holds.keep (unseen_write clear small value)).perm (moved.trans (after.symm.append_left others))

/-- A new table is linked into the user half. -/
theorem linked (owns : Owns b p pageDir more) (user : (pageDirectoryIndex virtAddr).toNat < 768)
    (absent : p.entry pageDir (pageDirectoryIndex virtAddr) &&& pagePresent = 0)
    (clear : p.Clear table) (linked : Linked p pageDir virtAddr table q) :
    Owns b q pageDir more ∧ q.HasTable pageDir (pageDirectoryIndex virtAddr) table ∧
      ∀ j : Word, j.toNat < 1024 → q.entry table j = 0 := by
  have aligned := owns.directory_page
  have dirClear := owns.clear (mem_directory p pageDir)
  have taken := owns.holds.take linked.steady linked.member linked.free linked.inUse linked.used linked.calls
  have absentBlock : table ∉ p.owned pageDir := fun member =>
    (List.nodup_cons.mp taken.distinct).1 (List.mem_append_right _ member)
  have notDirectory : pageDir ≠ table := fun same => absentBlock (same ▸ mem_directory p pageDir)
  have has := linked.hasTable aligned dirClear
  have empty (j : Word) (small : j.toNat < 1024) : q.entry table j = 0 := by
    rw [linked.entry table j linked.member.page clear small, if_neg fun same => notDirectory same.1, if_pos rfl]
  have after : (q.owned pageDir).Perm (q.pageBlocks table ++ [table] ++ p.owned pageDir) := by
    refine owned_perm_of_table user absent has ?_ ?_
    · intro i small different
      rw [linked.entry pageDir i aligned dirClear (by omega), if_neg fun same => different same.2.symm,
        if_neg (Ne.symm notDirectory)]
    · intro i other small otherHas j jSmall
      have member := mem_table otherHas small
      have unequal : table ≠ other := fun same => absentBlock (same ▸ member)
      have other_ := table_ne_directory owns.distinct otherHas small
      rw [linked.entry other j otherHas.page (owns.clear member) jSmall, if_neg fun same => other_ same.1.symm,
        if_neg unequal]
  rw [pageBlocks_empty empty, List.nil_append] at after
  refine ⟨⟨owns.ready, taken.perm ?_⟩, has, empty⟩
  refine List.Perm.trans ?_ (after.symm.append_left more)
  rw [List.singleton_append]
  exact List.perm_middle.symm

/-- Mapping a held page at an address that has none. -/
theorem mapPage {page : Word} (owns : Owns b p pageDir [page]) (user : virtAddr < kernelVirtualBase)
    (absent : ∀ table, p.HasTable pageDir (pageDirectoryIndex virtAddr) table →
      p.entry table (pageTableIndex virtAddr) &&& pagePresent = 0)
    (small : flags.toNat < 0x1000) (present : flags &&& pagePresent ≠ 0) :
    ((p.mapPage pageDir virtAddr page flags).1 = 0 ∧ Owns b (p.mapPage pageDir virtAddr page flags).2 pageDir []) ∨
      ((p.mapPage pageDir virtAddr page flags).1 ≠ 0 ∧ Owns b (p.mapPage pageDir virtAddr page flags).2 pageDir [page]) := by
  have aligned : Page page := (owns.holds.fresh page List.mem_cons_self).1.page
  have half : (pageDirectoryIndex (pageOf virtAddr)).toNat < 768 := pageDirectoryIndex_user (pageOf_user user)
  have block : entryBlock (pageOf page ||| flags) = [page] := by
    rw [entryBlock_present (present_or present), pageOf_or (page_pageOf page) small, pageOf_of_page aligned]
  rw [← pageDirectoryIndex_pageOf, ← pageTableIndex_pageOf] at absent
  rcases getPageTable_cases owns.directory_page (owns.clear (mem_directory p pageDir)) owns.null
    (fun granted => owns.holds.next_clear owns.ready granted) (pageOf virtAddr) with
    ⟨has, state⟩ | ⟨missing, ⟨_, failed⟩ | ⟨result, nonnull, linked⟩⟩
  · have nonnull := owns.ne_zero (mem_table has half)
    rw [mapPage_reached nonnull, state]
    have touched : Owns b (p.touch (slot pageDir (pageOf virtAddr))) pageDir [page] :=
      owns.congr (owns.holds.keep (p.unseen_touch _)) fun _ _ _ _ _ => rfl
    refine .inl ⟨rfl, touched.write_entry (has.touch _) half (pageTableIndex_lt _) (absent _ has) ?_⟩
    rw [block]
    exact .refl _
  · rw [mapPage_null (by rw [failed]), failed]
    have minus : (-1 : Int) ≠ 0 := by decide
    exact .inr ⟨minus, owns.congr (owns.holds.keep (p.unseen_touch _)) fun _ _ _ _ _ => rfl⟩
  · rw [mapPage_reached (by rwa [result]), result]
    obtain ⟨owns, has, empty⟩ := owns.linked half missing (owns.holds.next_clear owns.ready nonnull) linked
    refine .inl ⟨rfl, owns.write_entry has half (pageTableIndex_lt _) ?_ ?_⟩
    · rw [empty _ (pageTableIndex_lt _)]
      decide
    · rw [block]
      exact .refl _

/-- Whatever `vmm_alloc_page` returns, the blocks of the address space are the
held ones again. -/
theorem allocPage (owns : Owns b p pageDir []) (user : virtAddr < kernelVirtualBase)
    (unmapped : (p.isMapped pageDir virtAddr).1 = false) (small : flags.toNat < 0x1000) :
    Owns b (p.allocPage pageDir virtAddr flags).2 pageDir [] := by
  have half := pageDirectoryIndex_user user
  rcases allocBlock_cases p with nothing | allocated
  · simp only [Paging.allocPage, nothing, ↓reduceIte]
    exact owns
  · have nonnull := allocated.ne_zero owns.null
    simp only [Paging.allocPage, nonnull, ↓reduceIte]
    generalize p.allocBlock.1 = page at *
    generalize p.allocBlock.2 = m at *
    have taken : Owns b m pageDir [page] := by
      refine owns.congr (owns.holds.allocated allocated) ?_
      intro other index _ member indexSmall
      exact allocated.entry other index (owns.clear member) indexSmall
    have directory : m.entry pageDir (pageDirectoryIndex virtAddr) = p.entry pageDir (pageDirectoryIndex virtAddr) :=
      allocated.entry pageDir _ (owns.clear (mem_directory p pageDir)) (pageDirectoryIndex_lt _)
    have absent (table : Word) (has : m.HasTable pageDir (pageDirectoryIndex virtAddr) table) :
        m.entry table (pageTableIndex virtAddr) &&& pagePresent = 0 := by
      have before : p.HasTable pageDir (pageDirectoryIndex virtAddr) table :=
        ⟨has.small, directory ▸ has.present, directory ▸ has.points⟩
      have member := mem_table before half
      rw [isMapped_eq, translation_found before, if_neg (owns.ne_zero member)] at unmapped
      rw [allocated.entry table _ (owns.clear member) (pageTableIndex_lt _)]
      by_contra present
      rw [if_neg present] at unmapped
      cases unmapped
    have bits : (flags ||| pagePresent).toNat < 0x1000 := by
      rw [BitVec.toNat_or]
      exact Nat.or_lt_two_pow (n := 12) small (by decide)
    have flagged : (flags ||| pagePresent) &&& pagePresent ≠ 0 := present_or (by decide)
    rcases taken.mapPage user absent bits flagged with ⟨mapped, after⟩ | ⟨failed, after⟩
    · simp only [mapped, ne_eq, not_true, ↓reduceIte]
      exact after
    · simp only [failed, ne_eq, not_false_eq_true, ↓reduceIte]
      have freed := freeBlock_freed (after.holds.steady.block_iff.mpr (after.holds.fresh page List.mem_cons_self).1)
      refine after.congr (after.holds.freed freed) ?_
      intro other index _ member indexSmall
      exact freed.entry other index (after.clear member) indexSmall

/-- The store that ends `vmm_free_page`, in a state `m` in which the block of
the entry has already been given back. -/
theorem clear_entry {m : Paging} (owns : Owns b p pageDir []) (has : p.HasTable pageDir index table) (user : index.toNat < 768)
    {j : Word} (small : j.toNat < 1024) (holds : Holds b m ((p.write (table + 4 * j) 0).owned pageDir))
    (same : ∀ page index, p.Clear page → index.toNat < 1024 → m.entry page index = p.entry page index) :
    Owns b (m.write (table + 4 * j) 0) pageDir [] := by
  have member := mem_table has user
  have steady : m.Clear table ↔ p.Clear table := holds.steady.clear.trans owns.holds.steady.clear.symm
  have clear : m.Clear table := steady.mpr (owns.clear member)
  have agree (page k : Word) (aligned : Page page) (held : page ∈ p.owned pageDir) (kSmall : k.toNat < 1024) :
      (m.write (table + 4 * j) 0).entry page k = (p.write (table + 4 * j) 0).entry page k := by
    rw [entry_write has.page aligned small kSmall, entry_write has.page aligned small kSmall,
      same page k (owns.clear held) kSmall]
  have different := table_ne_directory owns.distinct has user
  have blocks : (m.write (table + 4 * j) 0).owned pageDir = (p.write (table + 4 * j) 0).owned pageDir := by
    apply owned_congr
    · intro i iSmall
      exact agree pageDir i owns.directory_page (mem_directory p pageDir) (by omega)
    · intro i other iSmall after k kSmall
      have kept : (p.write (table + 4 * j) 0).entry pageDir i = p.entry pageDir i := by
        rw [entry_write has.page owns.directory_page small (by omega), if_neg fun same => different same.1]
      have before : p.HasTable pageDir i other := ⟨after.small, kept ▸ after.present, kept ▸ after.points⟩
      exact agree other k before.page (mem_table before iSmall) kSmall
  refine ⟨owns.ready, ?_⟩
  rw [List.nil_append, blocks]
  exact holds.keep (unseen_write clear small 0)

/-- A frame is freed at most once: its page is unmapped right after. -/
theorem freePage (owns : Owns b p pageDir []) (user : virtAddr < kernelVirtualBase) :
    Owns b (p.freePage pageDir virtAddr) pageDir [] := by
  have half := pageDirectoryIndex_user user
  by_cases absent : p.entry pageDir (pageDirectoryIndex virtAddr) &&& pagePresent = 0
  · have unchanged : p.freePage pageDir virtAddr =
        (p.touch (slot pageDir virtAddr)).touch (slot pageDir (pageOf virtAddr)) := by
      have again : (p.touch (slot pageDir virtAddr)).entry pageDir (pageDirectoryIndex (pageOf virtAddr)) &&& pagePresent = 0 := by
        rwa [pageDirectoryIndex_pageOf]
      simp only [Paging.freePage, getPhysicalAddress, getPageTable_absent absent, ↓reduceIte, ne_eq, not_true,
        Paging.unmapPage, getPageTable_absent again]
    rw [unchanged]
    exact owns.congr (owns.holds.keep ((p.unseen_touch _).trans (unseen_touch _ _))) fun _ _ _ _ _ => rfl
  · have has : p.HasTable pageDir (pageDirectoryIndex virtAddr) (pageOf (p.entry pageDir (pageDirectoryIndex virtAddr))) :=
      ⟨pageDirectoryIndex_lt _, absent, rfl⟩
    generalize pageOf (p.entry pageDir (pageDirectoryIndex virtAddr)) = table at has
    have member := mem_table has half
    have nonnull := owns.ne_zero member
    have small := pageTableIndex_lt virtAddr
    let looked := (p.touch (slot pageDir virtAddr)).touch (table + 4 * pageTableIndex virtAddr)
    have unseen : Unseen p looked := (p.unseen_touch _).trans (unseen_touch _ _)
    -- whether or not the page is there, its block is given back before the entry is cleared
    have released : ∃ m, p.freePage pageDir virtAddr = m.unmapPage pageDir virtAddr ∧
        Holds b m ((p.write (table + 4 * pageTableIndex virtAddr) 0).owned pageDir) ∧
        ∀ page index, p.Clear page → index.toNat < 1024 → m.entry page index = p.entry page index := by
      have holds := (owns.all.keep unseen).perm (cleared_perm owns.distinct owns.directory_page has half small)
      by_cases missing : p.entry table (pageTableIndex virtAddr) &&& pagePresent = 0
      · refine ⟨looked, ?_, ?_, fun _ _ _ _ => rfl⟩
        · simp only [Paging.freePage, getPhysicalAddress_found has nonnull, missing, ↓reduceIte, ne_eq, not_true]
          rfl
        · rwa [entryBlock_absent missing, List.nil_append] at holds
      · have inside : pageOf (p.entry table (pageTableIndex virtAddr)) ∈ p.owned pageDir :=
          has.mem_owned half (List.mem_append_left _ (mem_pageBlocks small missing))
        have frame : pageOf (pageOf (p.entry table (pageTableIndex virtAddr)) ||| (virtAddr &&& 0xFFF)) =
            pageOf (p.entry table (pageTableIndex virtAddr)) := pageOf_or (page_pageOf _) (offset_lt virtAddr)
        have found : pageOf (p.entry table (pageTableIndex virtAddr)) ||| (virtAddr &&& 0xFFF) ≠ 0 := by
          intro zero
          rw [zero] at frame
          exact owns.ne_zero inside frame.symm
        rw [entryBlock_present missing, List.singleton_append] at holds
        have freed := freeBlock_freed (holds.steady.block_iff.mpr (holds.fresh _ List.mem_cons_self).1)
        refine ⟨looked.freeBlock (pageOf (p.entry table (pageTableIndex virtAddr))), ?_, holds.freed freed, ?_⟩
        · simp only [Paging.freePage, getPhysicalAddress_found has nonnull, missing, ↓reduceIte, ne_eq, found,
            not_false_eq_true, frame]
          rfl
        · intro page index clear indexSmall
          exact freed.entry page index (unseen.steady.clear.mpr clear) indexSmall
    obtain ⟨m, shape, holds, same⟩ := released
    have directory : m.entry pageDir (pageDirectoryIndex virtAddr) = p.entry pageDir (pageDirectoryIndex virtAddr) :=
      same _ _ (owns.clear (mem_directory p pageDir)) (pageDirectoryIndex_lt _)
    have after : m.HasTable pageDir (pageDirectoryIndex (pageOf virtAddr)) table := by
      rw [pageDirectoryIndex_pageOf]
      exact ⟨has.small, directory ▸ has.present, directory ▸ has.points⟩
    rw [shape, unmapPage_found after nonnull, pageTableIndex_pageOf]
    exact owns.clear_entry has half small (holds.keep (m.unseen_touch _)) same

end Owns

/-- Copying the kernel half changes nothing else. -/
theorem copyEntries_spec (source : Word) {target : Word} (aligned : Page target) {indices : List Nat}
    (upper : ∀ i ∈ indices, 768 ≤ i ∧ i < 1024) (clear : p.Clear target) :
    Unseen p (indices.foldl (copyEntry source target) p) ∧
      ∀ page i, Page page → i.toNat < 1024 → (target = page → i.toNat < 768) →
        (indices.foldl (copyEntry source target) p).entry page i = p.entry page i := by
  induction indices generalizing p with
  | nil => exact ⟨.refl p, fun _ _ _ _ _ => rfl⟩
  | cons first rest ih =>
    obtain ⟨low, high⟩ := upper first List.mem_cons_self
    have place : (BitVec.ofNat 32 first).toNat = first := toNat_ofNat_index high
    have touched := p.unseen_touch (source + 4 * BitVec.ofNat 32 first)
    have once : Unseen p (copyEntry source target p first) :=
      touched.trans (unseen_write (touched.steady.clear.mpr clear) (by omega) _)
    obtain ⟨unseen, same⟩ := ih (fun i member => upper i (List.mem_cons_of_mem _ member)) (once.steady.clear.mpr clear)
    rw [List.foldl_cons]
    refine ⟨once.trans unseen, ?_⟩
    intro page i page_ small user
    rw [same page i page_ small user, copyEntry, entry_write aligned page_ (by omega) small]
    apply if_neg
    rintro ⟨here, rfl⟩
    have low := user here
    omega

/-- A directory without a present entry in the user half owns only itself. -/
theorem owned_empty (absent : ∀ i : Word, i.toNat < 768 → p.entry pageDir i = 0) : p.owned pageDir = [pageDir] := by
  have nothing : (List.range 768).flatMap (p.tableBlocks pageDir) = [] := by
    apply List.flatMap_eq_nil_iff.mpr
    intro i member
    have bound := List.mem_range.mp member
    rw [tableBlocks, absent _ (by rwa [toNat_ofNat_index (by omega)])]
    rfl
  rw [owned, nothing, List.nil_append]

/-- What a call of `vmm_create_address_space` that returns a directory does. -/
structure Opened (b : Paging) (pageDir : Word) (q : Paging) : Prop where
  clear : b.Clear pageDir
  granted : ∃ m, b.allocBlock = (pageDir, m) ∧ Allocated b pageDir m ∧ Unseen m q
  empty : ∀ i : Word, i.toNat < 768 → q.entry pageDir i = 0
  elsewhere : ∀ page index, Page page → b.Clear page → page ≠ pageDir → index.toNat < 1024 →
    q.entry page index = b.entry page index

theorem Ready.opened (ready : b.Ready) (returned : b.createAddressSpace.1 ≠ 0) :
    Opened b b.createAddressSpace.1 b.createAddressSpace.2 := by
  rcases allocBlock_cases b with nothing | allocated
  · simp only [Paging.createAddressSpace, nothing, ↓reduceIte, ne_eq, not_true] at returned
  · have nonnull := allocated.ne_zero ready.null
    have clear : b.Clear b.allocBlock.1 := ready.storage _ allocated.member allocated.free
    simp only [Paging.createAddressSpace, nonnull, ↓reduceIte, physToVirt_eq]
    obtain ⟨pageDir, m, call⟩ : ∃ pageDir m, b.allocBlock = (pageDir, m) := ⟨_, _, rfl⟩
    rw [call] at allocated clear ⊢
    dsimp only at allocated clear ⊢
    have aligned := allocated.member.page
    have markedClear : m.Clear pageDir := allocated.steady.clear.mpr clear
    have unseen := unseen_clearPage markedClear
    have zero (i : Word) (small : i.toNat < 1024) : (m.clearPage pageDir).entry pageDir i = 0 := by
      rw [entry_clearPage aligned aligned small, if_pos rfl]
    have others (page index : Word) (page_ : Page page) (pageClear : b.Clear page) (different : page ≠ pageDir)
        (small : index.toNat < 1024) : (m.clearPage pageDir).entry page index = b.entry page index := by
      rw [entry_clearPage aligned page_ small, if_neg different.symm, allocated.entry page index pageClear small]
    by_cases kernel : b.kernelDirectory = 0
    · simp only [kernel, ↓reduceIte]
      exact ⟨clear, ⟨m, call, allocated, unseen⟩, fun i user => zero i (by omega), others⟩
    · simp only [kernel, ↓reduceIte]
      have upper (i : Nat) (member : i ∈ List.range' 768 256) : 768 ≤ i ∧ i < 1024 := by
        rw [List.mem_range'_1] at member
        omega
      obtain ⟨copied, same⟩ := copyEntries_spec b.kernelDirectory aligned upper (unseen.steady.clear.mpr markedClear)
      refine ⟨clear, ⟨m, call, allocated, unseen.trans copied⟩, ?_, ?_⟩
      · intro i user
        rw [same pageDir i aligned (by omega) fun _ => user, zero i (by omega)]
      · intro page index page_ pageClear different small
        rw [same page index page_ small fun here => absurd here.symm different,
          others page index page_ pageClear different small]

theorem Ready.createAddressSpace (ready : b.Ready) (returned : b.createAddressSpace.1 ≠ 0) :
    Owns b b.createAddressSpace.2 b.createAddressSpace.1 [] := by
  have opened := ready.opened returned
  obtain ⟨m, _, allocated, unseen⟩ := opened.granted
  refine ⟨ready, ?_⟩
  rw [owned_empty opened.empty, List.nil_append]
  exact ((Holds.refl b).allocated allocated).keep unseen

/-- Outside of the bitmap memory is the same. -/
def SameMemory (p q : Paging) : Prop := Alters (fun _ => False) p q

/-- A loop whose turns give back the first of the held blocks, each turn the
share that the tables of `p` say. -/
theorem foldl_release {α : Type} {step : Paging → α → Paging} {share : α → List Word} {turns : List α}
    (each : ∀ turn ∈ turns, ∀ q later, SameMemory p q → Holds b q (share turn ++ later) →
      Holds b (step q turn) later ∧ SameMemory p (step q turn))
    (same : SameMemory p q) (holds : Holds b q (turns.flatMap share ++ rest)) :
    Holds b (turns.foldl step q) rest ∧ SameMemory p (turns.foldl step q) := by
  induction turns generalizing q with
  | nil => exact ⟨holds, same⟩
  | cons first others ih =>
    rw [List.flatMap_cons, List.append_assoc] at holds
    obtain ⟨next, kept⟩ := each first List.mem_cons_self q _ same holds
    rw [List.foldl_cons]
    exact ih (fun turn member => each turn (List.mem_cons_of_mem _ member)) kept next

theorem Holds.release (holds : Holds b q (block :: rest)) (steady : Steady b p) (same : SameMemory p q) :
    Holds b (q.freeBlock block) rest ∧ SameMemory p (q.freeBlock block) := by
  have member := holds.steady.block_iff.mpr (holds.fresh block List.mem_cons_self).1
  refine ⟨holds.freed (freeBlock_freed member), ?_⟩
  intro place outside other
  have alike : q.InBitmap place ↔ p.InBitmap place :=
    holds.steady.toSameStatics.inBitmap.trans steady.toSameStatics.inBitmap.symm
  have freed : Alters (fun _ => False) q (q.freeBlock block) := alters_freeBlock member
  exact (freed place (fun inside => outside (alike.mp inside)) other).trans (same place outside other)

/-- One turn of the inner loop of `vmm_destroy_address_space`. -/
theorem destroyEntry_release (steady : Steady b p) (aligned : Page table) (clear : p.Clear table) {j : Nat} (small : j < 1024) (same : SameMemory p q)
    (holds : Holds b q (entryBlock (p.entry table (BitVec.ofNat 32 j)) ++ rest)) :
    Holds b (destroyEntry table q j) rest ∧ SameMemory p (destroyEntry table q j) := by
  have word : q.entry table (BitVec.ofNat 32 j) = p.entry table (BitVec.ofNat 32 j) :=
    same.entry aligned clear id (by rwa [toNat_ofNat_index small])
  have touched := holds.keep (q.unseen_touch (table + 4 * BitVec.ofNat 32 j))
  by_cases present : p.entry table (BitVec.ofNat 32 j) &&& pagePresent ≠ 0
  · rw [entryBlock_present present, List.singleton_append] at touched
    simp only [destroyEntry, read_entry, word, if_pos present]
    exact touched.release steady same
  · have absent : p.entry table (BitVec.ofNat 32 j) &&& pagePresent = 0 := not_not.mp present
    rw [entryBlock_absent absent, List.nil_append] at touched
    simp only [destroyEntry, read_entry, word, if_neg present]
    exact ⟨touched, same⟩

/-- One turn of its outer loop. -/
theorem destroyTable_release {more : List Word} (owns : Owns b p pageDir more) {i : Nat} (user : i < 768) (same : SameMemory p q)
    (holds : Holds b q (p.tableBlocks pageDir i ++ rest)) :
    Holds b (destroyTable pageDir q i) rest ∧ SameMemory p (destroyTable pageDir q i) := by
  have index : (BitVec.ofNat 32 i).toNat = i := toNat_ofNat_index (by omega)
  have steady := owns.holds.steady
  have word : q.entry pageDir (BitVec.ofNat 32 i) = p.entry pageDir (BitVec.ofNat 32 i) :=
    same.entry owns.directory_page (owns.clear (Owns.mem_directory p pageDir)) id (by omega)
  have touched := holds.keep (q.unseen_touch (pageDir + 4 * BitVec.ofNat 32 i))
  rw [tableBlocks] at touched
  by_cases present : p.entry pageDir (BitVec.ofNat 32 i) &&& pagePresent ≠ 0
  · have has : p.HasTable pageDir (BitVec.ofNat 32 i) (pageOf (p.entry pageDir (BitVec.ofNat 32 i))) :=
      ⟨by omega, present, rfl⟩
    have clear := owns.clear (Owns.mem_table has (by omega))
    rw [entryBlock_present present, List.flatMap_singleton, List.append_assoc, pageBlocks] at touched
    simp only [destroyTable, read_entry, word, if_pos present, physToVirt_eq]
    have looked : SameMemory p (q.touch (pageDir + 4 * BitVec.ofNat 32 i)) := same
    have pages := foldl_release (fun j member _ _ kept held =>
      destroyEntry_release steady has.page clear (List.mem_range.mp member) kept held) looked touched
    exact pages.1.release steady pages.2
  · have absent : p.entry pageDir (BitVec.ofNat 32 i) &&& pagePresent = 0 := not_not.mp present
    rw [entryBlock_absent absent, List.flatMap_nil, List.nil_append] at touched
    simp only [destroyTable, read_entry, word, if_neg present]
    exact ⟨touched, same⟩

/-- Destroying the address space gives back all it holds, and no more. -/
theorem Owns.destroyAddressSpace {more : List Word} (owns : Owns b p pageDir more) :
    Holds b (p.destroyAddressSpace pageDir) more ∧ SameMemory p (p.destroyAddressSpace pageDir) := by
  have inside : pageDir ∈ more ++ p.owned pageDir := List.mem_append_right _ (mem_directory p pageDir)
  have nonnull := owns.ne_zero (mem_directory p pageDir)
  have notKernel : pageDir ≠ p.kernelDirectory := by
    intro same
    have free := (owns.holds.fresh pageDir inside).2
    rw [same, owns.holds.steady.kernelDirectory, owns.ready.kernel] at free
    · cases free
    · rw [← owns.holds.steady.kernelDirectory, ← same]
      exact nonnull
  have holds := owns.holds.perm List.perm_append_comm
  rw [owned, List.append_assoc] at holds
  have tables := foldl_release (fun i member _ _ kept held =>
    destroyTable_release owns (List.mem_range.mp member) kept held) (.refl p) holds
  have guard : ¬ (pageDir = 0 ∨ pageDir = p.kernelDirectory) := by
    rintro (null | kernel)
    · exact nonnull null
    · exact notKernel kernel
  rw [Paging.destroyAddressSpace, if_neg guard, physToVirt_eq]
  exact tables.1.release owns.holds.steady tables.2

/-- The storage of the bitmap holds the same bytes. -/
def SameBitmap (p q : Paging) : Prop := ∀ byte < p.maxBlocks.toNat / 8, q.mem (p.storage byte) = p.mem (p.storage byte)

/-- When nothing is held any more, the allocator is where it was. -/
theorem Holds.sameBitmap (holds : Holds b q []) : SameBitmap b q := by
  intro byte below
  have blocks := b.blocks
  by_cases searched : byte < 4 * (b.maxBlocks.toNat / 32)
  · have word : loadWord q.mem (b.bitmapWord (byte / 4)) = loadWord b.mem (b.bitmapWord (byte / 4)) := by
      apply BitVec.eq_of_getLsbD_eq
      intro bit small
      have same := holds.inUse (byte / 4 * 32 + bit) (by unfold Paging.searched; omega)
      simp only [List.not_mem_nil, false_and, exists_false, or_false] at same
      have place : (byte / 4 * 32 + bit) / 32 = byte / 4 ∧ (byte / 4 * 32 + bit) % 32 = bit := by omega
      have address : q.bitmapWord (byte / 4) = b.bitmapWord (byte / 4) := by
        rw [bitmapWord, bitmapWord, holds.steady.bitmapAddr]
      simp only [Paging.inUse, pmm, Bitmap.test, place, address] at same
      exact Bool.eq_iff_iff.mpr same
    have place : b.storage byte = b.bitmapWord (byte / 4) + BitVec.ofNat 32 (byte % 4) := by
      rw [storage, bitmapWord, BitVec.add_assoc, ← BitVec.ofNat_add]
      congr 2
      omega
    have lane : byte % 4 < 4 := Nat.mod_lt byte (by decide)
    rw [place, loadWord_lane q.mem _ lane, loadWord_lane b.mem _ lane, word]
  · exact holds.steady.rest byte (by omega) below

/-- One use of the address space by its owner. -/
inductive Use (pageDir : Word) : Paging → Paging → Prop
  | alloc (p : Paging) (virtAddr flags : Word) : virtAddr < kernelVirtualBase →
    (p.isMapped pageDir virtAddr).1 = false → flags.toNat < 0x1000 → Use pageDir p (p.allocPage pageDir virtAddr flags).2
  | free (p : Paging) (virtAddr : Word) : virtAddr < kernelVirtualBase → Use pageDir p (p.freePage pageDir virtAddr)

theorem Owns.use (owns : Owns b p pageDir []) (use : Use pageDir p q) : Owns b q pageDir [] := by
  cases use with
  | alloc virtAddr flags user unmapped small => exact owns.allocPage user unmapped small
  | free virtAddr user => exact owns.freePage user

/-- Whatever its owner does with an address space in between, creating and
destroying it leaves the bitmap and the counter as they were, and no block is
freed that was not taken on the way and still held. -/
theorem lifecycle_restores_allocator (b : Paging) (ready : b.Ready) (created : b.createAddressSpace.1 ≠ 0)
    {p : Paging} (run : Reachable (Use b.createAddressSpace.1) b.createAddressSpace.2 p) :
    (∃ calls, (p.destroyAddressSpace b.createAddressSpace.1).calls = calls ++ b.calls ∧ Ledger.Honest calls) ∧
      SameBitmap b (p.destroyAddressSpace b.createAddressSpace.1) ∧
      (p.destroyAddressSpace b.createAddressSpace.1).usedBlocks = b.usedBlocks := by
  have owns : Owns b p b.createAddressSpace.1 [] := by
    induction run with
    | refl => exact ready.createAddressSpace created
    | tail _ last ih => exact ih.use last
  have holds := owns.destroyAddressSpace.1
  obtain ⟨calls, shape, honest, _⟩ := holds.ledger
  refine ⟨⟨calls, shape, honest⟩, holds.sameBitmap, ?_⟩
  rw [holds.used, List.length_nil]
  exact BitVec.add_zero _

theorem smallMachine_ready : smallMachine.Ready := by
  constructor
  · decide
  · intro block known _
    have bound := known.bound
    have aligned := known.page
    have searched : smallMachine.searched = 32 := by decide
    unfold Page at aligned
    exact smallMachine_clear (by omega)
  · intro impossible
    exact absurd rfl impossible

/-- On a machine of 31 free frames a page is allocated, which takes a table
too, and freed again before the address space is destroyed. -/
theorem lifecycle_restores_allocator_one_page :
    smallMachine.createAddressSpace.1 = 0x1000 ∧
    ∃ p, Reachable (Use 0x1000) smallMachine.createAddressSpace.2 p ∧
      (p.destroyAddressSpace 0x1000).usedBlocks = smallMachine.usedBlocks ∧ SameBitmap smallMachine (p.destroyAddressSpace 0x1000) := by
  have created : smallMachine.createAddressSpace.1 = 0x1000 := by decide +kernel
  have unmapped : (smallMachine.createAddressSpace.2.isMapped 0x1000 0x40000000).1 = false := by decide +kernel
  let allocated := (smallMachine.createAddressSpace.2.allocPage 0x1000 0x40000000 7).2
  have run : Reachable (Use 0x1000) smallMachine.createAddressSpace.2 (allocated.freePage 0x1000 0x40000000) :=
    (Relation.ReflTransGen.refl.tail (.alloc _ _ _ (by decide) unmapped (by decide))).tail (.free _ _ (by decide))
  have nonnull : smallMachine.createAddressSpace.1 ≠ 0 := by
    rw [created]
    decide
  have fromStart : Reachable (Use smallMachine.createAddressSpace.1) smallMachine.createAddressSpace.2
      (allocated.freePage 0x1000 0x40000000) := by
    rw [created]
    exact run
  have restored := lifecycle_restores_allocator smallMachine smallMachine_ready nonnull fromStart
  generalize allocated.freePage 0x1000 0x40000000 = p at run restored
  rw [created] at restored
  exact ⟨created, p, run, restored.2.2, restored.2.1⟩

end MexOS.Mm.Paging
