import MexOS.Mm.CloneCopy

/-! A new address space while its owner has pages allocated in it, seen from the
state before it was created. -/

namespace MexOS.Mm.Paging

open MexOS.Machine

variable {b p q m : Paging} {pageDir virtAddr flags table block address : Word}

section Given

/-- What giving a page to an address without one does; the page was `taken` from
the allocator on the way, or before. -/
structure PageGiven (p : Paging) (pageDir virtAddr : Word) (taken : Nat) (q : Paging) : Prop where
  supply : q.supply + taken + (if p.entry pageDir (pageDirectoryIndex virtAddr) &&& pagePresent = 0 then 1 else 0) = p.supply
  directory : ∀ index : Word, index.toNat < 768 → index ≠ pageDirectoryIndex virtAddr →
    q.entry pageDir index = p.entry pageDir index
  present : q.entry pageDir (pageDirectoryIndex virtAddr) &&& pagePresent ≠ 0
  others : ∀ address, address < kernelVirtualBase → pageOf address ≠ pageOf virtAddr →
    q.translation pageDir address = p.translation pageDir address
  preserves : Preserves (· ∈ p.owned pageDir) p q

theorem Linked.supply (linked : Linked p pageDir virtAddr p.allocBlock.1 q) (returned : p.allocBlock.1 ≠ 0) :
    q.supply + 1 = p.supply := by
  have allocated := allocBlock_returned returned
  have same : q.supply = p.allocBlock.2.supply := by
    have free : q.spare p.searched = p.allocBlock.2.spare p.searched := by
      refine congrArg Finset.card (Finset.filter_congr fun frame inside => ?_)
      have bound := Finset.mem_range.mp inside
      rw [linked.inUse frame bound, allocated.inUse frame bound]
    unfold Paging.supply
    rw [linked.steady.maxBlocks, linked.used, linked.steady.searched, allocated.steady.maxBlocks, allocated.used,
      allocated.steady.searched, free]
  rw [same]
  exact allocated.supply returned

section Steps

variable {more : List Word} (owns : Owns b p pageDir more) (user : virtAddr < kernelVirtualBase)

include owns user

/-- The store into the table. -/
theorem Owns.entered (has : p.HasTable pageDir (pageDirectoryIndex virtAddr) table) (value : Word) :
    (p.write (table + 4 * pageTableIndex virtAddr) value).supply = p.supply ∧
      (∀ index : Word, index.toNat < 1024 →
        (p.write (table + 4 * pageTableIndex virtAddr) value).entry pageDir index = p.entry pageDir index) ∧
      (∀ address, address < kernelVirtualBase → pageOf address ≠ pageOf virtAddr →
        (p.write (table + 4 * pageTableIndex virtAddr) value).translation pageDir address = p.translation pageDir address) ∧
      Preserves (· = table) p (p.write (table + 4 * pageTableIndex virtAddr) value) := by
  have half := pageDirectoryIndex_user user
  have small := pageTableIndex_lt virtAddr
  have taken := owns.taken (Owns.mem_table has half)
  have notDirectory := table_ne_directory owns.distinct has half
  have entry (page k : Word) (page_ : Page page) (kSmall : k.toNat < 1024) :=
    @entry_write p table page (pageTableIndex virtAddr) k value has.page page_ small kSmall
  have directory (index : Word) (indexSmall : index.toNat < 1024) :=
    (entry pageDir index owns.directory_page indexSmall).trans (if_neg fun same => notDirectory same.1)
  refine ⟨(unseen_write taken.clear small value).supply, directory, ?_, preserves_write taken small value⟩
  intro address address_user different
  have address_half := pageDirectoryIndex_user address_user
  refine translation_congr (directory _ (by omega)) fun other otherHas => ?_
  rw [entry other _ otherHas.page (pageTableIndex_lt address)]
  refine if_neg ?_
  -- another page has another table, or another entry in the same one
  rintro ⟨rfl, same⟩
  have index := table_once owns.distinct has half address_half otherHas
  exact different (pageOf_eq_iff.mpr ⟨index, same.symm⟩)

/-- The new table. -/
theorem Owns.extended (missing : p.entry pageDir (pageDirectoryIndex virtAddr) &&& pagePresent = 0)
    (clear : p.Clear table) (linked : Linked p pageDir virtAddr table q) :
    (∀ index : Word, index.toNat < 768 → index ≠ pageDirectoryIndex virtAddr → q.entry pageDir index = p.entry pageDir index) ∧
      (∀ address, address < kernelVirtualBase → q.translation pageDir address = p.translation pageDir address) ∧
      Preserves (· = pageDir) p q := by
  have dirTaken := owns.taken (Owns.mem_directory p pageDir)
  have unused {page : Word} (taken : p.Taken page) : table ≠ page := by
    rintro rfl
    have free := linked.free
    rw [taken.inUse] at free
    cases free
  have entry {page index : Word} (taken : p.Taken page) (small : index.toNat < 1024)
      (other : ¬ (pageDir = page ∧ pageDirectoryIndex virtAddr = index)) : q.entry page index = p.entry page index := by
    rw [linked.entry page index taken.page taken.clear small, if_neg other, if_neg (unused taken)]
  have directory (index : Word) (small : index.toNat < 768) (different : index ≠ pageDirectoryIndex virtAddr) :=
    entry dirTaken (show index.toNat < 1024 by omega) fun same => different same.2.symm
  refine ⟨directory, ?_, linked.steady, ?_, ?_⟩
  · intro address address_user
    have half := pageDirectoryIndex_user address_user
    by_cases here : pageDirectoryIndex address = pageDirectoryIndex virtAddr
    · obtain ⟨_, has, empty⟩ := owns.linked (pageDirectoryIndex_user user) missing clear linked
      rw [← here] at missing has
      rw [translation_absent missing, translation_found has, empty _ (pageTableIndex_lt address)]
      exact ite_self none
    · refine translation_congr (directory _ half here) fun other has => ?_
      have member := Owns.mem_table has half
      refine entry (owns.taken member) (pageTableIndex_lt address) ?_
      rintro ⟨rfl, _⟩
      exact table_ne_directory owns.distinct has half rfl
  · intro frame bound used
    rw [linked.inUse frame bound, used, Bool.or_true]
  · exact fun page index taken different small => entry taken small fun same => different same.1.symm

end Steps

theorem Owns.mapPage_given (owns : Owns b p pageDir [block]) (user : virtAddr < kernelVirtualBase)
    (mapped : (p.mapPage pageDir virtAddr block flags).1 = 0) :
    PageGiven p pageDir virtAddr 0 (p.mapPage pageDir virtAddr block flags).2 := by
  have page_user := pageOf_user user
  have half := pageDirectoryIndex_user page_user
  have dirClear := owns.clear (Owns.mem_directory p pageDir)
  have same := pageDirectoryIndex_pageOf virtAddr
  have away {address : Word} (different : pageOf address ≠ pageOf virtAddr) : pageOf address ≠ pageOf (pageOf virtAddr) := by
    rwa [pageOf_of_page (page_pageOf virtAddr)]
  rcases getPageTable_cases owns.directory_page dirClear owns.null
    (fun granted => owns.holds.next_clear owns.ready granted) (pageOf virtAddr) with
    ⟨has, state⟩ | ⟨missing, ⟨_, failed⟩ | ⟨result, nonnull, linked⟩⟩
  · have member := Owns.mem_table has half
    have touched : Owns b (p.touch (slot pageDir (pageOf virtAddr))) pageDir [block] :=
      owns.congr (owns.holds.keep (p.unseen_touch _)) fun _ _ _ _ _ => rfl
    rw [mapPage_reached (owns.ne_zero member), state]
    obtain ⟨supply, directory, others, preserves⟩ := touched.entered page_user (has.touch _) (pageOf block ||| flags)
    rw [same] at has
    refine ⟨?_, fun index small _ => directory index (by omega), ?_, ?_, ?_⟩
    · rw [supply, if_neg has.present]
      exact (p.unseen_touch _).supply
    · rw [directory _ has.small]
      exact has.present
    · intro address address_user different
      exact (others address address_user (away different)).trans (translation_congr rfl fun _ _ => rfl)
    · refine (preserves_touch p (slot pageDir (pageOf virtAddr))).trans (preserves.weaken ?_)
      rintro page rfl
      exact member
  · rw [mapPage_null (by rw [failed])] at mapped
    cases mapped
  · obtain ⟨after, has, _⟩ := owns.linked half missing (owns.holds.next_clear owns.ready nonnull) linked
    obtain ⟨directory, translations, extended⟩ :=
      owns.extended page_user missing (owns.holds.next_clear owns.ready nonnull) linked
    have less := linked.supply nonnull
    rw [mapPage_reached (by rwa [result]), result]
    obtain ⟨supply, entries, others, preserves⟩ := after.entered page_user has (pageOf block ||| flags)
    have fresh (page : Word) (taken : p.Taken page) : page ≠ p.allocBlock.1 := by
      rintro rfl
      have free := linked.free
      rw [taken.inUse] at free
      cases free
    rw [same] at missing has directory
    refine ⟨?_, ?_, ?_, ?_, ?_⟩
    · rw [supply, if_pos missing]
      exact less
    · intro index small different
      rw [entries index (by omega), directory index small different]
    · rw [entries _ has.small]
      exact has.present
    · intro address address_user different
      rw [others address address_user (away different), translations address address_user]
    · refine (extended.weaken ?_).unused preserves fresh
      rintro page rfl
      exact Owns.mem_directory p page

theorem Owns.allocPage_given (owns : Owns b p pageDir []) (user : virtAddr < kernelVirtualBase)
    (done : (p.allocPage pageDir virtAddr flags).1 = 0) :
    PageGiven p pageDir virtAddr 1 (p.allocPage pageDir virtAddr flags).2 := by
  obtain ⟨returned, mapped, state⟩ := allocPage_done done
  have allocated := allocBlock_returned returned
  have less := allocated.supply returned
  rw [state]
  generalize p.allocBlock.1 = page at *
  generalize p.allocBlock.2 = m at *
  have preserves : Preserves (fun _ => False) p m := allocated.preserves
  have entry (other index : Word) (member : other ∈ p.owned pageDir) (small : index.toNat < 1024) :
      m.entry other index = p.entry other index := preserves.entry other index (owns.taken member) id small
  have directory (index : Word) (small : index.toNat < 768) : m.entry pageDir index = p.entry pageDir index :=
    entry pageDir index (Owns.mem_directory p pageDir) (by omega)
  have tables (index table : Word) (small : index.toNat < 768) (has : p.HasTable pageDir index table) (j : Word)
      (jSmall : j.toNat < 1024) : m.entry table j = p.entry table j := entry table j (Owns.mem_table has small) jSmall
  have taken : Owns b m pageDir [page] :=
    owns.congr (owns.holds.allocated allocated) fun other index _ member small => entry other index member small
  have given := taken.mapPage_given user mapped
  have half := pageDirectoryIndex_user user
  have supply := given.supply
  refine ⟨?_, ?_, given.present, ?_, ?_⟩
  · rw [← directory _ half]
    omega
  · exact fun index small different => (given.directory index small different).trans (directory index small)
  · intro address address_user different
    have address_half := pageDirectoryIndex_user address_user
    refine (given.others address address_user different).trans ?_
    exact translation_congr (directory _ address_half) fun table has =>
      tables _ table address_half has _ (pageTableIndex_lt address)
  · refine (preserves.weaken fun _ => False.elim).trans (given.preserves.weaken fun other member => ?_)
    rwa [owned_congr directory tables] at member

/-- A call that fails has found no block for the page, or none for its table and
has given the page back. -/
theorem Owns.allocPage_failed (owns : Owns b p pageDir []) (user : virtAddr < kernelVirtualBase)
    (failed : (p.allocPage pageDir virtAddr flags).1 ≠ 0) :
    (p.allocPage pageDir virtAddr flags).2 = p ∧ p.supply = 0 ∨
      (Allocated p p.allocBlock.1 p.allocBlock.2 ∧ ∃ address,
        (p.allocPage pageDir virtAddr flags).2 = (p.allocBlock.2.touch address).freeBlock p.allocBlock.1) ∧
      p.supply = 1 ∧ p.entry pageDir (pageDirectoryIndex virtAddr) &&& pagePresent = 0 := by
  by_cases returned : p.allocBlock.1 = 0
  · rw [Paging.allocPage, if_pos returned, allocBlock_failed owns.null returned]
    exact .inl ⟨rfl, supply_of_failed owns.null returned⟩
  · have allocated := allocBlock_returned returned
    have less := allocated.supply returned
    have half : (pageDirectoryIndex (pageOf virtAddr)).toNat < 768 := pageDirectoryIndex_user (pageOf_user user)
    simp only [Paging.allocPage, returned, ↓reduceIte] at failed ⊢
    generalize p.allocBlock.1 = page at *
    generalize p.allocBlock.2 = m at *
    have entry (other index : Word) (member : other ∈ p.owned pageDir) (small : index.toNat < 1024) :
        m.entry other index = p.entry other index := allocated.entry other index (owns.clear member) small
    have taken : Owns b m pageDir [page] := owns.congr (owns.holds.allocated allocated) fun other index _ => entry other index
    rcases getPageTable_cases taken.directory_page (taken.clear (Owns.mem_directory m pageDir)) taken.null
      (fun granted => taken.holds.next_clear taken.ready granted) (pageOf virtAddr) with
      ⟨has, _⟩ | ⟨missing, ⟨nothing, null⟩ | ⟨result, nonnull, _⟩⟩
    · rw [mapPage_reached (taken.ne_zero (Owns.mem_table has half))] at failed
      exact absurd rfl failed
    · have state : m.mapPage pageDir virtAddr page (flags ||| pagePresent) = (-1, m.touch (slot pageDir (pageOf virtAddr))) := by
        rw [mapPage_null (by rw [null]), null]
      have empty : m.supply = 0 := supply_of_failed taken.null (by rw [nothing])
      rw [pageDirectoryIndex_pageOf] at missing half
      rw [state, ← entry pageDir _ (Owns.mem_directory p pageDir) (by omega)]
      exact .inr ⟨⟨allocated, _, rfl⟩, by omega, missing⟩
    · rw [mapPage_reached (by rwa [result])] at failed
      exact absurd rfl failed

/-- It leaves what is in use as it was. -/
theorem Owns.allocPage_refused (owns : Owns b p pageDir []) (user : virtAddr < kernelVirtualBase)
    (failed : (p.allocPage pageDir virtAddr flags).1 ≠ 0) : Preserves (fun _ => False) p (p.allocPage pageDir virtAddr flags).2 := by
  rcases owns.allocPage_failed user failed with ⟨same, _⟩ | ⟨⟨allocated, address, state⟩, _⟩
  · rw [same]
    exact .refl p
  · rw [state]
    exact allocated.undone address

end Given

section Growing

theorem unseen_isMapped (p : Paging) (pageDir address : Word) : Unseen p (p.isMapped pageDir address).2 := by
  unfold Paging.isMapped
  dsimp only
  by_cases absent : p.entry pageDir (pageDirectoryIndex address) &&& pagePresent = 0
  · rw [getPageTable_absent absent]
    exact p.unseen_touch _
  · rw [getPageTable_found false absent]
    split
    · exact p.unseen_touch _
    · exact (p.unseen_touch _).trans (unseen_touch _ _)

/-- The blocks of the new address space are all that was taken since, and what was
in use before is as it was. -/
structure Growing (b : Paging) (pageDir : Word) (p : Paging) : Prop where
  owns : Owns b p pageDir []
  kept : Preserves (fun _ => False) b p

theorem Growing.fresh (growing : Growing b pageDir p) (taken : b.Taken block) : block ∉ p.owned pageDir := by
  intro member
  have free := (growing.owns.all.fresh block member).2
  rw [taken.inUse] at free
  cases free

theorem Ready.growing (ready : b.Ready) (returned : b.createAddressSpace.1 ≠ 0) :
    Growing b b.createAddressSpace.1 b.createAddressSpace.2 := by
  have owns := ready.createAddressSpace returned
  exact ⟨owns, ((ready.opened returned).copying owns).kept⟩

theorem Growing.keep (growing : Growing b pageDir p) (unseen : Unseen p q) (preserves : Preserves (fun _ => False) p q) :
    Growing b pageDir q := by
  refine ⟨growing.owns.congr (growing.owns.holds.keep unseen) ?_, growing.kept.trans preserves⟩
  exact fun page index _ member small => preserves.entry page index (growing.owns.taken member) id small

theorem Growing.allocPage (growing : Growing b pageDir p) (user : virtAddr < kernelVirtualBase)
    (unmapped : (p.isMapped pageDir virtAddr).1 = false) (small : flags.toNat < 0x1000) :
    Growing b pageDir (p.allocPage pageDir virtAddr flags).2 := by
  refine ⟨growing.owns.allocPage user unmapped small, ?_⟩
  by_cases done : (p.allocPage pageDir virtAddr flags).1 = 0
  · exact growing.kept.unused (growing.owns.allocPage_given user done).preserves fun page => growing.fresh
  · exact growing.kept.trans (growing.owns.allocPage_refused user done)

/-- Giving it up leaves nothing behind. -/
theorem Growing.destroyAddressSpace (growing : Growing b pageDir p) :
    Holds b (p.destroyAddressSpace pageDir) [] ∧ Preserves (fun _ => False) b (p.destroyAddressSpace pageDir) := by
  obtain ⟨holds, same⟩ := growing.owns.destroyAddressSpace
  refine ⟨holds, holds.preserves fun page index taken small => ?_⟩
  have before := growing.kept.taken taken
  exact (same.entry before.page before.clear id small).trans (growing.kept.entry page index taken id small)

/-- The bitmap has a bit for each frame there may be. -/
def bitmapSpan : Nat := 2 ^ 17

/-- The place is outside of the bitmap, and keeps its byte. -/
structure KeepsByte (p : Paging) (place : Word) (q : Paging) : Prop where
  bitmap : q.bitmapAddr = p.bitmapAddr
  byte : q.mem place = p.mem place

theorem KeepsByte.read {place : Word} (keeps : KeepsByte p place q) (address : Word) : KeepsByte p place (q.read address).2 :=
  ⟨keeps.bitmap, keeps.byte⟩

theorem KeepsByte.freeBlock {place : Word} (keeps : KeepsByte p place q) (outside : bitmapSpan ≤ (place - p.bitmapAddr).toNat)
    (block : Word) : KeepsByte p place (q.freeBlock block) := by
  refine ⟨keeps.bitmap, (storeWord_frame ?_).trans keeps.byte⟩
  have limit := block.isLt
  have frame : (BitVec.ofNat 32 (block.toNat / pmmBlockSize)).toNat / 32 < 2 ^ 15 := by
    rw [BitVec.toNat_ofNat, pmmBlockSize]
    omega
  generalize (BitVec.ofNat 32 (block.toNat / pmmBlockSize)).toNat / 32 = word at frame ⊢
  rw [bitmapWord, keeps.bitmap]
  unfold bitmapSpan at outside
  bv_omega

/-- Destroying an address space stores nothing but bits of the bitmap. -/
theorem destroyAddressSpace_byte {place : Word} (outside : bitmapSpan ≤ (place - p.bitmapAddr).toNat) :
    (p.destroyAddressSpace pageDir).mem place = p.mem place := by
  have entries (q : Paging) (keeps : KeepsByte p place q) (table : Word) (turns : List Nat) :
      KeepsByte p place (turns.foldl (destroyEntry table) q) := by
    refine List.foldlRecOn turns _ keeps fun q keeps j _ => ?_
    unfold destroyEntry
    dsimp only
    split
    · exact (keeps.read _).freeBlock outside _
    · exact keeps.read _
  have tables (dir : Word) (turns : List Nat) : KeepsByte p place (turns.foldl (destroyTable dir) p) := by
    refine List.foldlRecOn turns _ ⟨rfl, rfl⟩ fun q keeps i _ => ?_
    unfold destroyTable
    dsimp only
    split
    · exact (entries _ (keeps.read _) _ _).freeBlock outside _
    · exact keeps.read _
  unfold Paging.destroyAddressSpace
  split
  · rfl
  · exact ((tables _ _).freeBlock outside pageDir).byte

end Growing

end MexOS.Mm.Paging
