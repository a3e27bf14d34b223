import MexOS.Core.ElfRules
import MexOS.Mm.Guarded

/-! A machine that maps all pages but one, as the loader meets it. -/

namespace MexOS.Core.Loading

open MexOS.Machine MexOS.Mm MexOS.Mm.Paging Monitored

variable {data : Bytes} {p : Paging}

section Holed

/-- Words of the active directory, the table that all its entries point to, the
directory to load into, the table that one of its entries points to, and the
bitmap. -/
def holedWord (hole : Word) (page index : Nat) : Word :=
  if page = 1 then 0x2007
  else if page = 2 then 0x3007
  else if page = 4 then if index = (pageDirectoryIndex hole).toNat then 0x5007 else 0x2007
  else if page = 5 then if index = (pageTableIndex hole).toNat then 0 else 0x3007
  else if page = 0x100 ∧ index = 0 then 0x3F
  else 0

theorem holedPage_direct : (0 : Word) = 0 ∨ (0 : Word) < kernelVirtualBase ∨ (0 : Word) = 0 := .inl rfl

theorem holedPage_blocks : (32 : Word).toNat < 2 ^ 20 := by decide

/-- A machine of 32 frames. The active directory at 0x1000 maps every page to the
frame at 0x3000, and the one at 0x4000 every page but one. -/
def holedPage (hole : Word) : Paging where
  mem := fun place => (holedWord hole (place.toNat / 4096) (place.toNat % 4096 / 4)).extractLsb' (8 * (place.toNat % 4)) 8
  kernelDirectory := 0
  currentDirectory := 0x1000
  kernelDirectoryPhys := 0
  bitmapAddr := 0x100000
  bitmapSize := 4
  memorySize := 0x20000
  usedBlocks := 6
  maxBlocks := 32
  cr3 := 0x1000
  paging := true
  trace := []
  direct := holedPage_direct
  blocks := holedPage_blocks

/-- Only the frame at 0x3000 was written to. -/
structure Holed (hole : Word) (p : Paging) : Prop where
  statics : SameStatics (holedPage hole) p
  used : p.usedBlocks = 6
  same : ∀ place : Word, place.toNat / 4096 ≠ 3 → p.mem place = (holedPage hole).mem place

variable {hole : Word}

theorem holed_holedPage (hole : Word) : Holed hole (holedPage hole) := ⟨.refl _, rfl, fun _ _ => rfl⟩

theorem Holed.word (holed : Holed hole p) {place : Word} (aligned : place.toNat % 4 = 0) (other : place.toNat / 4096 ≠ 3) :
    loadWord p.mem place = holedWord hole (place.toNat / 4096) (place.toNat % 4096 / 4) := by
  have limit := place.isLt
  apply loadWord_of_lanes
  intro k small
  have sum : (place + BitVec.ofNat 32 k).toNat = place.toNat + k := by
    rw [BitVec.toNat_add, BitVec.toNat_ofNat]
    omega
  have page : (place.toNat + k) / 4096 = place.toNat / 4096 := by omega
  have index : (place.toNat + k) % 4096 / 4 = place.toNat % 4096 / 4 := by omega
  have byte : (place.toNat + k) % 4 = k := by omega
  rw [holed.same _ (by omega), holedPage]
  dsimp only
  rw [sum, page, index, byte]

theorem Holed.entry (holed : Holed hole p) {page index : Word} (aligned : Page page) (other : page.toNat / 4096 ≠ 3)
    (small : index.toNat < 1024) : p.entry page index = holedWord hole (page.toNat / 4096) index.toNat := by
  have place : (page + 4 * index).toNat = page.toNat + 4 * index.toNat := by
    unfold Page at aligned
    bv_omega
  unfold Page at aligned
  have frame : (page.toNat + 4 * index.toNat) / 4096 = page.toNat / 4096 := by omega
  have word : (page.toNat + 4 * index.toNat) % 4096 / 4 = index.toNat := by omega
  rw [Paging.entry, pageWord, holed.word (by omega) (by omega), place, frame, word]

theorem Holed.inUse (holed : Holed hole p) {frame : Nat} (small : frame < 32) :
    p.inUse frame = (0x3F : Word).getLsbD frame := by
  have word : p.bitmapWord (frame / 32) = 0x100000 := by
    rw [show frame / 32 = 0 by omega, bitmapWord, holed.statics.bitmapAddr]
    rfl
  have bits : p.pmm.bitmap (frame / 32) = 0x3F := by
    change loadWord p.mem (p.bitmapWord (frame / 32)) = _
    rw [word, holed.word (by decide) (by decide)]
    rfl
  rw [Paging.inUse, Bitmap.test, bits, Nat.mod_eq_of_lt small]

theorem Holed.searched (holed : Holed hole p) : p.searched = 32 := by
  have blocks : (holedPage hole).maxBlocks = 32 := rfl
  rw [Paging.searched, holed.statics.maxBlocks, blocks]
  rfl

theorem Holed.clear (holed : Holed hole p) {page : Word} (low : page.toNat < 0x20000) : p.Clear page := by
  intro byte below
  have blocks : (holedPage hole).maxBlocks = 32 := rfl
  rw [holed.statics.maxBlocks, blocks] at below
  have few : byte < 4 := below
  rw [storage, holed.statics.bitmapAddr]
  change 4096 ≤ ((0x100000 : Word) + BitVec.ofNat 32 byte - page).toNat
  bv_omega

/-- The first six frames are in use. -/
theorem Holed.taken (holed : Holed hole p) {page : Word} (aligned : Page page) (low : page.toNat < 0x6000) : p.Taken page := by
  refine ⟨⟨aligned, by rw [holed.searched]; omega⟩, ?_, holed.clear (by omega)⟩
  rw [holed.inUse (by omega)]
  have frames : ∀ frame < 6, (0x3F : Word).getLsbD frame = true := by decide
  exact frames _ (by omega)

/-- The two directories of the machine. -/
def HoledSpaces (space : Word) : Prop := space = 0x4000 ∨ space = 0x1000

theorem Holed.active_entry (holed : Holed hole p) {index : Word} (small : index.toNat < 1024) : p.entry 0x1000 index = 0x2007 := by
  have one : (0x1000 : Word).toNat / 4096 = 1 := rfl
  rw [holed.entry (by decide) (by decide) small, one, holedWord, if_pos rfl]

theorem Holed.shared_entry (holed : Holed hole p) {index : Word} (small : index.toNat < 1024) : p.entry 0x2000 index = 0x3007 := by
  have two : (0x2000 : Word).toNat / 4096 = 2 := rfl
  rw [holed.entry (by decide) (by decide) small, two, holedWord, if_neg (by decide), if_pos rfl]

theorem Holed.directory_entry (holed : Holed hole p) {space index : Word} (known : HoledSpaces space) (small : index.toNat < 1024) :
    p.entry space index = 0x2007 ∨ p.entry space index = 0x5007 := by
  rcases known with rfl | rfl
  · rw [holed.entry (by decide) (by decide) small]
    have four : (0x4000 : Word).toNat / 4096 = 4 := rfl
    rw [four, holedWord, if_neg (by decide), if_neg (by decide), if_pos rfl]
    split
    · exact .inr rfl
    · exact .inl rfl
  · exact .inl (holed.active_entry small)

theorem Holed.hasTable (holed : Holed hole p) {space index table : Word} (known : HoledSpaces space)
    (has : p.HasTable space index table) : table = 0x2000 ∨ table = 0x5000 := by
  have points := has.points
  rcases holed.directory_entry known has.small with entry | entry <;> rw [entry] at points
  · exact .inl (points.symm.trans (by decide))
  · exact .inr (points.symm.trans (by decide))

theorem Holed.structural (holed : Holed hole p) {top : Nat} {page : Word} (structural : p.Structural HoledSpaces top page) :
    page = 0x4000 ∨ page = 0x1000 ∨ page = 0x2000 ∨ page = 0x5000 := by
  obtain ⟨space, known, rfl | ⟨index, _, has⟩⟩ := structural
  · exact known.imp_right .inl
  · exact .inr (.inr (holed.hasTable known has))

/-- An entry of a table is the scratch frame, or the hole. -/
theorem Holed.table_entry (holed : Holed hole p) {table index : Word} (known : table = 0x2000 ∨ table = 0x5000)
    (small : index.toNat < 1024) : p.entry table index = 0x3007 ∨
      p.entry table index = 0 ∧ table = 0x5000 ∧ index = pageTableIndex hole := by
  rcases known with rfl | rfl
  · exact .inl (holed.shared_entry small)
  · rw [holed.entry (by decide) (by decide) small]
    have five : (0x5000 : Word).toNat / 4096 = 5 := rfl
    rw [five, holedWord, if_neg (by decide), if_neg (by decide), if_neg (by decide), if_pos rfl]
    split
    · next here => exact .inr ⟨rfl, rfl, BitVec.eq_of_toNat_eq here⟩
    · exact .inl rfl

theorem Holed.guarded (holed : Holed hole p) {top : Nat} (range : top ≤ 1024) (reach : Word → Prop) :
    p.Guarded HoledSpaces top reach := by
  refine ⟨range, ?_, holed.statics.paging, holed.inUse (by decide), ?_, ?_, ?_, ?_⟩
  · rw [holed.statics.cr3]
    exact .inr rfl
  · intro block known _
    have bound := known.bound
    rw [holed.searched] at bound
    exact holed.clear (by omega)
  · intro page structural
    rcases holed.structural structural with rfl | rfl | rfl | rfl
    · exact ⟨holed.taken (by decide) (by decide), by decide⟩
    · exact ⟨holed.taken (by decide) (by decide), by decide⟩
    · exact ⟨holed.taken (by decide) (by decide), by decide⟩
    · exact ⟨holed.taken (by decide) (by decide), by decide⟩
  · intro space other index known otherKnown _ has
    rcases otherKnown with rfl | rfl <;> rcases holed.hasTable known has with same | same <;> exact absurd same (by decide)
  · intro address entry _ _ found
    obtain ⟨table, has, _, present, rfl⟩ := translation_some_iff.mp found
    have known : HoledSpaces p.cr3 := by
      rw [holed.statics.cr3]
      exact .inr rfl
    rcases holed.table_entry (holed.hasTable known has) (pageTableIndex_lt address) with entry | ⟨absent, _⟩
    · rw [entry]
      refine ⟨holed.taken (by decide) (by decide), fun structural => ?_⟩
      rcases holed.structural structural with same | same | same | same <;> exact absurd same (by decide)
    · rw [absent] at present
      exact absurd (by decide) present

/-- What the active directory maps is the scratch frame. -/
theorem Holed.active_translation (holed : Holed hole p) {address entry : Word} (found : p.translation p.cr3 address = some entry) :
    entry = 0x3007 := by
  have active : p.cr3 = 0x1000 := holed.statics.cr3
  have directory := holed.active_entry (pageDirectoryIndex_lt address)
  have has : p.HasTable 0x1000 (pageDirectoryIndex address) 0x2000 :=
    ⟨pageDirectoryIndex_lt address, by rw [directory]; decide, by rw [directory]; decide⟩
  rw [active, translation_found has, if_neg (by decide), holed.shared_entry (pageTableIndex_lt address), if_neg (by decide)] at found
  exact (Option.some.inj found).symm

theorem Holed.translation (holed : Holed hole p) (address : Word) : p.translation 0x4000 address =
    if pageOf address = pageOf hole then none else some 0x3007 := by
  have entry := holed.entry (show Page 0x4000 by decide) (by decide) (pageDirectoryIndex_lt address)
  have four : (0x4000 : Word).toNat / 4096 = 4 := rfl
  rw [four, holedWord, if_neg (by decide), if_neg (by decide), if_pos rfl] at entry
  have same : pageOf address = pageOf hole ↔ (pageDirectoryIndex address).toNat = (pageDirectoryIndex hole).toNat ∧
      pageTableIndex address = pageTableIndex hole := by
    rw [pageOf_eq_iff, BitVec.toNat_inj]
  by_cases slot : (pageDirectoryIndex address).toNat = (pageDirectoryIndex hole).toNat
  · rw [if_pos slot] at entry
    have has : p.HasTable 0x4000 (pageDirectoryIndex address) 0x5000 :=
      ⟨pageDirectoryIndex_lt address, by rw [entry]; decide, by rw [entry]; decide⟩
    have word := holed.entry (show Page 0x5000 by decide) (by decide) (pageTableIndex_lt address)
    have five : (0x5000 : Word).toNat / 4096 = 5 := rfl
    rw [five, holedWord, if_neg (by decide), if_neg (by decide), if_neg (by decide), if_pos rfl] at word
    rw [translation_found has, if_neg (by decide), word]
    by_cases index : pageTableIndex address = pageTableIndex hole
    · rw [if_pos (same.mpr ⟨slot, index⟩), if_pos (congrArg BitVec.toNat index), if_pos (by decide)]
    · rw [if_neg fun here => index (same.mp here).2, if_neg fun here => index (BitVec.eq_of_toNat_eq here),
        if_neg (by decide)]
  · rw [if_neg slot] at entry
    have has : p.HasTable 0x4000 (pageDirectoryIndex address) 0x2000 :=
      ⟨pageDirectoryIndex_lt address, by rw [entry]; decide, by rw [entry]; decide⟩
    rw [translation_found has, if_neg (by decide), holed.shared_entry (pageTableIndex_lt address), if_neg (by decide), if_neg fun here => slot (same.mp here).1]

theorem Holed.isMapped (holed : Holed hole p) (address : Word) :
    (p.isMapped 0x4000 address).1 = decide (pageOf address ≠ pageOf hole) := by
  rw [isMapped_eq, holed.translation]
  split
  · next here => rw [decide_eq_false (not_not_intro here)]; rfl
  · next away => rw [decide_eq_true away]; rfl

theorem Holed.walk (holed : Holed hole p) (address : Word) : ∃ frame, p.walk address = some frame ∧ frame.toNat / 4096 = 3 := by
  have directory : pageWord p.mem (pageOf p.cr3) (pageDirectoryIndex address) = 0x2007 := by
    have active : p.cr3 = 0x1000 := holed.statics.cr3
    rw [active, show pageOf 0x1000 = 0x1000 by decide]
    exact holed.active_entry (pageDirectoryIndex_lt address)
  have table : pageWord p.mem (pageOf 0x2007) (pageTableIndex address) = 0x3007 := by
    rw [show pageOf 0x2007 = 0x2000 by decide]
    exact holed.shared_entry (pageTableIndex_lt address)
  refine ⟨pageOf 0x3007 ||| (address &&& 0xFFF), ?_, ?_⟩
  · have on : p.paging = true := holed.statics.paging
    rw [Paging.walk, if_pos on, directory]
    dsimp only
    rw [if_neg (by decide), table, if_neg (by decide)]
  · have page : pageOf (pageOf 0x3007 ||| (address &&& 0xFFF)) = pageOf 0x3007 :=
      pageOf_or (page_pageOf _) (Paging.offset_lt address)
    have rounded := toNat_pageOf (pageOf 0x3007 ||| (address &&& 0xFFF))
    rw [page] at rounded
    have base : (pageOf 0x3007).toNat = 0x3000 := by decide
    omega

theorem Holed.looked (holed : Holed hole p) (address : Word) : Holed hole (p.isMapped 0x4000 address).2 := by
  obtain ⟨trace, state⟩ := isMapped_state p 0x4000 address
  rw [state]
  exact ⟨holed.statics.trans (p.sameStatics_of_update _ _ _), holed.used, holed.same⟩

theorem obliging_holed (hole : Word) : Obliging 0x4000 (fun address => pageOf address ≠ pageOf hole) (Holed hole) where
  mapped := fun p address holed away => by rw [holed.isMapped, decide_eq_true away]
  looked := fun p address holed => holed.looked address
  stores := by
    intro p address value holed
    obtain ⟨frame, walked, scratch⟩ := holed.walk address
    refine ⟨{ p with mem := storeByte p.mem frame value }, ?_,
      ⟨holed.statics.trans (p.sameStatics_of_update _ _ _), holed.used, ?_⟩⟩
    · rw [Loading.store, walked]
      rfl
    · intro place other
      rw [← holed.same place other]
      apply Function.update_of_ne
      rintro rfl
      exact other scratch

/-- The page that is missing can be had. -/
theorem Holed.alloc (holed : Holed hole p) (flags : Word) : (p.allocPage 0x4000 hole flags).1 = 0 := by
  have counted : p.usedBlocks.toNat < p.maxBlocks.toNat := by
    have blocks : p.maxBlocks = 32 := holed.statics.maxBlocks
    rw [holed.used, blocks]
    decide
  have free : p.inUse 6 = false := by
    rw [holed.inUse (by decide)]
    rfl
  have allocated := allocBlock_allocated counted (by rw [holed.searched]; decide) free
  have nonnull := allocated.ne_zero (holed.inUse (by decide))
  simp only [Paging.allocPage, nonnull, ↓reduceIte]
  generalize p.allocBlock.1 = block at *
  generalize p.allocBlock.2 = m at *
  have entry : m.entry 0x4000 (pageDirectoryIndex hole) = 0x5007 := by
    rw [allocated.entry _ _ (holed.clear (by decide)) (pageDirectoryIndex_lt hole),
      holed.entry (by decide) (by decide) (pageDirectoryIndex_lt hole)]
    have four : (0x4000 : Word).toNat / 4096 = 4 := rfl
    rw [four, holedWord, if_neg (by decide), if_neg (by decide), if_pos rfl, if_pos rfl]
  have present : m.entry 0x4000 (pageDirectoryIndex (pageOf hole)) &&& pagePresent ≠ 0 := by
    rw [pageDirectoryIndex_pageOf, entry]
    decide
  have reached : (m.getPageTable 0x4000 (pageOf hole) true).1 ≠ 0 := by
    rw [getPageTable_found true present, pageDirectoryIndex_pageOf, entry]
    exact (by decide : pageOf (0x5007 : Word) ≠ 0)
  rw [mapPage_reached reached, if_neg (by simp)]

theorem Holed.mapPages_shows (holed : Holed hole p) (flags : Word) {page vaddrEnd : Word} (aligned : Page page) (ends : Page vaddrEnd)
    (missing : Page hole) (lower : page.toNat ≤ hole.toNat) (upper : hole.toNat < vaddrEnd.toNat) {turns : Nat}
    (enough : (vaddrEnd.toNat - page.toNat) / 4096 < turns) :
    .mapped hole ∈ (mapPages 0x4000 flags vaddrEnd turns page p).trace := by
  induction turns generalizing page p with
  | zero => omega
  | succ turns ih =>
    have before : page < vaddrEnd := by
      rw [BitVec.lt_def]
      omega
    obtain ⟨next, nextAligned, room⟩ := page_next aligned ends before
    have looked := holed.looked page
    rw [mapPages, if_pos before]
    dsimp only
    rw [holed.isMapped, pageOf_of_page aligned, pageOf_of_page missing]
    by_cases here : page = hole
    · subst here
      rw [if_neg (by simp), if_neg (not_not_intro (looked.alloc flags))]
      exact mem_bind_left (List.mem_singleton_self _)
    · rw [if_pos (decide_eq_true here)]
      have different : page.toNat ≠ hole.toNat := fun same => here (BitVec.eq_of_toNat_eq same)
      unfold Page at aligned missing
      exact ih looked nextAligned (by omega) (by omega)

/-- The page that no segment can have. -/
theorem no_segmentPage {phdr : Nat} {page : Word} (there : SegmentPage data phdr page) : pageOf page ≠ pageOf 0xFFFFF000 := by
  have ends := page_segmentEnd (pVaddrOf data phdr) (pMemszOf data phdr)
  have limit := (segmentEnd (pVaddrOf data phdr) (pMemszOf data phdr)).isLt
  have upper := there.2
  intro same
  have values := congrArg BitVec.toNat same
  have last : (pageOf 0xFFFFF000).toNat = 0xFFFFF000 := by decide
  unfold Page at ends
  rw [toNat_pageOf page, last] at values
  omega

end Holed

end MexOS.Core.Loading
