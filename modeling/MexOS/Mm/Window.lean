import MexOS.Mm.PageMap
import MexOS.Mm.PmmBoot
import MexOS.Mm.Statics

/-! The identity window of `vmm_init` and what keeps it intact: which accesses
find their frame while the kernel directory is active. -/

namespace MexOS.Mm.Paging

open MexOS.Machine

/-- No access so far missed its frame. -/
def Faultless (p : Paging) : Prop := ∀ address, Event.touched address false ∉ p.trace

/-- `vmm_init` maps the addresses below this one to themselves. -/
def windowSize : Nat := 0x800000

/-- The frames below this one have their bits in the kernel's last page. The
words of the bitmap behind it lie in frames that are handed out. -/
def reach (kernelEnd : Word) : Nat := 32 * ((Pmm.kernelFrames kernelEnd * 4096 - kernelEnd.toNat) / 4)

def windowFrames (kernelEnd : Word) : Nat := min (windowSize / 4096) (reach kernelEnd)

/-- A page behind the kernel whose bit is in the kernel's last page. -/
structure Behind (kernelEnd page : Word) : Prop where
  aligned : Page page
  first : Pmm.kernelFrames kernelEnd ≤ page.toNat / 4096
  last : page.toNat / 4096 < reach kernelEnd

/-- One that lies in the window too. -/
structure Windowed (kernelEnd page : Word) : Prop extends Behind kernelEnd page where
  inside : page.toNat < windowSize

/-- The free frames below `bound`. -/
def spare (p : Paging) (bound : Nat) : Nat := ((Finset.range bound).filter fun frame => p.inUse frame = false).card

/-- The kernel directory and the directories that were created and not
destroyed since. -/
def Known (p : Paging) (live : List Word) (space : Word) : Prop := space = p.kernelDirectory ∨ space ∈ live

/-- The address space that a table behind this entry serves alone: the tables
of the window and those in the user half of a created directory. The other
tables may be shared. -/
def owner (p : Paging) (space index : Word) : Option Word :=
  if index.toNat < (if space = p.kernelDirectory then 2 else 768) then some space else none

/-- The kernel directory maps the window to itself. -/
def Identity (p : Paging) : Prop := ∀ address : Word, address.toNat < windowSize →
  ∃ table, p.HasTable p.kernelDirectory (pageDirectoryIndex address) table ∧
    p.entry table (pageTableIndex address) &&& pagePresent ≠ 0 ∧
    pageOf (p.entry table (pageTableIndex address)) = pageOf address

/-- The state of a kernel whose window is intact. Directories and tables lie in
the window and are in use, and a directory is no table. -/
structure Intact (kernelEnd : Word) (live : List Word) (p : Paging) : Prop where
  bitmapAddr : p.bitmapAddr = kernelEnd
  maxBlocks : p.maxBlocks = 32768
  paging : p.paging = true
  room : Pmm.kernelFrames kernelEnd + 3 ≤ windowFrames kernelEnd
  kernel : p.kernelDirectory ∉ live
  windowed : ∀ page, p.Occupied (p.Known live) page → Windowed kernelEnd page ∧ p.inUse (page.toNat / 4096) = true
  apart : ∀ space other index, p.Known live space → p.Known live other → ¬ p.HasTable space index other
  owners : ∀ space index other second table, p.Known live space → p.Known live other →
    p.HasTable space index table → p.HasTable other second table → p.owner space index = p.owner other second
  identity : p.Identity
  reserved : ∀ frame < Pmm.kernelFrames kernelEnd, p.inUse frame = true
  faultless : p.Faultless

/-- The kernel directory is the active one as well. -/
structure Active (kernelEnd : Word) (live : List Word) (p : Paging) : Prop extends Intact kernelEnd live p where
  cr3 : p.cr3 = p.kernelDirectory

variable {p q : Paging} {kernelEnd : Word} {live : List Word} {page other index block space table address : Word} {frame : Nat}

theorem Behind.outside (behind : Behind kernelEnd page) (base : p.bitmapAddr = kernelEnd) (bound : frame < reach kernelEnd) :
    Outside page (p.bitmapWord (frame / 32)) := by
  have first := behind.first
  have last := behind.last
  have frames : Pmm.kernelFrames kernelEnd = (kernelEnd.toNat + 4095) / 4096 := rfl
  have limit : reach kernelEnd = 32 * ((Pmm.kernelFrames kernelEnd * 4096 - kernelEnd.toNat) / 4) := rfl
  have place : (p.bitmapWord (frame / 32)).toNat = kernelEnd.toNat + 4 * (frame / 32) := by
    have small := kernelEnd.isLt
    rw [bitmapWord, base, BitVec.toNat_add, BitVec.toNat_ofNat]
    omega
  generalize p.bitmapWord (frame / 32) = word at place
  constructor <;> bv_omega

theorem Behind.ne_zero (behind : Behind kernelEnd page) (above : 0 < kernelEnd.toNat) : page ≠ 0 := by
  rintro rfl
  have first := behind.first
  rw [Pmm.kernelFrames, show (0 : Word).toNat = 0 from rfl] at first
  omega

theorem windowFrames_le_reach (kernelEnd : Word) : windowFrames kernelEnd ≤ reach kernelEnd := Nat.min_le_right _ _

theorem reach_lt (kernelEnd : Word) : reach kernelEnd < 32768 := by
  rw [reach, Pmm.kernelFrames]
  omega

/-- A page is split into its frame and the offset. -/
theorem pageOf_or_offset (address : Word) : pageOf address ||| (address &&& 0xFFF) = address := by
  rw [pageOf, BitVec.or_comm, ← BitVec.and_or_distrib_left, BitVec.or_not_self]
  exact BitVec.and_allOnes

/-- Below the window's end the processor finds every frame. -/
theorem Active.mapped (active : Active kernelEnd live p) (inside : address.toNat < windowSize) : p.mapped address = true := by
  obtain ⟨table, has, present, points⟩ := active.identity address inside
  have aligned : pageOf p.kernelDirectory = p.kernelDirectory :=
    pageOf_of_page (active.windowed _ ⟨_, .inl rfl, .inl rfl⟩).1.aligned
  have directory : pageWord p.mem (pageOf p.cr3) (pageDirectoryIndex address) =
      p.entry p.kernelDirectory (pageDirectoryIndex address) := by
    rw [active.cr3, aligned]
    rfl
  have walked : p.walk address = some address := by
    simp only [walk, active.paging, ↓reduceIte, directory, if_neg has.present, has.points]
    change (if p.entry table (pageTableIndex address) &&& pagePresent = 0 then none
      else some (pageOf (p.entry table (pageTableIndex address)) ||| (address &&& 0xFFF))) = _
    rw [if_neg present, points, pageOf_or_offset]
  rw [Paging.mapped, walked]
  simp

theorem Windowed.place (windowed : Windowed kernelEnd page) (small : index.toNat < 1024) :
    (page + 4 * index).toNat < windowSize := by
  have aligned := windowed.aligned
  have inside := windowed.inside
  unfold Page at aligned
  unfold windowSize at *
  bv_omega

theorem Windowed.frame_lt (windowed : Windowed kernelEnd page) : page.toNat / 4096 < windowFrames kernelEnd := by
  have last := windowed.last
  have inside := windowed.inside
  unfold windowSize at inside
  rw [windowFrames, windowSize]
  omega

theorem Behind.windowed (behind : Behind kernelEnd page) (low : page.toNat / 4096 < windowFrames kernelEnd) :
    Windowed kernelEnd page := by
  refine ⟨behind, ?_⟩
  rw [windowFrames, windowSize] at low
  rw [windowSize]
  omega

section Transfer

/-! A step keeps the window when it changes no directory, no table of the window
and no bit of either. -/

/-- The known directories hold the same words. -/
def SameDirectories (live : List Word) (p q : Paging) : Prop :=
  ∀ space, p.Known live space → ∀ i : Word, i.toNat < 1024 → q.entry space i = p.entry space i

theorem SameStatics.known (statics : SameStatics p q) : q.Known live space ↔ p.Known live space := by
  rw [Known, Known, statics.kernelDirectory]

theorem SameDirectories.hasTable (same : SameDirectories live p q) (known : p.Known live space) :
    q.HasTable space index table ↔ p.HasTable space index table := by
  constructor
  · intro has
    have word := same space known index has.small
    exact ⟨has.small, word ▸ has.present, word ▸ has.points⟩
  · intro has
    have word := same space known index has.small
    exact ⟨has.small, word.symm ▸ has.present, word.symm ▸ has.points⟩

theorem SameDirectories.occupied (same : SameDirectories live p q) (statics : SameStatics p q) :
    q.Occupied (q.Known live) page ↔ p.Occupied (p.Known live) page := by
  constructor
  · rintro ⟨space, known, here⟩
    have before := statics.known.mp known
    refine ⟨space, before, ?_⟩
    simpa only [same.hasTable before] using here
  · rintro ⟨space, known, here⟩
    refine ⟨space, statics.known.mpr known, ?_⟩
    simpa only [same.hasTable known] using here

theorem Intact.transfer (intact : Intact kernelEnd live p) (statics : SameStatics p q) (same : SameDirectories live p q)
    (tables : ∀ j table, j.toNat < 2 → p.HasTable p.kernelDirectory j table →
      ∀ k : Word, k.toNat < 1024 → q.entry table k = p.entry table k)
    (inUse : ∀ page, p.Occupied (p.Known live) page → q.inUse (page.toNat / 4096) = true)
    (reserved : ∀ frame < Pmm.kernelFrames kernelEnd, q.inUse frame = true)
    (faultless : q.Faultless) : Intact kernelEnd live q := by
  have owner (space index : Word) : q.owner space index = p.owner space index := by
    rw [Paging.owner, Paging.owner, statics.kernelDirectory]
  constructor
  case bitmapAddr => exact statics.bitmapAddr.trans intact.bitmapAddr
  case maxBlocks => exact statics.maxBlocks.trans intact.maxBlocks
  case paging => exact statics.paging.trans intact.paging
  case room => exact intact.room
  case kernel =>
    rw [statics.kernelDirectory]
    exact intact.kernel
  case windowed =>
    intro page occupied
    have before := (same.occupied statics).mp occupied
    exact ⟨(intact.windowed page before).1, inUse page before⟩
  case apart =>
    intro space other index known otherKnown has
    have before := statics.known.mp known
    exact intact.apart space other index before (statics.known.mp otherKnown) ((same.hasTable before).mp has)
  case owners =>
    intro space index other second table known otherKnown has otherHas
    have before := statics.known.mp known
    have otherBefore := statics.known.mp otherKnown
    rw [owner, owner]
    exact intact.owners _ _ _ _ _ before otherBefore ((same.hasTable before).mp has) ((same.hasTable otherBefore).mp otherHas)
  case identity =>
    intro address inside
    obtain ⟨table, has, present, points⟩ := intact.identity address inside
    have low : (pageDirectoryIndex address).toNat < 2 := by
      rw [toNat_pageDirectoryIndex]
      unfold windowSize at inside
      omega
    have word := tables _ table low has (pageTableIndex address) (pageTableIndex_lt address)
    rw [statics.kernelDirectory]
    exact ⟨table, (same.hasTable (.inl rfl)).mpr has, word.symm ▸ present, word.symm ▸ points⟩
  case reserved => exact reserved
  case faultless => exact faultless

/-- The pages of the kernel keep their words and no bit is cleared. -/
theorem Intact.grow (intact : Intact kernelEnd live p) (statics : SameStatics p q)
    (entry : ∀ page, p.Occupied (p.Known live) page → ∀ i : Word, i.toNat < 1024 → q.entry page i = p.entry page i)
    (bits : ∀ frame < reach kernelEnd, p.inUse frame = true → q.inUse frame = true)
    (faultless : q.Faultless) : Intact kernelEnd live q := by
  have room := intact.room
  have far := windowFrames_le_reach kernelEnd
  apply intact.transfer statics
  · intro space known i small
    exact entry space ⟨space, known, .inl rfl⟩ i small
  · intro j table _ has k small
    exact entry table ⟨_, .inl rfl, .inr ⟨j, has⟩⟩ k small
  · intro page occupied
    obtain ⟨windowed, used⟩ := intact.windowed page occupied
    exact bits _ windowed.last used
  · intro frame bound
    exact bits frame (by omega) (intact.reserved frame bound)
  · exact faultless

/-- The registers are no part of it. -/
theorem Intact.switched (intact : Intact kernelEnd live p) (pageDir : Word) :
    Intact kernelEnd live { p with currentDirectory := pageDir, cr3 := pageDir } := by
  have hasTable {space index table : Word}
      (has : ({ p with currentDirectory := pageDir, cr3 := pageDir } : Paging).HasTable space index table) :
      p.HasTable space index table :=
    ⟨has.small, has.present, has.points⟩
  constructor
  case bitmapAddr => exact intact.bitmapAddr
  case maxBlocks => exact intact.maxBlocks
  case paging => exact intact.paging
  case room => exact intact.room
  case kernel => exact intact.kernel
  case windowed =>
    rintro page ⟨space, known, here | ⟨index, has⟩⟩
    · exact intact.windowed page ⟨space, known, .inl here⟩
    · exact intact.windowed page ⟨space, known, .inr ⟨index, hasTable has⟩⟩
  case apart => exact fun space other index known otherKnown has => intact.apart space other index known otherKnown (hasTable has)
  case owners =>
    intro space index other second table known otherKnown has otherHas
    exact intact.owners _ _ _ _ _ known otherKnown (hasTable has) (hasTable otherHas)
  case identity =>
    intro address inside
    obtain ⟨table, has, present, points⟩ := intact.identity address inside
    exact ⟨table, ⟨has.small, has.present, has.points⟩, present, points⟩
  case reserved => exact intact.reserved
  case faultless => exact intact.faultless

/-- Fewer directories are known. -/
theorem Intact.mono {fewer : List Word} (intact : Intact kernelEnd live p) (subset : fewer ⊆ live) :
    Intact kernelEnd fewer p := by
  have known {space : Word} (known : p.Known fewer space) : p.Known live space := known.imp_right (@subset _)
  constructor
  case bitmapAddr => exact intact.bitmapAddr
  case maxBlocks => exact intact.maxBlocks
  case paging => exact intact.paging
  case room => exact intact.room
  case kernel => exact fun member => intact.kernel (subset member)
  case windowed =>
    rintro page ⟨space, isKnown, here⟩
    exact intact.windowed page ⟨space, known isKnown, here⟩
  case apart => exact fun space other index first second => intact.apart space other index (known first) (known second)
  case owners =>
    exact fun space index other second table first last => intact.owners space index other second table (known first) (known last)
  case identity => exact intact.identity
  case reserved => exact intact.reserved
  case faultless => exact intact.faultless

end Transfer

section Access

/-! Reading and writing while the kernel directory is active. -/

/-- No known directory and none of their tables. -/
def Vacant (p : Paging) (live : List Word) (page : Word) : Prop := ¬ p.Occupied (p.Known live) page

/-- Behind the kernel only the pages in `changed` have other words. -/
structure Kept (kernelEnd : Word) (changed : Word → Prop) (p q : Paging) : Prop where
  statics : SameStatics p q
  entry : ∀ page index, Behind kernelEnd page → ¬ changed page → index.toNat < 1024 → q.entry page index = p.entry page index

variable {changed : Word → Prop} {r : Paging} {value : Word}

theorem Kept.refl (p : Paging) : Kept kernelEnd changed p p := ⟨.refl p, fun _ _ _ _ _ => rfl⟩

theorem Kept.trans (first : Kept kernelEnd changed p q) (second : Kept kernelEnd changed q r) : Kept kernelEnd changed p r := by
  refine ⟨first.statics.trans second.statics, ?_⟩
  intro page index behind same small
  rw [second.entry page index behind same small, first.entry page index behind same small]

theorem Kept.weaken {more : Word → Prop} (kept : Kept kernelEnd changed p q) (fewer : ∀ page, changed page → more page) :
    Kept kernelEnd more p q :=
  ⟨kept.statics, fun page index behind same small => kept.entry page index behind (fun here => same (fewer page here)) small⟩

theorem Intact.directory_windowed (intact : Intact kernelEnd live p) (known : p.Known live space) : Windowed kernelEnd space :=
  (intact.windowed space ⟨space, known, .inl rfl⟩).1

theorem Intact.table_windowed (intact : Intact kernelEnd live p) (known : p.Known live space) (has : p.HasTable space index table) :
    Windowed kernelEnd table :=
  (intact.windowed table ⟨space, known, .inr ⟨index, has⟩⟩).1

/-- The directories are kept when none of them changed. -/
theorem Kept.directories (kept : Kept kernelEnd changed p q) (intact : Intact kernelEnd live p)
    (same : ∀ space, p.Known live space → ¬ changed space) : SameDirectories live p q := by
  intro space known i small
  exact kept.entry space i (intact.directory_windowed known).toBehind (same space known) small

theorem Kept.occupied (kept : Kept kernelEnd changed p q) (intact : Intact kernelEnd live p)
    (same : ∀ space, p.Known live space → ¬ changed space) :
    q.Occupied (q.Known live) page ↔ p.Occupied (p.Known live) page :=
  (kept.directories intact same).occupied kept.statics

theorem Kept.vacant (kept : Kept kernelEnd changed p q) (intact : Intact kernelEnd live p)
    (same : ∀ space, p.Known live space → ¬ changed space) (vacant : p.Vacant live page) : q.Vacant live page :=
  fun occupied => vacant ((kept.occupied intact same).mp occupied)

theorem Active.of_intact (active : Active kernelEnd live p) (intact : Intact kernelEnd live q) (statics : SameStatics p q) :
    Active kernelEnd live q :=
  ⟨intact, by rw [statics.cr3, statics.kernelDirectory, active.cr3]⟩

/-- Vacant pages got other words and no bit was cleared. -/
theorem Active.grow (active : Active kernelEnd live p) (kept : Kept kernelEnd changed p q)
    (vacant : ∀ page, changed page → p.Vacant live page)
    (bits : ∀ frame < reach kernelEnd, p.inUse frame = true → q.inUse frame = true)
    (faultless : q.Faultless) : Active kernelEnd live q := by
  refine active.of_intact (active.toIntact.grow kept.statics ?_ bits faultless) kept.statics
  intro page occupied i small
  exact kept.entry page i (active.windowed page occupied).1.toBehind (fun here => vacant page here occupied) small

theorem Active.faultless_touch (active : Active kernelEnd live p) (inside : address.toNat < windowSize) :
    (p.touch address).Faultless := by
  intro other member
  rcases List.mem_cons.mp member with here | earlier
  · injection here with _ missed
    rw [active.mapped inside] at missed
    cases missed
  · exact active.faultless other earlier

theorem kept_touch (p : Paging) (address : Word) : Kept kernelEnd changed p (p.touch address) :=
  ⟨p.sameStatics_touch address, fun _ _ _ _ _ => rfl⟩

theorem Active.touch (active : Active kernelEnd live p) (inside : address.toNat < windowSize) :
    Active kernelEnd live (p.touch address) := by
  have kept : Kept kernelEnd (fun _ => False) p (p.touch address) := kept_touch p address
  exact active.grow kept (fun _ none => none.elim) (fun _ _ used => used) (active.faultless_touch inside)

theorem kept_write (behind : Behind kernelEnd page) (small : index.toNat < 1024) (value : Word) :
    Kept kernelEnd (· = page) p (p.write (page + 4 * index) value) := by
  refine ⟨p.sameStatics_write _ _, ?_⟩
  intro other second otherBehind different otherSmall
  rw [entry_write behind.aligned otherBehind.aligned small otherSmall, if_neg fun same => different same.1.symm]

theorem bits_write (behind : Behind kernelEnd page) (base : p.bitmapAddr = kernelEnd) (small : index.toNat < 1024)
    (value : Word) (bound : frame < reach kernelEnd) : (p.write (page + 4 * index) value).inUse frame = p.inUse frame :=
  inUse_write_of_outside (behind.outside base bound) small value

theorem Active.write (active : Active kernelEnd live p) (windowed : Windowed kernelEnd page) (vacant : p.Vacant live page)
    (small : index.toNat < 1024) (value : Word) : Active kernelEnd live (p.write (page + 4 * index) value) := by
  apply active.grow (kept_write windowed.toBehind small value)
  · rintro _ rfl
    exact vacant
  · intro frame bound used
    rwa [bits_write windowed.toBehind active.bitmapAddr small value bound]
  · exact active.faultless_touch (windowed.place small)

theorem kept_clearPage (behind : Behind kernelEnd page) : Kept kernelEnd (· = page) p (p.clearPage page) := by
  refine ⟨p.sameStatics_clearPage _, ?_⟩
  intro other index otherBehind different small
  rw [entry_clearPage behind.aligned otherBehind.aligned small, if_neg fun same => different same.symm]

theorem Active.clearPage (active : Active kernelEnd live p) (windowed : Windowed kernelEnd page)
    (vacant : p.Vacant live page) : Active kernelEnd live (p.clearPage page) := by
  apply active.grow (kept_clearPage windowed.toBehind)
  · rintro _ rfl
    exact vacant
  · intro frame bound used
    rwa [inUse_clearPage_of_outside (windowed.outside active.bitmapAddr bound)]
  · exact active.faultless_touch windowed.inside

theorem kept_copyPage (behind : Behind kernelEnd page) (source : Word) :
    Kept kernelEnd (· = page) p (p.copyPage page source) := by
  refine ⟨p.sameStatics_of_update _ _ _, ?_⟩
  intro other index otherBehind different small
  exact entry_copyPage behind.aligned otherBehind.aligned (fun same => different same.symm) small

theorem Active.copyPage {source : Word} (active : Active kernelEnd live p) (windowed : Windowed kernelEnd page)
    (vacant : p.Vacant live page) (inside : source.toNat < windowSize) : Active kernelEnd live (p.copyPage page source) := by
  apply active.grow (kept_copyPage windowed.toBehind source)
  · rintro _ rfl
    exact vacant
  · intro frame bound used
    rwa [inUse_copyPage (windowed.outside active.bitmapAddr bound)]
  · exact (active.touch inside).faultless_touch windowed.inside

end Access

section Blocks

/-! Taking blocks and giving them back. -/

theorem exists_free {bound : Nat} (some_free : 0 < p.spare bound) : ∃ frame < bound, p.inUse frame = false := by
  obtain ⟨frame, member⟩ := Finset.card_pos.mp some_free
  obtain ⟨small, free⟩ := Finset.mem_filter.mp member
  exact ⟨frame, Finset.mem_range.mp small, free⟩

theorem spare_mono (p : Paging) {first second : Nat} (le : first ≤ second) : p.spare first ≤ p.spare second := by
  apply Finset.card_le_card
  apply Finset.filter_subset_filter
  exact Finset.range_subset_range.mpr le

/-- The allocator takes the lowest free frame. -/
theorem Allocated.frame_lt {bound : Nat} (allocated : Allocated p block q) (some_free : 0 < p.spare bound) :
    block.toNat / 4096 < bound := by
  obtain ⟨frame, small, free⟩ := exists_free some_free
  by_contra far
  have used := allocated.lowest frame (by omega)
  rw [free] at used
  cases used

theorem spare_congr {bound : Nat} (same : ∀ frame < bound, q.inUse frame = p.inUse frame) : q.spare bound = p.spare bound := by
  unfold spare
  congr 1
  apply Finset.filter_congr
  intro frame member
  rw [same frame (Finset.mem_range.mp member)]

/-- Taking one free frame leaves one less. -/
theorem spare_take {bound taken : Nat} (free : p.inUse taken = false) (inside : taken < bound)
    (bits : ∀ frame < bound, q.inUse frame = (decide (taken = frame) || p.inUse frame)) :
    q.spare bound + 1 = p.spare bound := by
  have before : (Finset.range bound).filter (fun frame => p.inUse frame = false) =
      insert taken ((Finset.range bound).filter fun frame => q.inUse frame = false) := by
    ext frame
    simp only [Finset.mem_filter, Finset.mem_range, Finset.mem_insert]
    constructor
    · rintro ⟨small, unset⟩
      by_cases here : frame = taken
      · exact .inl here
      · refine .inr ⟨small, ?_⟩
        rw [bits frame small, unset, decide_eq_false (Ne.symm here)]
        rfl
    · rintro (rfl | ⟨small, unset⟩)
      · exact ⟨inside, free⟩
      · rw [bits frame small, Bool.or_eq_false_iff] at unset
        exact ⟨small, unset.2⟩
  have gone : taken ∉ (Finset.range bound).filter fun frame => q.inUse frame = false := by
    intro member
    have unset := (Finset.mem_filter.mp member).2
    rw [bits taken inside, decide_eq_true rfl] at unset
    cases unset
  rw [Paging.spare, Paging.spare, before, Finset.card_insert_of_notMem gone]

theorem Intact.searched (intact : Intact kernelEnd live p) : p.searched = 32768 := by
  rw [Paging.searched, intact.maxBlocks]
  rfl

/-- What a call of `pmm_alloc_block` that returns a block of the first frames
does while the window is intact. -/
structure Granted (kernelEnd : Word) (live : List Word) (p : Paging) (block : Word) (q : Paging) : Prop where
  allocated : Allocated p block q
  behind : Behind kernelEnd block
  vacant : p.Vacant live block
  active : Active kernelEnd live q
  kept : Kept kernelEnd (fun _ => False) p q

theorem Active.allocBlock_cases (active : Active kernelEnd live p) (some_free : 0 < p.spare (reach kernelEnd)) :
    p.allocBlock = (0, p) ∨ Granted kernelEnd live p p.allocBlock.1 p.allocBlock.2 := by
  rcases Paging.allocBlock_cases p with nothing | allocated
  · exact .inl nothing
  · right
    have last := allocated.frame_lt some_free
    have searched := active.searched
    have far := reach_lt kernelEnd
    have first : Pmm.kernelFrames kernelEnd ≤ p.allocBlock.1.toNat / 4096 := by
      by_contra early
      have free := allocated.free
      rw [active.reserved _ (by omega)] at free
      cases free
    have behind : Behind kernelEnd p.allocBlock.1 := ⟨allocated.member.page, first, last⟩
    have vacant : p.Vacant live p.allocBlock.1 := by
      intro occupied
      have free := allocated.free
      rw [(active.windowed _ occupied).2] at free
      cases free
    have kept : Kept kernelEnd (fun _ => False) p p.allocBlock.2 := by
      refine ⟨allocated.steady.toSameStatics, ?_⟩
      intro page index pageBehind _ small
      exact allocated.elsewhere page index (pageBehind.outside active.bitmapAddr last) small
    have bits (frame : Nat) (bound : frame < reach kernelEnd) (used : p.inUse frame = true) :
        p.allocBlock.2.inUse frame = true := by
      rw [allocated.inUse frame (by omega), used, Bool.or_true]
    have faultless : p.allocBlock.2.Faultless := by
      intro address member
      rw [allocated.trace] at member
      rcases List.mem_cons.mp member with here | earlier
      · cases here
      · exact active.faultless address earlier
    exact ⟨allocated, behind, vacant, active.grow kept (fun _ none => none.elim) bits faultless, kept⟩

theorem Granted.inUse (granted : Granted kernelEnd live p block q) : q.inUse (block.toNat / 4096) = true := by
  rw [granted.allocated.inUse _ granted.allocated.member.bound, decide_eq_true rfl, Bool.true_or]

theorem Granted.windowed (granted : Granted kernelEnd live p block q) (some_free : 0 < p.spare (windowFrames kernelEnd)) :
    Windowed kernelEnd block :=
  granted.behind.windowed (granted.allocated.frame_lt some_free)

theorem Granted.vacant_after (granted : Granted kernelEnd live p block q) (intact : Intact kernelEnd live p) :
    q.Vacant live block :=
  granted.kept.vacant intact (fun _ _ none => none) granted.vacant

/-- Giving back a block that is no directory and no table. -/
theorem Active.freeBlock (active : Active kernelEnd live p) (behind : Behind kernelEnd block) (vacant : p.Vacant live block) :
    Active kernelEnd live (p.freeBlock block) ∧ Kept kernelEnd (fun _ => False) p (p.freeBlock block) := by
  have searched := active.searched
  have far := reach_lt kernelEnd
  have last := behind.last
  have room := active.room
  have near := windowFrames_le_reach kernelEnd
  have member : p.Block block := ⟨behind.aligned, by omega⟩
  have freed := freeBlock_freed member
  have kept : Kept kernelEnd (fun _ => False) p (p.freeBlock block) := by
    refine ⟨freed.steady.toSameStatics, ?_⟩
    intro page index pageBehind _ small
    exact freed.elsewhere page index (pageBehind.outside active.bitmapAddr last) small
  have others (frame : Nat) (bound : frame < reach kernelEnd) (different : block.toNat / 4096 ≠ frame) :
      (p.freeBlock block).inUse frame = p.inUse frame := by
    rw [freed.inUse frame (by omega), decide_eq_false different]
    rfl
  refine ⟨active.of_intact (active.transfer kept.statics ?_ ?_ ?_ ?_ ?_) kept.statics, kept⟩
  · exact kept.directories active.toIntact fun _ _ none => none
  · intro j table _ has k small
    exact kept.entry table k (active.table_windowed (.inl rfl) has).toBehind id small
  · intro page occupied
    obtain ⟨windowed, used⟩ := active.windowed page occupied
    rw [others _ windowed.last, used]
    intro same
    exact vacant (behind.aligned.eq_of_frame windowed.aligned same ▸ occupied)
  · intro frame bound
    have first := behind.first
    rw [others frame (by omega) (by omega)]
    exact active.reserved frame bound
  · intro address member
    rw [freed.trace] at member
    rcases List.mem_cons.mp member with here | earlier
    · cases here
    · exact active.faultless address earlier

end Blocks

end MexOS.Mm.Paging
