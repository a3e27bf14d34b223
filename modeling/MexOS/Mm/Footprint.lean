import MexOS.Mm.PageTables
import MexOS.Mm.Statics

/-! Which bytes of memory the operations store to: those of the bitmap, and those of
the pages that they are given. -/

namespace MexOS.Mm.Paging

open MexOS.Machine

/-- The byte belongs to the storage of the bitmap. -/
def InBitmap (p : Paging) (place : Word) : Prop := ∃ byte < p.maxBlocks.toNat / 8, place = p.storage byte

/-- Memory differs in the bitmap and in these pages alone. -/
def Alters (pages : Word → Prop) (p q : Paging) : Prop :=
  ∀ place, ¬ p.InBitmap place → ¬ pages (pageOf place) → q.mem place = p.mem place

variable {p q r : Paging} {pages more : Word → Prop} {page pageDir virtAddr table block index place value : Word}

theorem SameStatics.inBitmap (same : SameStatics p q) : q.InBitmap place ↔ p.InBitmap place := by
  unfold InBitmap storage
  rw [same.maxBlocks, same.bitmapAddr]

theorem Alters.refl (p : Paging) : Alters pages p p := fun _ _ _ => rfl

theorem Alters.trans (statics : SameStatics p q) (first : Alters pages p q) (second : Alters pages q r) : Alters pages p r :=
  fun place outside other =>
    (second place (fun inside => outside (statics.inBitmap.mp inside)) other).trans (first place outside other)

theorem Alters.weaken (alters : Alters pages p q) (fewer : ∀ page, pages page → more page) : Alters more p q :=
  fun place outside other => alters place outside fun here => other (fewer _ here)

/-- Pages clear of the bitmap keep their words. -/
theorem Alters.entry (alters : Alters pages p q) (aligned : Page page) (clear : p.Clear page) (other : ¬ pages page)
    (small : index.toNat < 1024) : q.entry page index = p.entry page index := by
  apply loadWord_congr
  intro lane laneSmall
  unfold Page at aligned
  have inside : (page + 4 * index + lane).toNat = page.toNat + 4 * index.toNat + lane.toNat := by bv_omega
  have here : pageOf (page + 4 * index + lane) = page := by
    apply BitVec.eq_of_toNat_eq
    rw [toNat_pageOf]
    omega
  refine alters _ ?_ (here.symm ▸ other)
  rintro ⟨byte, below, same⟩
  have far := clear byte below
  rw [← same] at far
  bv_omega

section Stores

/-- The words that are searched lie in the storage. -/
theorem alters_storeBitmap {word : Nat} (bound : word < p.maxBlocks.toNat / 32) (value used : Word) (trace : List Event) :
    Alters pages p { p with mem := storeWord p.mem (p.bitmapWord word) value, usedBlocks := used, trace } := by
  intro place outside _
  apply storeWord_frame
  by_contra near
  have small := p.blocks
  refine outside ⟨4 * word + (place - p.bitmapWord word).toNat, by omega, ?_⟩
  rw [storage, BitVec.ofNat_add, BitVec.ofNat_toNat, BitVec.setWidth_eq, bitmapWord]
  bv_omega

theorem alters_touch (p : Paging) (address : Word) : Alters pages p (p.touch address) := fun _ _ _ => rfl

theorem alters_write (aligned : Page page) (small : index.toNat < 1024) (value : Word) :
    Alters (· = page) p (p.write (page + 4 * index) value) := by
  intro place _ other
  apply storeWord_frame
  by_contra near
  refine other (BitVec.eq_of_toNat_eq ?_)
  have limit := page.isLt
  unfold Page at aligned
  rw [toNat_pageOf]
  bv_omega

theorem alters_clearPage (aligned : Page page) : Alters (· = page) p (p.clearPage page) := by
  intro place _ other
  apply if_neg
  intro near
  refine other (BitVec.eq_of_toNat_eq ?_)
  have limit := page.isLt
  unfold Page at aligned
  rw [toNat_pageOf]
  bv_omega

theorem alters_allocBlock (p : Paging) : Alters pages p p.allocBlock.2 := by
  by_cases empty : p.pmm.getFreeBlockCount = 0
  · rw [allocBlock, if_pos empty]
    exact .refl p
  · cases found : p.pmm.bitmapFirstFree with
    | none =>
      simp only [allocBlock, if_neg empty, found]
      exact .refl p
    | some frame =>
      obtain ⟨bound, _, _⟩ := Pmm.bitmapFirstFree_eq_some.mp found
      have searched : frame < p.searched := bound
      have small := p.frame_lt searched
      have bit : (BitVec.ofNat 32 frame).toNat = frame := by
        rw [BitVec.toNat_ofNat]
        omega
      simp only [allocBlock, if_neg empty, found]
      exact alters_storeBitmap (by rw [bit]; exact p.word_lt searched) _ _ _

theorem alters_freeBlock (member : p.Block block) : Alters pages p (p.freeBlock block) := by
  have limit := block.isLt
  have value : (BitVec.ofNat 32 (block.toNat / pmmBlockSize)).toNat = block.toNat / 4096 := by
    rw [BitVec.toNat_ofNat, pmmBlockSize]
    omega
  have bound := member.bound
  rw [← value] at bound
  exact alters_storeBitmap (p.word_lt bound) _ _ _

end Stores

section Tables

/-- A table that is created is cleared and entered in the directory. -/
theorem alters_getPageTable (aligned : Page pageDir) (tableAligned : Page (p.getPageTable pageDir virtAddr true).1) :
    Alters (fun page => page = pageDir ∨ page = (p.getPageTable pageDir virtAddr true).1) p
      (p.getPageTable pageDir virtAddr true).2 := by
  by_cases absent : p.entry pageDir (pageDirectoryIndex virtAddr) &&& pagePresent = 0
  · rw [getPageTable_create absent] at tableAligned ⊢
    have first : SameStatics p (p.touch (slot pageDir virtAddr)).allocBlock.2 :=
      (p.steady_touch (slot pageDir virtAddr)).toSameStatics.trans (sameStatics_allocBlock _)
    have marked : Alters (fun _ => False) p (p.touch (slot pageDir virtAddr)).allocBlock.2 :=
      (alters_touch p _).trans (p.steady_touch _).toSameStatics (alters_allocBlock _)
    split at tableAligned
    · next nothing =>
      rw [if_pos nothing]
      exact marked.weaken fun _ => False.elim
    · next returned =>
      rw [if_neg returned]
      generalize (p.touch (slot pageDir virtAddr)).allocBlock.1 = table at *
      generalize (p.touch (slot pageDir virtAddr)).allocBlock.2 = m at *
      have second : SameStatics p (m.clearPage table) := first.trans (m.sameStatics_of_update _ _ _)
      refine Alters.trans first (marked.weaken fun _ => False.elim) ?_
      refine Alters.trans (m.sameStatics_of_update _ _ _) ((alters_clearPage tableAligned).weaken fun _ => .inr) ?_
      exact (alters_write aligned (pageDirectoryIndex_lt virtAddr) _).weaken fun _ => .inl
  · rw [getPageTable_found true absent]
    exact alters_touch p _

end Tables

end MexOS.Mm.Paging
