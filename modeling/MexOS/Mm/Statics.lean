import MexOS.Mm.Frames

/-! No operation on directories, tables and pages changes the statics or the
paging registers; only `vmm_init` and `vmm_switch_address_space` do. -/

namespace MexOS.Mm.Paging

variable {p : Paging}

theorem sameStatics_touch (p : Paging) (address : Machine.Word) : SameStatics p (p.touch address) :=
  p.sameStatics_of_update _ _ _

theorem sameStatics_write (p : Paging) (address value : Machine.Word) : SameStatics p (p.write address value) :=
  p.sameStatics_of_update _ _ _

theorem sameStatics_clearPage (p : Paging) (address : Machine.Word) : SameStatics p (p.clearPage address) :=
  p.sameStatics_of_update _ _ _

theorem sameStatics_freeBlock (p : Paging) (block : Machine.Word) : SameStatics p (p.freeBlock block) :=
  p.sameStatics_of_update _ _ _

theorem sameStatics_allocBlock (p : Paging) : SameStatics p p.allocBlock.2 := by
  unfold allocBlock
  split
  · exact .refl p
  · cases p.pmm.bitmapFirstFree with
    | none => exact .refl p
    | some frame => exact p.sameStatics_of_update _ _ _

theorem sameStatics_foldl {α : Type} {step : Paging → α → Paging} (each : ∀ p turn, SameStatics p (step p turn))
    (turns : List α) (p : Paging) : SameStatics p (turns.foldl step p) := by
  induction turns generalizing p with
  | nil => exact .refl p
  | cons first rest ih => exact (each p first).trans (ih (step p first))

theorem sameStatics_getPageTable (p : Paging) (pageDir virtAddr : Machine.Word) (create : Bool) :
    SameStatics p (p.getPageTable pageDir virtAddr create).2 := by
  have looked := p.sameStatics_touch (p.physToVirt pageDir + 4 * pageDirectoryIndex virtAddr)
  have allocated := looked.trans (sameStatics_allocBlock _)
  simp only [getPageTable]
  split
  · exact looked
  · split
    · split
      · exact allocated
      · exact (allocated.trans (sameStatics_clearPage _ _)).trans (sameStatics_write _ _ _)
    · exact looked

theorem sameStatics_mapPage (p : Paging) (pageDir virtAddr physAddr flags : Machine.Word) :
    SameStatics p (p.mapPage pageDir virtAddr physAddr flags).2 := by
  have table := p.sameStatics_getPageTable pageDir (Machine.pageOf virtAddr) true
  simp only [mapPage]
  split
  · exact table
  · exact table.trans (sameStatics_write _ _ _)

theorem sameStatics_allocPage (p : Paging) (pageDir virtAddr flags : Machine.Word) :
    SameStatics p (p.allocPage pageDir virtAddr flags).2 := by
  have block := p.sameStatics_allocBlock
  have mapped := block.trans (sameStatics_mapPage _ pageDir virtAddr p.allocBlock.1 (flags ||| pagePresent))
  simp only [allocPage]
  split
  · exact block
  · split
    · exact mapped.trans (sameStatics_freeBlock _ _)
    · exact mapped

theorem sameStatics_createAddressSpace (p : Paging) : SameStatics p p.createAddressSpace.2 := by
  have block := p.sameStatics_allocBlock
  have cleared := block.trans (sameStatics_clearPage _ (p.physToVirt p.allocBlock.1))
  have copy (source target : Machine.Word) (q : Paging) (i : Nat) : SameStatics q (copyEntry source target q i) :=
    (q.sameStatics_touch _).trans (sameStatics_write _ _ _)
  have copied := cleared.trans (sameStatics_foldl (copy (p.physToVirt p.kernelDirectory) (p.physToVirt p.allocBlock.1))
    (List.range' 768 256) _)
  simp only [createAddressSpace]
  split
  · exact block
  · split
    · exact cleared
    · dsimp only
      exact copied

theorem sameStatics_destroyAddressSpace (p : Paging) (pageDir : Machine.Word) :
    SameStatics p (p.destroyAddressSpace pageDir) := by
  have entry (table : Machine.Word) (q : Paging) (j : Nat) : SameStatics q (destroyEntry table q j) := by
    simp only [destroyEntry]
    split
    · exact (q.sameStatics_touch _).trans (sameStatics_freeBlock _ _)
    · exact q.sameStatics_touch _
  have table (dir : Machine.Word) (q : Paging) (i : Nat) : SameStatics q (destroyTable dir q i) := by
    simp only [destroyTable]
    split
    · exact ((q.sameStatics_touch _).trans (sameStatics_foldl (entry _) (List.range 1024) _)).trans (sameStatics_freeBlock _ _)
    · exact q.sameStatics_touch _
  simp only [destroyAddressSpace]
  split
  · exact .refl p
  · exact (sameStatics_foldl (table _) (List.range 768) _).trans (sameStatics_freeBlock _ _)

end MexOS.Mm.Paging
