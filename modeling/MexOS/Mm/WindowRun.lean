import Mathlib.Order.Interval.Finset.Nat
import MexOS.Machine.Transition
import MexOS.Mm.WindowBoot

/-! Runs of the virtual memory manager from boot on, and when none of its
accesses misses the frame it is meant for. -/

namespace MexOS.Mm

open MexOS.Machine

/-- The kernel with the directories that it created and did not destroy since. -/
structure Session where
  paging : Paging
  live : List Word

inductive Request where
  | create
  | map (pageDir virtAddr physAddr flags : Word)
  | alloc (pageDir virtAddr flags : Word)
  | free (pageDir virtAddr : Word)
  | clone (src : Word)
  | destroy (pageDir : Word)
  | switch (pageDir : Word)

namespace Session

def received (live : List Word) (result : Word × Paging) : Session :=
  ⟨result.2, if result.1 = 0 then live else result.1 :: live⟩

def serve (session : Session) : Request → Session
  | .create => received session.live session.paging.createAddressSpace
  | .map pageDir virtAddr physAddr flags => { session with paging := (session.paging.mapPage pageDir virtAddr physAddr flags).2 }
  | .alloc pageDir virtAddr flags => { session with paging := (session.paging.allocPage pageDir virtAddr flags).2 }
  | .free pageDir virtAddr => { session with paging := session.paging.freePage pageDir virtAddr }
  | .clone src => received session.live (session.paging.cloneAddressSpace src)
  | .destroy pageDir => ⟨session.paging.destroyAddressSpace pageDir, Paging.without session.live pageDir⟩
  | .switch pageDir => { session with paging := session.paging.switchAddressSpace pageDir }

def Alive (session : Session) (pageDir : Word) : Prop := session.paging.Known session.live pageDir

/-- The callers pass directories that are alive; NULL may be destroyed and
switched to. -/
def Legal (session : Session) : Request → Prop
  | .create => True
  | .map pageDir .. | .alloc pageDir .. | .free pageDir _ | .clone pageDir => session.Alive pageDir
  | .destroy pageDir | .switch pageDir => pageDir = 0 ∨ session.Alive pageDir

inductive Step : Session → Session → Prop
  | serve (session : Session) (request : Request) : session.Legal request → Step session (session.serve request)

/-- The state after `vmm_init`. -/
def boot (memory : Memory) (kernelEnd : Word) : Session := ⟨(Paging.kernelMain memory kernelEnd).init, []⟩

/-- What keeps a call away from memory that is not mapped. A call that looks at
a directory is made while the kernel directory is active, since the window is
not copied into the created ones. There are free frames in the window for
each directory and table that it makes and each page that it copies. On the
kernel directory it stays outside the window. A page that it copies lies in the
window, and a page that it gives back was handed out and is no directory or
table. -/
def Safe (kernelEnd : Word) (session : Session) : Request → Prop
  | .create => session.paging.cr3 = session.paging.kernelDirectory ∧ 1 ≤ session.paging.spare (Paging.windowFrames kernelEnd)
  | .map pageDir virtAddr _ _ =>
    session.paging.cr3 = session.paging.kernelDirectory ∧ session.paging.OutsideWindow pageDir virtAddr ∧
      (session.paging.Missing pageDir virtAddr → 1 ≤ session.paging.spare (Paging.windowFrames kernelEnd))
  | .alloc pageDir virtAddr _ =>
    session.paging.cr3 = session.paging.kernelDirectory ∧ session.paging.OutsideWindow pageDir virtAddr ∧
      1 ≤ session.paging.spare (Paging.reach kernelEnd) ∧
      (session.paging.Missing pageDir virtAddr → 2 ≤ session.paging.spare (Paging.windowFrames kernelEnd))
  | .free pageDir virtAddr =>
    session.paging.cr3 = session.paging.kernelDirectory ∧ session.paging.OutsideWindow pageDir virtAddr ∧
      ((session.paging.getPhysicalAddress pageDir virtAddr).1 ≠ 0 → Paging.Disposable kernelEnd session.live session.paging
        (pageOf (session.paging.getPhysicalAddress pageDir virtAddr).1))
  | .clone src =>
    session.paging.cr3 = session.paging.kernelDirectory ∧
      (∀ i table, i.toNat < 768 → session.paging.HasTable src i table → ∀ j : Word, j.toNat < 1024 →
        session.paging.entry table j &&& pagePresent ≠ 0 → (pageOf (session.paging.entry table j)).toNat < Paging.windowSize) ∧
      (session.paging.owned src).length ≤ session.paging.spare (Paging.windowFrames kernelEnd)
  | .destroy pageDir =>
    pageDir = 0 ∨ pageDir = session.paging.kernelDirectory ∨
      session.paging.cr3 = session.paging.kernelDirectory ∧
        Paging.Releasable kernelEnd session.live session.paging pageDir
  | .switch _ => True

inductive SafeStep (kernelEnd : Word) : Session → Session → Prop
  | serve (session : Session) (request : Request) : session.Legal request → session.Safe kernelEnd request →
    SafeStep kernelEnd session (session.serve request)

variable {kernelEnd : Word} {session after : Session}

theorem serve_intact (intact : Paging.Intact kernelEnd session.live session.paging) {request : Request}
    (legal : session.Legal request) (safe : session.Safe kernelEnd request) :
    Paging.Intact kernelEnd (session.serve request).live (session.serve request).paging := by
  cases request with
  | create =>
    obtain ⟨cr3, enough⟩ := safe
    have active : Paging.Active kernelEnd session.live session.paging := ⟨intact, cr3⟩
    simp only [serve, received]
    rcases active.createAddressSpace_cases enough with nothing | created
    · rw [nothing, if_pos rfl]
      exact intact
    · rw [if_neg created.nonnull]
      exact created.active.toIntact
  | map pageDir virtAddr physAddr flags =>
    obtain ⟨cr3, outside, enough⟩ := safe
    have active : Paging.Active kernelEnd session.live session.paging := ⟨intact, cr3⟩
    exact (active.mapPage legal outside enough physAddr flags).1.toIntact
  | alloc pageDir virtAddr flags =>
    obtain ⟨cr3, outside, enough⟩ := safe
    have active : Paging.Active kernelEnd session.live session.paging := ⟨intact, cr3⟩
    exact (active.allocPage legal outside enough flags).toIntact
  | free pageDir virtAddr =>
    obtain ⟨cr3, outside, disposable⟩ := safe
    have active : Paging.Active kernelEnd session.live session.paging := ⟨intact, cr3⟩
    exact (active.freePage legal outside disposable).toIntact
  | clone src =>
    obtain ⟨cr3, inside, enough⟩ := safe
    have active : Paging.Active kernelEnd session.live session.paging := ⟨intact, cr3⟩
    exact (active.cloneAddressSpace legal inside enough).toIntact
  | destroy pageDir =>
    have ignored (skip : pageDir = 0 ∨ pageDir = session.paging.kernelDirectory) :
        Paging.Intact kernelEnd (Paging.without session.live pageDir) (session.paging.destroyAddressSpace pageDir) := by
      rw [Paging.destroyAddressSpace, if_pos skip]
      exact intact.mono (Paging.without_subset _ _)
    rcases safe with null | kernel | ⟨cr3, releasable⟩
    · exact ignored (.inl null)
    · exact ignored (.inr kernel)
    · rcases legal with null | kernel | member
      · exact ignored (.inl null)
      · exact ignored (.inr kernel)
      · have active : Paging.Active kernelEnd session.live session.paging := ⟨intact, cr3⟩
        exact (active.destroyAddressSpace member releasable).toIntact
  | switch pageDir =>
    simp only [serve, Paging.switchAddressSpace]
    split
    · exact intact
    · exact intact.switched pageDir

/-- In every run whose calls meet the condition, from a boot whose directory and
tables lie in the window, each access finds the frame it is meant for. -/
theorem vmm_accesses_mapped (memory : Memory) (kernelEnd : Word) (above : 0x100000 < kernelEnd.toNat)
    (room : Pmm.kernelFrames kernelEnd + 3 ≤ Paging.windowFrames kernelEnd) {session : Session}
    (run : Reachable (SafeStep kernelEnd) (boot memory kernelEnd) session) : session.paging.Faultless := by
  have intact : Paging.Intact kernelEnd session.live session.paging := by
    induction run with
    | refl => exact (Paging.kernelMain_booted memory above room).active.toIntact
    | tail _ last ih =>
      cases last with
      | serve request legal safe => exact serve_intact ih legal safe
  exact intact.faultless

theorem spare_eq {p : Paging} {count bound : Nat} (bits : ∀ frame < bound, p.inUse frame = decide (frame < count)) :
    p.spare bound = bound - count := by
  have free : (Finset.range bound).filter (fun frame => p.inUse frame = false) = Finset.Ico count bound := by
    ext frame
    simp only [Finset.mem_filter, Finset.mem_range, Finset.mem_Ico]
    constructor
    · rintro ⟨small, unset⟩
      rw [bits frame small] at unset
      exact ⟨Nat.not_lt.mp (of_decide_eq_false unset), small⟩
    · rintro ⟨behind, small⟩
      refine ⟨small, ?_⟩
      rw [bits frame small]
      exact decide_eq_false (Nat.not_lt.mpr behind)
  rw [Paging.spare, free, Nat.card_Ico]

theorem boot_created (memory : Memory) (above : 0x100000 < kernelEnd.toNat)
    (room : Pmm.kernelFrames kernelEnd + 3 < Paging.windowFrames kernelEnd) :
    Paging.Created kernelEnd [] (boot memory kernelEnd).paging (boot memory kernelEnd).paging.createAddressSpace.1
      (boot memory kernelEnd).paging.createAddressSpace.2 := by
  have booted := Paging.kernelMain_booted memory above (Nat.le_of_lt room)
  have near := Paging.windowFrames_le_reach kernelEnd
  have far := Paging.reach_lt kernelEnd
  have frames := spare_eq fun frame bound => booted.bits frame (Nat.lt_of_lt_of_le bound near)
  have counted : (boot memory kernelEnd).paging.usedBlocks.toNat < (boot memory kernelEnd).paging.maxBlocks.toNat := by
    have used : (boot memory kernelEnd).paging.usedBlocks.toNat = _ := booted.used
    have blocks : (boot memory kernelEnd).paging.maxBlocks = 32768 := booted.active.maxBlocks
    rw [used, blocks, show (32768 : Word).toNat = 32768 from rfl]
    omega
  have free : (boot memory kernelEnd).paging.inUse (Pmm.kernelFrames kernelEnd + 3) = false :=
    (booted.bits _ (by omega)).trans (decide_eq_false (Nat.lt_irrefl _))
  have searched : (boot memory kernelEnd).paging.searched = 32768 := booted.active.searched
  have allocated := Paging.allocBlock_allocated counted (by omega) free
  have zero : (boot memory kernelEnd).paging.inUse 0 = true := by
    apply booted.active.reserved
    rw [Pmm.kernelFrames]
    omega
  rcases booted.active.createAddressSpace_cases (by rw [frames]; omega) with nothing | created
  · -- a block was there, so NULL is not what the call returned
    have returned : (boot memory kernelEnd).paging.createAddressSpace.1 = (boot memory kernelEnd).paging.allocBlock.1 := by
      rw [Paging.createAddressSpace]
      split
      · next null => exact null.symm
      · split <;> rfl
    have null := congrArg Prod.fst nothing
    exact absurd (returned.symm.trans null) (allocated.ne_zero zero)
  · exact created

/-- An address space is created and a page allocated in it. -/
theorem first_page_run (memory : Memory) (above : 0x100000 < kernelEnd.toNat)
    (room : Pmm.kernelFrames kernelEnd + 6 ≤ Paging.windowFrames kernelEnd) :
    ∃ session, Reachable (SafeStep kernelEnd) (boot memory kernelEnd) session ∧ session.live ≠ [] := by
  have booted := Paging.kernelMain_booted memory above (by omega)
  have created := boot_created memory above (by omega)
  have near := Paging.windowFrames_le_reach kernelEnd
  have frames : (boot memory kernelEnd).paging.spare (Paging.windowFrames kernelEnd) = _ :=
    spare_eq fun frame bound => booted.bits frame (Nat.lt_of_lt_of_le bound near)
  have left := created.spare
  have active : Paging.Active kernelEnd (boot memory kernelEnd).live (boot memory kernelEnd).paging := booted.active
  have none : (boot memory kernelEnd).live = [] := rfl
  generalize boot memory kernelEnd = start at *
  have after : start.serve .create = ⟨start.paging.createAddressSpace.2, [start.paging.createAddressSpace.1]⟩ := by
    rw [serve, received, if_neg created.nonnull, none]
  have first : SafeStep kernelEnd start (start.serve .create) := .serve _ .create trivial ⟨active.cr3, by omega⟩
  rw [after] at first
  have kernel := created.active.kernel
  have cr3 := created.active.cr3
  generalize start.paging.createAddressSpace.1 = pageDir at *
  generalize start.paging.createAddressSpace.2 = q at *
  have outside : q.OutsideWindow pageDir 0x40000000 := fun same => absurd (same ▸ List.mem_cons_self) kernel
  have enough := q.spare_mono near
  have safe : Safe kernelEnd ⟨q, [pageDir]⟩ (.alloc pageDir 0x40000000 7) :=
    ⟨cr3, outside, (by omega : 1 ≤ q.spare (Paging.reach kernelEnd)),
      fun _ => (by omega : 2 ≤ q.spare (Paging.windowFrames kernelEnd))⟩
  have legal : Legal ⟨q, [pageDir]⟩ (.alloc pageDir 0x40000000 7) := Or.inr List.mem_cons_self
  have second : SafeStep kernelEnd ⟨q, [pageDir]⟩ _ := .serve _ _ legal safe
  exact ⟨_, (Relation.ReflTransGen.single first).tail second, List.cons_ne_nil _ _⟩

/-- The run of a kernel that ends at `0x1FF100`. -/
theorem vmm_accesses_mapped_first_page :
    ∃ session, Reachable (SafeStep 0x1FF100) (boot (fun _ => 0) 0x1FF100) session ∧ session.live ≠ [] ∧
      session.paging.Faultless := by
  have above : 0x100000 < (0x1FF100 : Word).toNat := by decide
  have room : Pmm.kernelFrames 0x1FF100 + 6 ≤ Paging.windowFrames 0x1FF100 := by decide
  obtain ⟨session, run, created⟩ := first_page_run (fun _ => 0) above room
  exact ⟨session, run, created, vmm_accesses_mapped (fun _ => 0) 0x1FF100 above (by omega) run⟩

/-- Once a new directory is active, looking at it misses: the entries of the
window were not copied. -/
theorem switched_unmapped {pageDir address : Word} {p q : Paging} {live : List Word}
    (created : Paging.Created kernelEnd live p pageDir q) (inside : address.toNat < Paging.windowSize) :
    (q.switchAddressSpace pageDir).mapped address = false := by
  have windowed := created.active.directory_windowed (.inr List.mem_cons_self)
  have low : (pageDirectoryIndex address).toNat < 768 := by
    rw [toNat_pageDirectoryIndex]
    unfold Paging.windowSize at inside
    omega
  have empty : pageWord q.mem (pageOf pageDir) (pageDirectoryIndex address) = 0 := by
    rw [pageOf_of_page windowed.aligned]
    exact created.empty _ low
  have none : (q.switchAddressSpace pageDir).walk address = none := by
    rw [Paging.switchAddressSpace, if_neg created.nonnull]
    simp only [Paging.walk, created.active.paging, ↓reduceIte, empty]
    exact if_pos (by decide)
  rw [Paging.mapped, none]
  rfl

theorem mapPage_trace (p : Paging) (pageDir virtAddr physAddr flags : Word) :
    (p.touch (Paging.slot pageDir (pageOf virtAddr))).trace ⊆ (p.mapPage pageDir virtAddr physAddr flags).2.trace := by
  have table : (p.touch (Paging.slot pageDir (pageOf virtAddr))).trace ⊆
      (p.getPageTable pageDir (pageOf virtAddr) true).2.trace := by
    by_cases absent : p.entry pageDir (pageDirectoryIndex (pageOf virtAddr)) &&& pagePresent = 0
    · have taken : (p.touch (Paging.slot pageDir (pageOf virtAddr))).trace ⊆
          (p.touch (Paging.slot pageDir (pageOf virtAddr))).allocBlock.2.trace := by
        rcases Paging.allocBlock_cases (p.touch (Paging.slot pageDir (pageOf virtAddr))) with nothing | allocated
        · rw [nothing]
          exact List.Subset.refl _
        · rw [allocated.trace]
          exact List.subset_cons_self _ _
      rw [Paging.getPageTable_create absent]
      split
      · exact taken
      · intro event member
        exact List.mem_cons_of_mem _ (List.mem_cons_of_mem _ (taken member))
    · rw [Paging.getPageTable_found true absent]
      exact List.Subset.refl _
  by_cases null : (p.getPageTable pageDir (pageOf virtAddr) true).1 = 0
  · rw [Paging.mapPage_null null]
    exact table
  · rw [Paging.mapPage_reached null]
    intro event member
    exact List.mem_cons_of_mem _ (table member)

/-- A directory is created and made active, and a page is mapped in it. -/
theorem map_after_switch_faults (memory : Memory) (above : 0x100000 < kernelEnd.toNat)
    (room : Pmm.kernelFrames kernelEnd + 3 < Paging.windowFrames kernelEnd) :
    ∃ session, Reachable Step (boot memory kernelEnd) session ∧ ¬ session.paging.Faultless := by
  have created := boot_created memory above room
  have none : (boot memory kernelEnd).live = [] := rfl
  generalize boot memory kernelEnd = start at *
  have after : start.serve .create = ⟨start.paging.createAddressSpace.2, [start.paging.createAddressSpace.1]⟩ := by
    rw [serve, received, if_neg created.nonnull, none]
  have first : Step start (start.serve .create) := .serve _ .create trivial
  rw [after] at first
  generalize start.paging.createAddressSpace.1 = pageDir at *
  generalize start.paging.createAddressSpace.2 = q at *
  have alive : Legal ⟨q, [pageDir]⟩ (.switch pageDir) := Or.inr (Or.inr List.mem_cons_self)
  have second : Step ⟨q, [pageDir]⟩ ⟨q.switchAddressSpace pageDir, [pageDir]⟩ := .serve _ _ alive
  have known : Legal ⟨q.switchAddressSpace pageDir, [pageDir]⟩ (.map pageDir 0x40000000 0x300000 7) :=
    Or.inr List.mem_cons_self
  have third : Step ⟨q.switchAddressSpace pageDir, [pageDir]⟩ _ := .serve _ _ known
  refine ⟨_, ((Relation.ReflTransGen.single first).tail second).tail third, ?_⟩
  intro faultless
  have windowed := created.active.directory_windowed (.inr List.mem_cons_self)
  have inside : (Paging.slot pageDir (pageOf 0x40000000)).toNat < Paging.windowSize :=
    windowed.place (pageDirectoryIndex_lt _)
  have missed := switched_unmapped created inside
  apply faultless (Paging.slot pageDir (pageOf 0x40000000))
  apply mapPage_trace
  rw [← missed]
  exact List.mem_cons_self

/-- The kernel that ends at `0x1FF100` maps a page in the address space it has
just switched to. -/
theorem vmm_access_unmapped : ¬ ∀ (memory : Memory) (kernelEnd : Word), 0x100000 < kernelEnd.toNat →
    kernelEnd.toNat + 4096 ≤ 0x8000000 → ∀ session, Reachable Step (boot memory kernelEnd) session →
      session.paging.Faultless := by
  intro mapped
  obtain ⟨session, run, fault⟩ := @map_after_switch_faults 0x1FF100 (fun _ => 0) (by decide) (by decide)
  exact fault (mapped _ _ (by decide) (by decide) session run)

end Session

end MexOS.Mm
