import MexOS.Core.ElfImage
import MexOS.Core.Exec
import MexOS.Mm.Leftover

/-! `do_exec` with the loader of `core/elf.c`, and what a call that fails leaves
behind. -/

namespace MexOS.Core

open MexOS.Machine MexOS.Mm MexOS.Mm.Paging MexOS.Sched Monitored

/-- What `fs_read` leaves in the buffer of `elf_load_file` and how many bytes it
returns, or nothing when it fails. -/
abbrev FileBuffer := Option (Bytes × Word)

variable {system after : System} {b p q : Paging} {pageDir path flags : Word} {first last : Nat} {file : FileBuffer}
  {elfResult : ElfLoadResult}

/-- `path` and `result` are not NULL. -/
def Loading.elfLoadFile (file : FileBuffer) (pageDir : Word) (p : Paging) (result : ElfLoadResult) :
    Loading (Int × ElfLoadResult × Paging) :=
  if pageDir = 0 then pure (-1, result, p)
  else
    match file with
    | none => pure (-1, result, p)
    | some (data, bytesRead) => elfLoad data bytesRead pageDir p result

namespace System

/-- `do_exec` for a path that leads to the file; `elfResult` is what the structure
on the stack holds at first. -/
def execFile (system : System) (path : Word) (file : FileBuffer) (elfResult : ElfLoadResult) : Loading (Int × System) :=
  if path = 0 then pure (-1, system)
  else
    let newPd := system.mm.createAddressSpace
    if newPd.1 = 0 then pure (-1, { system with mm := newPd.2 })
    else do
      let loaded ← Loading.elfLoadFile file newPd.1 newPd.2 elfResult
      if loaded.1 ≠ 0 then pure (-1, { system with mm := loaded.2.2.destroyAddressSpace newPd.1 })
      else
        match system.sched.current with
        | none => pure (-1, { system with mm := loaded.2.2.destroyAddressSpace newPd.1 })
        | some current =>
          let stack := loaded.2.2.allocPage newPd.1 userStackVaddr (pagePresent ||| pageWrite ||| pageUser)
          if stack.1 ≠ 0 then pure (-1, { system with mm := stack.2.destroyAddressSpace newPd.1 })
          else
            pure (0, {
              sched := system.sched.update current.id fun task => { task with cr3 := newPd.1, kernelMode := false }
              mm := stack.2.switchAddressSpace newPd.1
              executed := some current.id })

/-- The allocator, the tasks, the active directory, and the memory that it maps
are as they were. -/
structure Invisible (before after : System) : Prop where
  bitmap : SameBitmap before.mm after.mm
  used : after.mm.usedBlocks = before.mm.usedBlocks
  tasks : after.sched = before.sched
  directory : after.mm.cr3 = before.mm.cr3 ∧ after.mm.currentDirectory = before.mm.currentDirectory
  memory : ∀ address, after.mm.walk address = before.mm.walk address ∧
    ∀ frame, before.mm.walk address = some frame → after.mm.mem frame = before.mm.mem frame

/-- The kernel directory is in use, and so are the active directory and its tables
once paging is on. -/
structure Seated (p : Paging) : Prop extends Ready p where
  root : p.kernelDirectory ≠ 0 → p.Taken p.kernelDirectory
  directory : p.paging = true → p.Taken p.cr3
  tables : p.paging = true → ∀ index table, p.HasTable p.cr3 index table → p.Taken table

section Invisible

theorem Invisible.refl (system : System) : Invisible system system :=
  ⟨fun _ _ => rfl, rfl, rfl, ⟨rfl, rfl⟩, fun _ => ⟨rfl, fun _ _ => rfl⟩⟩

theorem Seated.walk (seated : Seated p) (preserves : Preserves (fun _ => False) p q) (address : Word) :
    q.walk address = p.walk address := by
  have statics := preserves.steady.toSameStatics
  unfold Paging.walk
  rw [statics.paging, statics.cr3]
  split
  · next paging =>
    have held := seated.directory paging
    have directory : pageWord q.mem p.cr3 (pageDirectoryIndex address) = pageWord p.mem p.cr3 (pageDirectoryIndex address) :=
      preserves.entry p.cr3 (pageDirectoryIndex address) held id (pageDirectoryIndex_lt address)
    rw [pageOf_of_page held.page, directory]
    dsimp only
    by_cases absent : pageWord p.mem p.cr3 (pageDirectoryIndex address) &&& pagePresent = 0
    · rw [if_pos absent, if_pos absent]
    · have taken := seated.tables paging (pageDirectoryIndex address) _ ⟨pageDirectoryIndex_lt address, absent, rfl⟩
      have entry : pageWord q.mem (pageOf (pageWord p.mem p.cr3 (pageDirectoryIndex address))) (pageTableIndex address) =
          pageWord p.mem (pageOf (pageWord p.mem p.cr3 (pageDirectoryIndex address))) (pageTableIndex address) :=
        preserves.entry _ (pageTableIndex address) taken id (pageTableIndex_lt address)
      rw [entry]
  · rfl

/-- An address space that has been given up is invisible where the caller reaches
none of its blocks, or sees nothing new in them. -/
theorem Seated.invisible_iff (seated : Seated system.mm) (growing : Growing system.mm pageDir p)
    (left : Left system.mm first last flags pageDir p) :
    Invisible system { system with mm := p.destroyAddressSpace pageDir } ↔ Unmoved system.mm first last flags := by
  obtain ⟨holds, preserves⟩ := growing.destroyAddressSpace
  have bytes := (left.keep seated.toReady growing.owns.holds.steady growing.owns.destroyAddressSpace.2).seen_iff holds.sameBitmap
  have statics := preserves.steady.toSameStatics
  constructor
  · exact fun invisible => bytes.mp fun address frame => (invisible.memory address).2 frame
  · intro unmoved
    refine ⟨holds.sameBitmap, ?_, rfl, ⟨statics.cr3, statics.currentDirectory⟩, fun address => ⟨seated.walk preserves address, ?_⟩⟩
    · rw [holds.used, List.length_nil]
      exact BitVec.add_zero _
    · exact fun frame => bytes.mpr unmoved address frame

end Invisible

end System

namespace Loading

variable {data : Bytes} {size : Word}

section Pages

/-- The pages of a segment in front of the kernel. The loop gets no further where
there are too few blocks for them. -/
theorem mapPages_stocked {flags page vaddrEnd : Word} {first last limit turns : Nat} (flagged : flags.toNat < 0x1000)
    (place : page.toNat = 4096 * last) (aligned : Page vaddrEnd) (start : first ≤ last) (within : last ≤ max first limit)
    (user : limit ≤ 768 * 1024) (growing : Growing b pageDir p) (stocked : Stocked b first last (flags ||| pagePresent) pageDir p)
    (ends : vaddrEnd.toNat = 4096 * limit ∨ 4096 * limit ≤ vaddrEnd.toNat ∧ b.supply < pageRank first limit) :
    (mapPages pageDir flags vaddrEnd turns page p).Meets (fun _ => True) fun result =>
      Growing b pageDir result.2 ∧ Left b first (b.lastGiven first limit) (flags ||| pagePresent) pageDir result.2 ∧
      (result.1 = true → pageRank first limit ≤ b.supply) := by
  have base : kernelVirtualBase.toNat = 0xC0000000 := rfl
  have enough {last : Nat} {q : Paging} (stocked : Stocked b first last (flags ||| pagePresent) pageDir q) :
      pageRank first last ≤ b.supply := by
    have sum := stocked.supply
    omega
  -- a page that the loop comes to is one of those in front of the limit
  have more {last : Nat} {page : Word} {q : Paging} (place : page.toNat = 4096 * last) (before : page < vaddrEnd)
      (start : first ≤ last) (within : last ≤ max first limit) (stocked : Stocked b first last (flags ||| pagePresent) pageDir q) :
      last < limit ∧ page < kernelVirtualBase ∧ (page + pageSize).toNat = 4096 * (last + 1) := by
    obtain ⟨next, _, room⟩ := page_next (show Page page by unfold Page; omega) aligned before
    have counted := enough stocked
    rw [BitVec.lt_def] at before
    have less : last < limit := by
      by_contra past
      rcases ends with exact | ⟨_, short⟩
      · omega
      · rcases Nat.eq_or_lt_of_le (Nat.not_lt.mp past) with rfl | behind
        · omega
        · rw [max_eq_left (by omega)] at within
          obtain rfl : last = first := by omega
          have alone : pageRank last limit = 1 := by rw [pageRank, blocksFor, if_neg (by omega)]
          have positive : pageRank last last = 1 := by rw [pageRank, blocksFor_self]
          omega
    refine ⟨less, ?_, next.trans (by omega)⟩
    rw [BitVec.lt_def]
    omega
  have looked {last : Nat} {page : Word} {q : Paging} (place : page.toNat = 4096 * last) (small : last < 768 * 1024)
      (growing : Growing b pageDir q) (stocked : Stocked b first last (flags ||| pagePresent) pageDir q) :
      Growing b pageDir (q.isMapped pageDir page).2 ∧
        Stocked b first last (flags ||| pagePresent) pageDir (q.isMapped pageDir page).2 ∧
        ((q.isMapped pageDir page).2.isMapped pageDir page).1 = false := by
    have unseen := q.unseen_isMapped pageDir page
    obtain ⟨trace, state⟩ := isMapped_state q pageDir page
    have still := stocked.look unseen (by rw [state])
    refine ⟨growing.keep unseen (preserves_isMapped q pageDir page), still, ?_⟩
    rw [isMapped_eq, still.unmapped small place]
    rfl
  refine mapPages_meets (fun page q => ∃ last, page.toNat = 4096 * last ∧ first ≤ last ∧ last ≤ max first limit ∧
    Growing b pageDir q ∧ Stocked b first last (flags ||| pagePresent) pageDir q) ?_ ?_ ?_ ?_ turns
    ⟨last, place, start, within, growing, stocked⟩
  · rintro page q before ⟨last, place, start, within, _, stocked⟩ found
    obtain ⟨less, _, _⟩ := more place before start within stocked
    rw [isMapped_eq, stocked.unmapped (by omega) place] at found
    cases found
  · rintro page q before ⟨last, place, start, within, growing, stocked⟩ _ given
    obtain ⟨less, page_user, next⟩ := more place before start within stocked
    obtain ⟨kept, still, missing⟩ := looked place (by omega) growing stocked
    exact ⟨trivial, last + 1, next, by omega, by omega, kept.allocPage page_user missing flagged,
      still.allocPage kept start (by omega) place given⟩
  · rintro page q before ⟨last, place, start, within, growing, stocked⟩ _ failed
    obtain ⟨less, page_user, _⟩ := more place before start within stocked
    obtain ⟨kept, still, missing⟩ := looked place (by omega) growing stocked
    obtain ⟨short, left⟩ := still.allocPage_refused kept start (by omega) place failed
    rw [lastGiven_eq start within (enough stocked) (.inr short)]
    exact ⟨kept.allocPage page_user missing flagged, left, Bool.false_ne_true.elim⟩
  · rintro page q past ⟨last, place, start, within, growing, stocked⟩
    have counted := enough stocked
    rw [BitVec.lt_def] at past
    have done : last = max first limit := by omega
    rw [lastGiven_eq start within counted (.inl done)]
    refine ⟨growing, stocked.toLeft, fun _ => ?_⟩
    rcases Nat.lt_or_ge first limit with less | same
    · rw [max_eq_right (Nat.le_of_lt less)] at done
      exact done ▸ counted
    · have alone : pageRank first limit = pageRank first first := by
        rw [pageRank, pageRank, blocksFor_self, blocksFor, if_neg (by omega)]
      rw [max_eq_left same] at done
      rw [alone]
      exact done ▸ counted

/-- The first page of a segment, and the page behind its last one in front of the
kernel. -/
def firstPage (data : Bytes) (phdr : Nat) : Nat := (pVaddrOf data phdr).toNat / 4096

def lastPage (data : Bytes) (phdr : Nat) : Nat :=
  min (segmentEnd (pVaddrOf data phdr) (pMemszOf data phdr)).toNat kernelVirtualBase.toNat / 4096

/-- A segment of which no byte is stored: it begins in the kernel, there are too few
blocks for a directory and its pages, or it has no page in the kernel and either its
file range is outside of the file or the processor faults at its first byte. -/
def Stops (b : Paging) (data : Bytes) (size : Word) (phdr : Nat) : Prop :=
  kernelVirtualBase ≤ pVaddrOf data phdr ∨
    b.supply < pageRank (firstPage data phdr) (lastPage data phdr) ∨
    segmentEnd (pVaddrOf data phdr) (pMemszOf data phdr) ≤ kernelVirtualBase ∧
      (¬ (pFileszOf data phdr = 0 ∨ pOffsetOf data phdr + pFileszOf data phdr ≤ size) ∨ b.walk (pVaddrOf data phdr) = none)

theorem copyBytes_faults {dst : Word} {offset left : Nat} (some_bytes : left ≠ 0) (fault : p.walk dst = none) :
    (copyBytes data pageDir dst offset left 0 p).value = none := by
  obtain ⟨left, rfl⟩ := Nat.exists_eq_succ_of_ne_zero some_bytes
  rw [copyBytes, value_bind, readByte, Option.bind_some, value_bind, store]
  have place : dst + BitVec.ofNat 32 0 = dst := BitVec.add_zero dst
  rw [place, fault]
  rfl

theorem clearBytes_faults {dst : Word} {left : Nat} (some_bytes : left ≠ 0) (fault : p.walk dst = none) :
    (clearBytes pageDir dst left 0 p).value = none := by
  obtain ⟨left, rfl⟩ := Nat.exists_eq_succ_of_ne_zero some_bytes
  rw [clearBytes, value_bind, store]
  have place : dst + BitVec.ofNat 32 0 = dst := BitVec.add_zero dst
  rw [place, fault]
  rfl

/-- What does not return has any property. -/
theorem meets_of_stopped {α : Type} {m : Loading α} {post : α → Prop} (stopped : m.value = none) :
    m.Meets (fun _ => True) post := by
  refine ⟨fun _ _ => trivial, fun a returned => ?_⟩
  rw [stopped] at returned
  cases returned

/-- A new directory in the state that the caller left. -/
structure Spawned (b : Paging) (pageDir : Word) (p : Paging) : Prop where
  growing : Growing b pageDir p
  stocked : ∀ first flags, Stocked b first first flags pageDir p

/-- From which page on and up to which page the segment is given pages, and the
flags of their entries; none where it begins in the kernel. -/
def segmentGiven (b : Paging) (data : Bytes) (phdr : Nat) : Nat × Nat × Word :=
  if pVaddrOf data phdr < kernelVirtualBase then
    (firstPage data phdr, b.lastGiven (firstPage data phdr) (lastPage data phdr), segmentFlags (pFlagsOf data phdr) ||| pagePresent)
  else (0, 0, 0)

theorem Spawned.loadSegment (spawned : Spawned b pageDir p) (seated : System.Seated b) {phdr : Nat} (loads : Loads data phdr)
    (stops : Stops b data size phdr) (brk : Word) :
    (loadSegment data size pageDir phdr p brk).Meets (fun _ => True) fun turn =>
      turn.goesOn = false ∧ Growing b pageDir turn.mm ∧
        Left b (segmentGiven b data phdr).1 (segmentGiven b data phdr).2.1 (segmentGiven b data phdr).2.2 pageDir turn.mm := by
  refine loadSegment_meets (fun _ _ => trivial) (fun skipped => absurd loads skipped) ?_ ?_
  · intro _ kernel
    refine ⟨rfl, spawned.growing, ?_⟩
    rw [segmentGiven, if_neg kernel]
    exact (spawned.stocked 0 0).toLeft
  intro _ below
  have base : kernelVirtualBase.toNat = 0xC0000000 := rfl
  have ends := page_segmentEnd (pVaddrOf data phdr) (pMemszOf data phdr)
  have user : lastPage data phdr ≤ 768 * 1024 := by
    unfold lastPage
    omega
  have pages : b.supply < pageRank (firstPage data phdr) (lastPage data phdr) ∨
      segmentEnd (pVaddrOf data phdr) (pMemszOf data phdr) ≤ kernelVirtualBase ∧
        (¬ (pFileszOf data phdr = 0 ∨ pOffsetOf data phdr + pFileszOf data phdr ≤ size) ∨ b.walk (pVaddrOf data phdr) = none) := by
    rcases stops with kernel | short | rest
    · rw [BitVec.le_def] at kernel
      rw [BitVec.lt_def] at below
      omega
    · exact .inl short
    · exact .inr rest
  have place : (pageOf (pVaddrOf data phdr)).toNat = 4096 * firstPage data phdr := by
    rw [toNat_pageOf, firstPage, Nat.mul_comm]
  refine (mapPages_stocked (segmentFlags_lt _) place ends (Nat.le_refl _) (Nat.le_max_left _ _) user spawned.growing
    (spawned.stocked _ _) ?_).imp ?_
  · unfold Page at ends
    rcases pages with short | ⟨inside, _⟩
    · refine .inr ⟨?_, short⟩
      unfold lastPage
      omega
    · refine .inl ?_
      rw [BitVec.le_def] at inside
      unfold lastPage
      omega
  rintro ⟨done, mapped⟩ ⟨growing, left, counted⟩
  have outcome : Growing b pageDir mapped ∧
      Left b (segmentGiven b data phdr).1 (segmentGiven b data phdr).2.1 (segmentGiven b data phdr).2.2 pageDir mapped := by
    rw [segmentGiven, if_pos below]
    exact ⟨growing, left⟩
  refine ⟨fun _ => ⟨rfl, outcome⟩, fun all => ?_⟩
  have enough := counted all
  obtain ⟨_, bad⟩ := pages.resolve_left (by omega)
  have fault (missing : b.walk (pVaddrOf data phdr) = none) : mapped.walk (pVaddrOf data phdr) = none :=
    (seated.walk growing.kept _).trans missing
  refine copyFile_meets (fun _ _ => trivial) ?_ (fun _ _ => ⟨fun _ => ⟨rfl, outcome⟩, Bool.false_ne_true.elim⟩) ?_
  · intro empty
    have missing := fault (bad.resolve_left (not_not_intro (.inl empty)))
    refine ⟨Bool.false_ne_true.symm.elim, fun _ => meets_of_stopped ?_⟩
    have some_memory : (pMemszOf data phdr).toNat ≠ 0 := fun zero => loads.2 (BitVec.eq_of_toNat_eq zero)
    have larger : pMemszOf data phdr > 0 := Nat.pos_of_ne_zero some_memory
    have amount : pMemszOf data phdr - 0 = pMemszOf data phdr := BitVec.sub_zero _
    have place : pVaddrOf data phdr + 0 = pVaddrOf data phdr := BitVec.add_zero _
    rw [empty, clearBss, if_pos larger, amount, place]
    exact clearBytes_faults some_memory missing
  · intro some_bytes within
    have missing := fault (bad.resolve_left (not_not_intro (.inr within)))
    refine meets_of_stopped (copyBytes_faults ?_ missing)
    exact fun zero => some_bytes (BitVec.eq_of_toNat_eq zero)

theorem loadSegment_skipped {phdr : Nat} (skipped : ¬ Loads data phdr) (brk : Word) :
    (loadSegment data size pageDir phdr p brk).Meets (fun _ => True) (· = ⟨true, brk, p⟩) := by
  refine ⟨fun _ _ => trivial, fun turn returned => ?_⟩
  rw [loadSegment_value, if_neg skipped] at returned
  exact (Option.some.inj returned).symm

theorem loadSegments_skipped {left i : Nat} (skipped : ∀ j, i ≤ j → j < i + left → ¬ Loads data (phdrOf data j)) (brk : Word) :
    (loadSegments data size pageDir (phoffOf data).toNat left i p brk).Meets (fun _ => True) (· = ⟨true, brk, p⟩) := by
  refine loadSegments_meets (fun _ other q => other = brk ∧ q = p) ?_ ?_ ⟨rfl, rfl⟩
  · rintro k _ _ lower upper ⟨rfl, rfl⟩
    refine (loadSegment_skipped (skipped k lower upper) _).imp ?_
    rintro _ rfl
    exact ⟨Bool.false_ne_true.symm.elim, fun _ => ⟨rfl, rfl⟩⟩
  · rintro _ _ ⟨rfl, rfl⟩
    rfl

theorem loadSegments_stopped (spawned : Spawned b pageDir p) (seated : System.Seated b) {left i first : Nat} (lower : i ≤ first)
    (upper : first < i + left) (skipped : ∀ j, i ≤ j → j < first → ¬ Loads data (phdrOf data j))
    (loads : Loads data (phdrOf data first)) (stops : Stops b data size (phdrOf data first)) (brk : Word) :
    (loadSegments data size pageDir (phoffOf data).toNat left i p brk).Meets (fun _ => True) fun turn =>
      turn.goesOn = false ∧ Growing b pageDir turn.mm ∧ Left b (segmentGiven b data (phdrOf data first)).1
        (segmentGiven b data (phdrOf data first)).2.1 (segmentGiven b data (phdrOf data first)).2.2 pageDir turn.mm := by
  refine loadSegments_meets (fun k _ q => k ≤ first ∧ q = p) ?_ (fun _ _ last => by omega) ⟨lower, rfl⟩
  rintro k _ brk from_here _ ⟨earlier, rfl⟩
  by_cases here : k = first
  · subst here
    refine (spawned.loadSegment seated loads stops brk).imp fun turn spec => ⟨fun _ => spec, fun on => ?_⟩
    rw [spec.1] at on
    cases on
  · refine (loadSegment_skipped (skipped k from_here (by omega)) brk).imp ?_
    rintro _ rfl
    exact ⟨Bool.false_ne_true.symm.elim, fun _ => ⟨by omega, rfl⟩⟩

end Pages

section Failing

/-- The first program header with something to load. -/
def firstLoaded (data : Bytes) : Option Nat := (List.range (phnumOf data).toNat).find? fun i => Loads data (phdrOf data i)

/-- No byte of the file gets stored: there is no file or none that is accepted, it
has nothing to load, or the first segment to load stops. -/
def StopsEarly (b : Paging) : FileBuffer → Prop
  | none => True
  | some (data, size) => Accepted data size → ∀ i ∈ firstLoaded data, Stops b data size (phdrOf data i)

/-- The pages that are given for the file. -/
def fileGiven (b : Paging) (data : Bytes) : Nat × Nat × Word :=
  match firstLoaded data with
  | none => (0, 0, 0)
  | some i => segmentGiven b data (phdrOf data i)

/-- What the processor reaches of the blocks for the new directory and the tables of
the first segment holds already what the call leaves there. -/
def Quiet (b : Paging) : FileBuffer → Prop
  | none => Unmoved b 0 0 0
  | some (data, size) => (Accepted data size → Unmoved b (fileGiven b data).1 (fileGiven b data).2.1 (fileGiven b data).2.2) ∧
      (¬ Accepted data size → Unmoved b 0 0 0)

/-- The directory is still growing, and new where the call returns 0. -/
structure Stopped (b : Paging) (file : FileBuffer) (pageDir : Word) (p : Paging) (loaded : Int × ElfLoadResult × Paging) : Prop where
  growing : Growing b pageDir loaded.2.2
  left : ∃ first last flags, Left b first last flags pageDir loaded.2.2 ∧ (Quiet b file ↔ Unmoved b first last flags)
  fresh : loaded.1 = 0 → loaded.2.2 = p ∧ (Quiet b file ↔ Unmoved b 0 0 0)

theorem Spawned.stopped (spawned : Spawned b pageDir p) (nothing : Quiet b file ↔ Unmoved b 0 0 0) (ret : Int) (result : ElfLoadResult) :
    Stopped b file pageDir p (ret, result, p) :=
  ⟨spawned.growing, ⟨0, 0, 0, (spawned.stocked 0 0).toLeft, nothing⟩, fun _ => ⟨rfl, nothing⟩⟩

theorem Spawned.elfLoad (spawned : Spawned b pageDir p) (seated : System.Seated b) {data : Bytes} {size : Word}
    (early : StopsEarly b (some (data, size))) (result : ElfLoadResult) :
    (elfLoad data size pageDir p result).Meets (fun _ => True) (Stopped b (some (data, size)) pageDir p) := by
  have minus : (-1 : Int) ≠ 0 := by decide
  by_cases accepted : Accepted data size
  · have nonnull : pageDir ≠ 0 := spawned.growing.owns.ne_zero (Owns.mem_directory p pageDir)
    have quiet : Quiet b (some (data, size)) ↔ Unmoved b (fileGiven b data).1 (fileGiven b data).2.1 (fileGiven b data).2.2 :=
      ⟨fun both => both.1 accepted, fun unmoved => ⟨fun _ => unmoved, fun refused => absurd accepted refused⟩⟩
    refine ⟨fun _ _ => trivial, fun outcome returned => ?_⟩
    rw [elfLoad_value accepted nonnull] at returned
    obtain ⟨turn, looped, rfl⟩ := Option.map_eq_some_iff.mp returned
    rw [fileGiven] at quiet
    cases found : firstLoaded data with
    | none =>
      have skipped (j : Nat) (bound : j < (phnumOf data).toNat) : ¬ Loads data (phdrOf data j) := by
        simpa using List.find?_eq_none.mp found j (List.mem_range.mpr bound)
      obtain rfl := (loadSegments_skipped (fun j _ upper => skipped j (by omega)) 0).returns _ looped
      rw [found] at quiet
      exact spawned.stopped quiet _ _
    | some i =>
      obtain ⟨loads, bound, skipped⟩ := List.find?_range_eq_some.mp found
      simp only [decide_eq_true_eq, List.mem_range, Bool.not_eq_true', decide_eq_false_iff_not] at loads bound skipped
      have spec := (loadSegments_stopped spawned seated (Nat.zero_le i) (by omega) (fun j _ => skipped j) loads
        (early accepted i found) 0).returns _ looped
      obtain ⟨halted, growing, left⟩ := spec
      rw [found] at quiet
      rw [if_pos halted]
      exact ⟨growing, ⟨_, _, _, left, quiet⟩, fun impossible => absurd impossible minus⟩
  · have quiet : Quiet b (some (data, size)) ↔ Unmoved b 0 0 0 :=
      ⟨fun both => both.2 accepted, fun unmoved => ⟨fun impossible => absurd impossible accepted, fun _ => unmoved⟩⟩
    exact elfLoad_meets (fun _ _ _ => trivial) (spawned.stopped quiet _ _) fun impossible => absurd impossible accepted

theorem Spawned.elfLoadFile (spawned : Spawned b pageDir p) (seated : System.Seated b)
    (early : StopsEarly b file) (result : ElfLoadResult) :
    (elfLoadFile file pageDir p result).Meets (fun _ => True) (Stopped b file pageDir p) := by
  unfold Loading.elfLoadFile
  split
  · next null => exact absurd null (spawned.growing.owns.ne_zero (Owns.mem_directory p pageDir))
  cases file with
  | none => exact .pure (spawned.stopped .rfl _ _)
  | some content => exact spawned.elfLoad seated early result

end Failing

/-- The loader switches to no other directory. -/
theorem elfLoadFile_statics (file : FileBuffer) (pageDir : Word) (p : Paging) (result : ElfLoadResult) :
    (elfLoadFile file pageDir p result).Meets (fun _ => True) fun loaded => SameStatics p loaded.2.2 := by
  unfold elfLoadFile
  split
  · exact .pure (.refl p)
  cases file with
  | none => exact .pure (.refl p)
  | some content =>
    refine elfLoad_invariant (SameStatics p) ?_ ?_ ?_ (.refl p) result
    · exact fun page q same => same.trans (q.unseen_isMapped pageDir page).steady.toSameStatics
    · exact fun page flags q _ same => same.trans (q.sameStatics_allocPage pageDir page flags)
    · intro address value q r _ same stored
      obtain ⟨frame, _, rfl⟩ := Option.map_eq_some_iff.mp stored
      exact same.trans (q.sameStatics_of_update _ _ _)

end Loading

namespace System

open Loading

/-- What the loader returns as `do_exec` uses it. -/
def loadedOf (loaded : Int × ElfLoadResult × Paging) : Option Word × Paging :=
  (if loaded.1 = 0 then some loaded.2.1.entryPoint else none, loaded.2.2)

theorem elfLoadFile_active (file : FileBuffer) (elfResult : ElfLoadResult) (p : Paging) (pageDir : Word) :
    (((elfLoadFile file pageDir p elfResult).value.map loadedOf).getD (none, p)).2.cr3 = p.cr3 ∧
      (((elfLoadFile file pageDir p elfResult).value.map loadedOf).getD (none, p)).2.currentDirectory = p.currentDirectory := by
  cases returned : (elfLoadFile file pageDir p elfResult).value with
  | none => exact ⟨rfl, rfl⟩
  | some loaded =>
    have same := (elfLoadFile_statics file pageDir p elfResult).returns loaded returned
    exact ⟨same.cr3, same.currentDirectory⟩

/-- The loader with a file; where it does not return it does nothing. -/
def fileLoader (file : FileBuffer) (elfResult : ElfLoadResult) : Loader :=
  ⟨fun p pageDir => ((elfLoadFile file pageDir p elfResult).value.map loadedOf).getD (none, p), elfLoadFile_active file elfResult⟩

/-- A call that returns is a call with the loader left open. -/
theorem execFile_eq_doExec {outcome : Int × System} (returned : (system.execFile path file elfResult).value = some outcome) :
    outcome = system.doExec path (fileLoader file elfResult) := by
  unfold execFile at returned
  unfold doExec
  split at returned
  · next null =>
    rw [if_pos null]
    exact (Option.some.inj returned).symm
  · next named =>
    rw [if_neg named]
    dsimp only at returned ⊢
    split at returned
    · next nothing =>
      rw [if_pos nothing]
      exact (Option.some.inj returned).symm
    · next created =>
      rw [if_neg created]
      rw [value_bind] at returned
      obtain ⟨loaded, loads, rest⟩ := Option.bind_eq_some_iff.mp returned
      have shape : (fileLoader file elfResult).load system.mm.createAddressSpace.2 system.mm.createAddressSpace.1 = loadedOf loaded := by
        rw [fileLoader]
        dsimp only
        rw [loads]
        rfl
      rw [shape, loadedOf]
      split at rest
      · next refused =>
        rw [if_neg refused, if_pos rfl]
        exact (Option.some.inj rest).symm
      · next accepted =>
        rw [if_pos (not_not.mp accepted), if_neg (Option.some_ne_none _)]
        cases running : system.sched.current with
        | none =>
          rw [running] at rest
          exact (Option.some.inj rest).symm
        | some current =>
          rw [running] at rest
          dsimp only at rest ⊢
          split at rest
          · next full =>
            rw [if_pos full]
            exact (Option.some.inj rest).symm
          · next mapped =>
            rw [if_neg mapped]
            exact (Option.some.inj rest).symm

/-- So it is a step of the system. -/
theorem execFile_step {allowed : System → Operation → Prop} {outcome : Int × System}
    (returned : (system.execFile path file elfResult).value = some outcome) : Step allowed system outcome.2 := by
  rw [execFile_eq_doExec returned]
  exact .exec system path (fileLoader file elfResult)

/-- What the call does when the loader fails. -/
theorem execFile_refused {ret : Int} {result : ElfLoadResult} {loaded : Paging} (named : path ≠ 0)
    (created : ¬ system.mm.createAddressSpace.1 = 0)
    (refused : (elfLoadFile file system.mm.createAddressSpace.1 system.mm.createAddressSpace.2 elfResult).value =
      some (ret, result, loaded)) (failed : ret ≠ 0) :
    (system.execFile path file elfResult).value =
      some (-1, { system with mm := loaded.destroyAddressSpace system.mm.createAddressSpace.1 }) := by
  unfold execFile
  rw [if_neg named]
  dsimp only
  rw [if_neg created, value_bind, refused, Option.bind_some, if_pos failed]
  rfl

/-- What the rest of the call leaves behind, once there is a directory. -/
theorem execFile_stopped (seated : Seated system.mm) (named : path ≠ 0) (created : system.mm.createAddressSpace.1 ≠ 0)
    (early : StopsEarly system.mm file) : (system.execFile path file elfResult).Meets (fun _ => True) fun outcome =>
      outcome.1 = -1 → (Invisible system outcome.2 ↔ Quiet system.mm file) := by
  have spawned : Spawned system.mm system.mm.createAddressSpace.1 system.mm.createAddressSpace.2 :=
    ⟨seated.toReady.growing created, seated.toReady.stocked seated.root created⟩
  rw [execFile, if_neg named]
  dsimp only
  rw [if_neg created]
  refine (spawned.elfLoadFile seated early elfResult).bind ?_
  rintro ⟨ret, result, loaded⟩ ⟨growing, ⟨first, last, flags, left, quiet⟩, fresh⟩
  dsimp only at growing left fresh ⊢
  have given_up : Invisible system { system with mm := loaded.destroyAddressSpace system.mm.createAddressSpace.1 } ↔
      Quiet system.mm file := (seated.invisible_iff growing left).trans quiet.symm
  split
  · exact .pure fun _ => given_up
  · next done =>
    obtain ⟨rfl, bare⟩ := fresh (not_not.mp done)
    split
    · exact .pure fun _ => given_up
    · have user : userStackVaddr < kernelVirtualBase := by decide
      have stocked := spawned.stocked 0 0
      split
      · next full =>
        have unmapped : (system.mm.createAddressSpace.2.isMapped system.mm.createAddressSpace.1 userStackVaddr).1 = false := by
          have rank : userStackVaddr.toNat = 4096 * (userStackVaddr.toNat / 4096) := by decide
          have above := spawned.stocked (userStackVaddr.toNat / 4096) 0
          rw [isMapped_eq, above.unmapped (by decide) rank]
          rfl
        have kept := stocked.keep seated.toReady growing.owns.holds.steady (growing.owns.alters_refused user full)
        exact .pure fun _ => (seated.invisible_iff (growing.allocPage user unmapped (by decide)) kept).trans bare.symm
      · have zero : (0 : Int) ≠ -1 := by decide
        exact .pure fun impossible => absurd impossible zero

/-- A call of `do_exec` that fails, and stores no byte of the file, leaves nothing
behind exactly where the caller sees nothing new in the blocks that were taken. -/
theorem failed_exec_invisible_iff (seated : Seated system.mm) (early : path = 0 ∨ system.mm.supply = 0 ∨ StopsEarly system.mm file)
    (failed : (system.execFile path file elfResult).value = some (-1, after)) :
    Invisible system after ↔ path = 0 ∨ system.mm.supply = 0 ∨ Quiet system.mm file := by
  by_cases named : path = 0
  · rw [execFile, if_pos named] at failed
    obtain rfl := congrArg Prod.snd (Option.some.inj failed)
    exact iff_of_true (.refl system) (.inl named)
  by_cases nothing : system.mm.createAddressSpace.1 = 0
  · obtain ⟨same, empty⟩ := createAddressSpace_failed seated.null nothing
    rw [execFile, if_neg named] at failed
    dsimp only at failed
    rw [if_pos nothing, same] at failed
    obtain rfl := congrArg Prod.snd (Option.some.inj failed)
    exact iff_of_true (.refl system) (.inr (.inl empty))
  · have some_free : system.mm.supply ≠ 0 := by
      have less := (seated.toReady.opened nothing).supply nothing
      omega
    have stops := (early.resolve_left named).resolve_left some_free
    rw [or_iff_right named, or_iff_right some_free]
    exact (execFile_stopped seated named nothing stops).returns _ failed rfl

/-- A task in an address space of which all pages are one frame. -/
def oneFrame : System where
  sched := twoTasks.sched
  mm := holedPage 0xFFFFF000

theorem oneFrame_ready : oneFrame.mm.Ready := by
  have guarded := (holed_holedPage 0xFFFFF000).guarded (show 1024 ≤ 1024 by decide) fun _ => True
  exact ⟨guarded.null, guarded.storage, fun impossible => absurd rfl impossible⟩

theorem oneFrame_seated : Seated oneFrame.mm := by
  have holed := holed_holedPage 0xFFFFF000
  refine ⟨oneFrame_ready, fun impossible => absurd rfl impossible, fun _ => holed.taken (by decide) (by decide), fun _ => ?_⟩
  intro index table has
  rcases holed.hasTable (.inr rfl) has with rfl | rfl
  · exact holed.taken (by decide) (by decide)
  · exact holed.taken (by decide) (by decide)

/-- The one frame is in use, so no free block is seen. -/
theorem oneFrame_unmoved (first last : Nat) (flags : Word) : Unmoved oneFrame.mm first last flags := by
  have holed := holed_holedPage 0xFFFFF000
  have unseen (count : Nat) : ¬ oneFrame.mm.Visible (oneFrame.mm.vacant count) := by
    rintro ⟨address, frame, walked, same⟩
    obtain ⟨found, again, third⟩ := holed.walk address
    obtain rfl := Option.some.inj (walked.symm.trans again)
    have page := toNat_pageOf frame
    have used := (holed.taken (page_pageOf frame) (by omega)).inUse
    rcases oneFrame.mm.vacant_free count with null | free
    · rw [same, null] at page
      exact absurd page (by rw [third]; decide)
    · rw [← same] at free
      exact absurd (free.symm.trans used) Bool.false_ne_true
  exact ⟨fun seen => absurd seen (unseen 0), fun number _ seen => absurd seen (unseen _)⟩

/-- More bytes are wanted of the file than there are. -/
def truncated : Bytes := oneByte.setWord 68 0x1000

theorem truncated_stopsEarly : StopsEarly oneFrame.mm (some (truncated, 84)) := by
  have first : firstLoaded truncated = some 0 := by decide
  intro _ i found
  obtain rfl : 0 = i := Option.some.inj (first.symm.trans found)
  exact .inr (.inr ⟨by decide, .inl (by decide)⟩)

/-- Its page and the table are given back with the directory. -/
theorem failed_exec_invisible_truncated : ∃ after,
    (oneFrame.execFile 0x8000 (some (truncated, 84)) ⟨0, 0⟩).value = some (-1, after) ∧ Invisible oneFrame after := by
  have done : (oneFrame.execFile 0x8000 (some (truncated, 84)) ⟨0, 0⟩).value.map (fun outcome => outcome.1) = some (-1) := by
    decide +kernel
  obtain ⟨⟨ret, after⟩, failed, minus⟩ := Option.map_eq_some_iff.mp done
  obtain rfl : ret = -1 := minus
  have quiet : Quiet oneFrame.mm (some (truncated, 84)) := ⟨fun _ => oneFrame_unmoved _ _ _, fun _ => oneFrame_unmoved _ _ _⟩
  exact ⟨after, failed, (failed_exec_invisible_iff oneFrame_seated (.inr (.inr truncated_stopsEarly)) failed).mpr (.inr (.inr quiet))⟩

/-- Behind the segment of one byte comes one in the kernel. -/
def kernelSecond : Bytes := (((oneByte.setWord 44 2).setWord 84 1).setWord 92 0xC0000000).setWord 104 1

/-- The second segment is refused after the byte of the first one was stored, in
the address space of the caller. -/
theorem failed_exec_stores : ¬ ∀ (system after : System) path file elfResult, Seated system.mm →
    (system.execFile path file elfResult).value = some (-1, after) → Invisible system after := by
  intro invisible
  have done : (elfLoadFile (some (kernelSecond, 116)) oneFrame.mm.createAddressSpace.1 oneFrame.mm.createAddressSpace.2 ⟨0, 0⟩).value.map
      (fun loaded => (loaded.1, loaded.2.2.mem 0x3000, loaded.2.2.bitmapAddr)) = some (-1, 0x7F, 0x100000) := by decide +kernel
  obtain ⟨⟨ret, result, loaded⟩, failed, facts⟩ := Option.map_eq_some_iff.mp done
  simp only [Prod.mk.injEq] at facts
  obtain ⟨rfl, byte, place⟩ := facts
  have created : ¬ oneFrame.mm.createAddressSpace.1 = 0 := by decide +kernel
  have returns := execFile_refused (show (0x8000 : Word) ≠ 0 by decide) created failed (by decide)
  have memory := (invisible oneFrame _ _ _ _ oneFrame_seated returns).memory 0x8048000
  have walked : oneFrame.mm.walk 0x8048000 = some 0x3000 := by decide +kernel
  have before : oneFrame.mm.mem 0x3000 = 0 := by decide +kernel
  have same := memory.2 0x3000 walked
  rw [destroyAddressSpace_byte (by rw [place]; decide), byte, before] at same
  exact absurd same (by decide)

end System

end MexOS.Core
