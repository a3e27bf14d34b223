import MexOS.Core.ElfFile

/-! Which bytes of the file the loader reads. -/

namespace MexOS.Core.Loading

open MexOS.Machine MexOS.Mm Monitored

/-- A byte that is read lies inside the file. -/
def Inside (size : Word) : ElfAccess → Prop
  | .read index => index < size.toNat
  | _ => True

/-- The size of the table of program headers does not wrap when it is added to
the offset, or what is read of them lies inside the file nevertheless; and no
file range that is copied wraps. -/
def ReadFits (data : Bytes) (size : Word) : Prop :=
  Accepted data size → ∀ i < (phnumOf data).toNat, Reached data size i →
    ((phoffOf data).toNat + Elf32Phdr.bytes * (phnumOf data).toNat < 2 ^ 32 ∨
      phdrOf data i + span data (phdrOf data i) ≤ size.toNat) ∧
    (Copies data size (phdrOf data i) →
      (pOffsetOf data (phdrOf data i)).toNat + (pFileszOf data (phdrOf data i)).toNat < 2 ^ 32)

section Inside

variable {data : Bytes} {size pageDir : Word} {p : Paging}

theorem mapPages_inside (flags vaddrEnd : Word) (turns : Nat) (page : Word) (p : Paging) :
    (mapPages pageDir flags vaddrEnd turns page p).Meets (Inside size) fun _ => True :=
  mapPages_meets (fun _ _ => True) (fun _ _ _ _ _ => trivial) (fun _ _ _ _ _ _ => ⟨trivial, trivial⟩)
    (fun _ _ _ _ _ _ => trivial) (fun _ _ _ _ => trivial) turns trivial

theorem store_inside (p : Paging) (address : Word) (value : Byte) :
    (store pageDir p address value).Meets (Inside size) fun _ => True := by
  refine ⟨?_, fun _ _ => trivial⟩
  intro event shown
  obtain rfl := List.mem_singleton.mp shown
  trivial

theorem copyBytes_inside (dst : Word) {offset left i : Nat} (inside : offset + (i + left) ≤ size.toNat) (p : Paging) :
    (copyBytes data pageDir dst offset left i p).Meets (Inside size) fun _ => True := by
  refine copyBytes_meets (fun _ _ => True) (fun k q _ upper _ => ⟨?_, store_inside q _ _⟩) trivial
  exact show offset + k < size.toNat by omega

theorem clearBss_inside (vaddr filesz memsz : Word) (p : Paging) :
    (clearBss pageDir vaddr filesz memsz p).Meets (Inside size) fun _ => True :=
  clearBss_meets (fun _ => True) (fun _ q _ _ _ => store_inside q _ _) trivial

theorem copyFile_inside {phdr : Nat} {vaddr : Word} (inside : phdr + 8 ≤ size.toNat)
    (unwrapped : pFileszOf data phdr ≠ 0 → pOffsetOf data phdr + pFileszOf data phdr ≤ size →
      (pOffsetOf data phdr).toNat + (pFileszOf data phdr).toNat < 2 ^ 32) (p : Paging) :
    (copyFile data size pageDir phdr vaddr (pFileszOf data phdr) p).Meets (Inside size) fun copied =>
      copied.1 = true → pFileszOf data phdr = 0 ∨ pOffsetOf data phdr + pFileszOf data phdr ≤ size := by
  refine copyFile_meets ?_ (fun empty _ => .inl empty) (fun _ _ => nofun) ?_
  · exact fun k bound => show _ < size.toNat by rw [Elf32Phdr.pOffset]; omega
  · intro some_bytes within
    have sum := unwrapped some_bytes within
    have bound := within
    rw [BitVec.le_def, BitVec.toNat_add, Nat.mod_eq_of_lt sum] at bound
    exact (copyBytes_inside _ (by omega) p).imp fun _ _ _ => .inr within

/-- One turn, for a header inside the file. -/
theorem loadSegment_inside {phdr : Nat} (inside : phdr + span data phdr ≤ size.toNat)
    (unwrapped : Copies data size phdr → (pOffsetOf data phdr).toNat + (pFileszOf data phdr).toNat < 2 ^ 32)
    (p : Paging) (brk : Word) :
    (loadSegment data size pageDir phdr p brk).Meets (Inside size) fun turn =>
      turn.goesOn = true → Passes data size phdr := by
  refine loadSegment_meets ?_ ?_ ?_ ?_
  · exact fun k bound => show phdr + k < size.toNat by omega
  · exact fun other _ loads => absurd loads other
  · exact fun _ _ => nofun
  · intro loads below
    have short : 24 ≤ span data phdr := by
      unfold span
      rw [if_neg (not_not_intro loads.1)]
      split <;> omega
    refine (mapPages_inside _ _ _ _ p).imp fun pages _ => ⟨fun _ => nofun, fun _ => ?_⟩
    refine (copyFile_inside (by omega) (fun some_bytes within =>
      unwrapped ⟨loads, fun _ => ⟨below, .inr within⟩, some_bytes⟩) pages.2).imp ?_
    intro copied passed
    exact ⟨fun _ => nofun,
      fun done => (clearBss_inside _ _ _ _).imp fun _ _ _ _ => ⟨below, passed done⟩⟩

theorem span_le (data : Bytes) (phdr : Nat) : span data phdr ≤ 28 := by
  unfold span
  split
  · decide
  · split <;> decide

theorem tableBytes_toNat (data : Bytes) :
    ((phnumOf data).setWidth 32 * BitVec.ofNat 32 Elf32Phdr.bytes).toNat = Elf32Phdr.bytes * (phnumOf data).toNat := by
  have bound := (phnumOf data).isLt
  rw [BitVec.toNat_mul, BitVec.toNat_setWidth, BitVec.toNat_ofNat, Elf32Phdr.bytes]
  omega

/-- The header that a turn of the loop reads lies inside the file. -/
theorem ReadFits.header {i : Nat} (fits : ReadFits data size) (accepted : Accepted data size)
    (bound : i < (phnumOf data).toNat) (reached : Reached data size i) :
    phdrOf data i + span data (phdrOf data i) ≤ size.toNat := by
  rcases (fits accepted i bound reached).1 with unwrapped | inside
  · have table := accepted.table
    rw [BitVec.le_def, BitVec.toNat_add, tableBytes_toNat, Nat.mod_eq_of_lt unwrapped, Elf32Phdr.bytes] at table
    have short := span_le data (phdrOf data i)
    rw [phdrOf, Elf32Phdr.bytes] at *
    omega
  · exact inside

theorem loadSegments_inside (fits : ReadFits data size) (accepted : Accepted data size) {left i : Nat}
    (total : i + left = (phnumOf data).toNat) (reached : Reached data size i) (p : Paging) (brk : Word) :
    (loadSegments data size pageDir (phoffOf data).toNat left i p brk).Meets (Inside size) fun _ => True := by
  refine loadSegments_meets (fun k _ _ => Reached data size k) (fun k q brk _ upper reached => ?_) (fun _ _ _ => trivial) reached
  have bound : k < (phnumOf data).toNat := by omega
  refine (loadSegment_inside (fits.header accepted bound reached) (fits accepted k bound reached).2 q brk).imp ?_
  exact fun turn passes => ⟨fun _ => trivial, fun on => reached.succ (passes on)⟩

theorem elfLoad_inside (fits : ReadFits data size) (pageDir : Word) (p : Paging) (result : ElfLoadResult) :
    (elfLoad data size pageDir p result).Meets (Inside size) fun _ => True := by
  refine elfLoad_meets (fun large index bound => Nat.lt_of_lt_of_le bound large) trivial fun accepted => ?_
  exact (loadSegments_inside fits accepted (Nat.zero_add _) (fun j impossible => by omega) p 0).imp
    fun _ _ => ⟨fun _ => trivial, fun _ => trivial⟩

end Inside

section Exact

variable {data : Bytes} {size : Word}

theorem readWord_last (data : Bytes) (index : Nat) : .read (index + 3) ∈ (readWord data index).trace := by
  simp [readWord]

/-- The header is read to the end of its span. -/
theorem loadSegment_header (data : Bytes) (size pageDir : Word) (phdr : Nat) :
    ∃ index, phdr + span data phdr = index + 1 ∧
      ∀ p brk, .read index ∈ (loadSegment data size pageDir phdr p brk).trace := by
  unfold span loadSegment
  split
  · exact ⟨_, rfl, fun _ _ => mem_bind_left (readWord_last _ _)⟩
  · next load =>
    split
    · refine ⟨_, rfl, fun _ _ => mem_bind_right rfl ?_⟩
      rw [if_neg load]
      exact mem_bind_left (readWord_last _ _)
    · next some_memory =>
      rw [not_or] at some_memory
      refine ⟨_, rfl, fun _ _ => mem_bind_right rfl ?_⟩
      rw [if_neg load]
      refine mem_bind_right rfl ?_
      rw [← pMemszOf, if_neg some_memory.1]
      refine mem_bind_right rfl ?_
      rw [← pVaddrOf, if_neg some_memory.2]
      exact mem_bind_left (readWord_last _ _)

/-- What a header that is reached shows on the machine with all the pages of the
segments, the loader shows. -/
theorem reads_header (accepted : Accepted data size) {i : Nat} (bound : i < (phnumOf data).toNat) (reached : Reached data size i)
    {event : ElfAccess}
    (turn : ∀ q brk, Holed 0xFFFFF000 q → event ∈ (loadSegment data size 0x4000 (phdrOf data i) q brk).trace) :
    event ∈ (elfLoad data size 0x4000 (holedPage 0xFFFFF000) ⟨0, 0⟩).trace :=
  elfLoad_shows accepted (by decide) (holedPage 0xFFFFF000) ⟨0, 0⟩
    ((obliging_holed 0xFFFFF000).loadSegments_shows (holed_holedPage 0xFFFFF000) i (Nat.zero_le _) (by omega) (fun j _ => reached j)
      (fun _ _ _ _ _ there => no_segmentPage there) turn 0)

/-- The loader reads inside the file, in every state in which the file lies apart from
what it stores to, exactly when the offsets and sizes in the file fit. -/
theorem elf_reads_inside (data : Bytes) (size : Word) :
    (∀ pageDir p file result index, Apart data size p pageDir file →
      .read index ∈ (elfLoad data size pageDir p result).trace → index < size.toNat) ↔ ReadFits data size := by
  constructor
  · intro inside accepted i bound reached
    have small (index : Nat) := inside 0x4000 _ lowFile ⟨0, 0⟩ index (apart_holedPage data size 0xFFFFF000)
    refine ⟨.inr ?_, ?_⟩
    · obtain ⟨index, ends, read⟩ := loadSegment_header data size 0x4000 (phdrOf data i)
      have last := small index (reads_header accepted bound reached fun q brk _ => read q brk)
      omega
    · intro copies
      have some_bytes : (pFileszOf data (phdrOf data i)).toNat ≠ 0 := by
        intro zero
        exact copies.2.2 (BitVec.eq_of_toNat_eq zero)
      have last := small _ (reads_header accepted bound reached fun q brk holed =>
        (obliging_holed 0xFFFFF000).loadSegment_copies holed copies (fun _ there => no_segmentPage there) brk fun m fine =>
          (obliging_holed 0xFFFFF000).copyBytes_shows fine _ _ _ 0 (Nat.sub_one_lt some_bytes) (.inl rfl))
      rw [Nat.zero_add] at last
      have limit := size.isLt
      omega
  · intro fits pageDir p file result index _ read
    exact (elfLoad_inside fits pageDir p result).shows_ _ read

/-- An ELF header alone, with one program header at the offset `0xFFFFFFE0`. -/
def wrappedTable : Bytes :=
  ((((Bytes.zero.setWord 0 0x464C457F).setWord 4 0x101).setWord 16 0x30002).setWord 28 0xFFFFFFE0).setWord 44 1

theorem wrappedTable_accepted : Accepted wrappedTable 52 := by
  refine ⟨by decide, ⟨?_, by decide, by decide⟩, by decide, by decide, by decide⟩
  decide

/-- The end of its table wraps to 0, and the type of the program header is read
far behind the file. -/
theorem elf_reads_outside : ¬ ∀ data size pageDir p file result index, Apart data size p pageDir file →
    .read index ∈ (elfLoad data size pageDir p result).trace → index < size.toNat := by
  intro inside
  have first : (phdrOf wrappedTable 0) = 0xFFFFFFE0 := by decide +kernel
  obtain ⟨index, ends, read⟩ := loadSegment_header wrappedTable 52 0x4000 (phdrOf wrappedTable 0)
  have shown := reads_header wrappedTable_accepted (by decide +kernel) (fun j impossible => by omega) fun q brk _ => read q brk
  have small := inside wrappedTable 52 0x4000 _ lowFile ⟨0, 0⟩ index (apart_holedPage _ _ _) shown
  have positive : 0 < span wrappedTable (phdrOf wrappedTable 0) := by decide +kernel
  have length : (52 : Word).toNat = 52 := rfl
  omega

end Exact

end MexOS.Core.Loading
