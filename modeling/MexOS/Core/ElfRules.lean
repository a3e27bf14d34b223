import MexOS.Core.Elf
import MexOS.Mm.PageTables

/-! The parts of the loader as the proofs about it use them: what is to be shown of
each part, and what each part shows on machines that let it pass. -/

namespace MexOS.Core.Loading

open MexOS.Machine MexOS.Mm Monitored

/-- The header is the one of an executable for this machine. -/
def Valid (data : Bytes) : Prop :=
  (∀ place (bound : place < 6), data place = [0x7F, 0x45, 0x4C, 0x46, 1, 1][place]) ∧
    data (Elf32Header.eType + 1) ++ data Elf32Header.eType = etExec ∧
    data (Elf32Header.eMachine + 1) ++ data Elf32Header.eMachine = em386

def phoffOf (data : Bytes) : Word := data.word Elf32Header.ePhoff

def phnumOf (data : Bytes) : BitVec 16 := data (Elf32Header.ePhnum + 1) ++ data Elf32Header.ePhnum

/-- The loop over the program headers is entered. -/
structure Accepted (data : Bytes) (size : Word) : Prop where
  large : Elf32Header.bytes ≤ size.toNat
  valid : Valid data
  phoff : phoffOf data ≠ 0
  phnum : phnumOf data ≠ 0
  table : phoffOf data + (phnumOf data).setWidth 32 * BitVec.ofNat 32 Elf32Phdr.bytes ≤ size

/-- The program header with this number, by its offset. -/
def phdrOf (data : Bytes) (i : Nat) : Nat := (phoffOf data).toNat + Elf32Phdr.bytes * i

section Fields

variable (data : Bytes) (size : Word) (phdr : Nat)

def pOffsetOf : Word := data.word (phdr + Elf32Phdr.pOffset)
def pVaddrOf : Word := data.word (phdr + Elf32Phdr.pVaddr)
def pFileszOf : Word := data.word (phdr + Elf32Phdr.pFilesz)
def pMemszOf : Word := data.word (phdr + Elf32Phdr.pMemsz)
def pFlagsOf : Word := data.word (phdr + Elf32Phdr.pFlags)

/-- There is something to load. -/
def Loads : Prop := data.word (phdr + Elf32Phdr.pType) = ptLoad ∧ pMemszOf data phdr ≠ 0

instance : Decidable (Loads data phdr) := inferInstanceAs (Decidable (_ ∧ _))

/-- The tests of the segment let it pass. -/
def Passes : Prop :=
  Loads data phdr → pVaddrOf data phdr < kernelVirtualBase ∧
    (pFileszOf data phdr = 0 ∨ pOffsetOf data phdr + pFileszOf data phdr ≤ size)

/-- Bytes of the file are copied. -/
def Copies : Prop := Loads data phdr ∧ Passes data size phdr ∧ pFileszOf data phdr ≠ 0

/-- How many bytes of the header are read at most. -/
def span : Nat :=
  if data.word (phdr + Elf32Phdr.pType) ≠ ptLoad then 4
  else if pMemszOf data phdr = 0 ∨ pVaddrOf data phdr ≥ kernelVirtualBase then 24 else 28

end Fields

/-- All headers before this one pass. -/
def Reached (data : Bytes) (size : Word) (i : Nat) : Prop := ∀ j < i, Passes data size (phdrOf data j)

theorem Reached.succ {data : Bytes} {size : Word} {i : Nat} (reached : Reached data size i)
    (passes : Passes data size (phdrOf data i)) : Reached data size (i + 1) := by
  intro j earlier
  rcases Nat.lt_succ_iff_lt_or_eq.mp earlier with before | same
  · exact reached j before
  · exact same ▸ passes

section Rules

variable {data : Bytes} {size pageDir : Word} {p : Paging} {holds : ElfAccess → Prop}

theorem readByte_meets {index : Nat} (allowed : holds (.read index)) :
    (readByte data index).Meets holds fun value => value = data index := by
  refine ⟨?_, fun _ same => (Option.some.inj same).symm⟩
  intro event shown
  obtain rfl := List.mem_singleton.mp shown
  exact allowed

theorem readHalf_meets {index : Nat} (allowed : ∀ k < 2, holds (.read (index + k))) :
    (readHalf data index).Meets holds fun value => value = data (index + 1) ++ data index := by
  refine ⟨?_, fun _ same => (Option.some.inj same).symm⟩
  intro event shown
  simp only [readHalf, List.mem_cons, List.not_mem_nil, or_false] at shown
  rcases shown with rfl | rfl
  · exact allowed 0 (by decide)
  · exact allowed 1 (by decide)

theorem readWord_meets {index : Nat} (allowed : ∀ k < 4, holds (.read (index + k))) :
    (readWord data index).Meets holds fun value => value = data.word index := by
  refine ⟨?_, fun _ same => (Option.some.inj same).symm⟩
  intro event shown
  simp only [readWord, List.mem_cons, List.not_mem_nil, or_false] at shown
  rcases shown with rfl | rfl | rfl | rfl
  · exact allowed 0 (by decide)
  · exact allowed 1 (by decide)
  · exact allowed 2 (by decide)
  · exact allowed 3 (by decide)

theorem identMatches_meets {index : Nat} {expected : List Byte}
    (allowed : ∀ k < expected.length, holds (.read (index + k))) :
    (identMatches data index expected).Meets holds fun found =>
      found = true → ∀ place (bound : place < expected.length), data (index + place) = expected[place] := by
  induction expected generalizing index with
  | nil => exact .pure fun _ place bound => absurd bound (Nat.not_lt_zero _)
  | cons first rest ih =>
    rw [List.length_cons] at allowed
    refine (readByte_meets (allowed 0 (Nat.zero_lt_succ _))).bind ?_
    intro found same
    split
    · exact .pure fun impossible => by cases impossible
    · next equal =>
      rw [not_not] at equal
      refine (ih fun k bound => ?_).imp ?_
      · rw [Nat.add_assoc, Nat.add_comm 1 k]
        exact allowed (k + 1) (Nat.succ_lt_succ bound)
      intro later matched agrees place bound
      cases place with
      | zero => rw [List.getElem_cons_zero, ← equal, same]
      | succ place =>
        have next := matched agrees place (by rw [List.length_cons] at bound; omega)
        rw [List.getElem_cons_succ, ← next]
        congr 1
        omega

theorem elfValidate_meets (allowed : ∀ index < Elf32Header.bytes, holds (.read index)) :
    (elfValidate data).Meets holds fun ret => ret = 0 → Valid data := by
  rw [Elf32Header.bytes] at allowed
  refine (identMatches_meets fun k bound => allowed _ (by simp [elfMagic] at bound; omega)).bind ?_
  intro ident matched
  split
  · exact .pure fun impossible => by cases impossible
  · next identified =>
    refine (readHalf_meets fun k bound => allowed _ (by rw [Elf32Header.eType]; omega)).bind ?_
    intro type sameType
    split
    · exact .pure fun impossible => by cases impossible
    · next typed =>
      refine (readHalf_meets fun k bound => allowed _ (by rw [Elf32Header.eMachine]; omega)).bind ?_
      intro machine sameMachine
      split
      · exact .pure fun impossible => by cases impossible
      · next fitting =>
        refine .pure fun _ => ⟨?_, ?_, ?_⟩
        · intro place bound
          have found := matched (by simpa using identified) place bound
          rw [Nat.zero_add] at found
          exact found
        · rw [← sameType]
          exact not_not.mp typed
        · rw [← sameMachine]
          exact not_not.mp fitting

/-- What each turn of the loop over the pages keeps holds where it ends. -/
theorem mapPages_meets {flags vaddrEnd : Word} (inv : Word → Paging → Prop) {post : Bool × Paging → Prop}
    (found : ∀ page p, page < vaddrEnd → inv page p → (p.isMapped pageDir page).1 = true →
      inv (page + pageSize) (p.isMapped pageDir page).2)
    (given : ∀ page p, page < vaddrEnd → inv page p → (p.isMapped pageDir page).1 = false →
      ((p.isMapped pageDir page).2.allocPage pageDir page flags).1 = 0 →
      holds (.mapped page) ∧ inv (page + pageSize) ((p.isMapped pageDir page).2.allocPage pageDir page flags).2)
    (refused : ∀ page p, page < vaddrEnd → inv page p → (p.isMapped pageDir page).1 = false →
      ((p.isMapped pageDir page).2.allocPage pageDir page flags).1 ≠ 0 →
      post (false, ((p.isMapped pageDir page).2.allocPage pageDir page flags).2))
    (done : ∀ page p, ¬ page < vaddrEnd → inv page p → post (true, p)) (turns : Nat) {page : Word} (start : inv page p) :
    (mapPages pageDir flags vaddrEnd turns page p).Meets holds post := by
  induction turns generalizing page p with
  | zero => exact .stop
  | succ turns ih =>
    rw [mapPages]
    dsimp only
    split
    · next before =>
      split
      · next mapped => exact ih (found page p before start mapped)
      · next missing =>
        rw [Bool.not_eq_true] at missing
        split
        · next failed => exact .pure (refused page p before start missing failed)
        · next returned =>
          obtain ⟨shown, next⟩ := given page p before start missing (not_not.mp returned)
          exact (Meets.tell shown).bind fun _ _ => ih next
    · next past => exact .pure (done page p past start)

/-- The loop that copies, by what each byte does. -/
theorem copyBytes_meets {dst : Word} {offset left i : Nat} (inv : Nat → Paging → Prop)
    (turn : ∀ k p, i ≤ k → k < i + left → inv k p → holds (.read (offset + k)) ∧
      (store pageDir p (dst + BitVec.ofNat 32 k) (data (offset + k))).Meets holds (inv (k + 1)))
    (start : inv i p) : (copyBytes data pageDir dst offset left i p).Meets holds (inv (i + left)) := by
  induction left generalizing i p with
  | zero => exact .pure start
  | succ left ih =>
    obtain ⟨allowed, stored⟩ := turn i p (Nat.le_refl i) (by omega) start
    refine (readByte_meets allowed).bind ?_
    rintro value rfl
    refine stored.bind fun q next => ?_
    have later := ih (fun k q lower upper => turn k q (by omega) (by omega)) next
    rwa [Nat.add_assoc, Nat.add_comm 1 left] at later

theorem clearBytes_meets {dst : Word} {left i : Nat} (inv : Nat → Paging → Prop)
    (turn : ∀ k p, i ≤ k → k < i + left → inv k p →
      (store pageDir p (dst + BitVec.ofNat 32 k) 0).Meets holds (inv (k + 1)))
    (start : inv i p) : (clearBytes pageDir dst left i p).Meets holds (inv (i + left)) := by
  induction left generalizing i p with
  | zero => exact .pure start
  | succ left ih =>
    refine (turn i p (Nat.le_refl i) (by omega) start).bind fun q next => ?_
    have later := ih (fun k q lower upper => turn k q (by omega) (by omega)) next
    rwa [Nat.add_assoc, Nat.add_comm 1 left] at later

/-- The bytes behind the part of the file are addressed from its end. -/
theorem clearBss_meets {vaddr filesz memsz : Word} (inv : Paging → Prop)
    (turn : ∀ k q, filesz.toNat ≤ k → k < memsz.toNat → inv q → (store pageDir q (vaddr + BitVec.ofNat 32 k) 0).Meets holds inv)
    (start : inv p) : (clearBss pageDir vaddr filesz memsz p).Meets holds inv := by
  rw [clearBss]
  split
  · next larger =>
    rw [gt_iff_lt] at larger
    have amount := BitVec.toNat_sub_of_le (BitVec.le_of_lt larger)
    rw [BitVec.lt_def] at larger
    refine clearBytes_meets (fun _ => inv) (fun k q _ upper before => ?_) start
    have place : vaddr + filesz + BitVec.ofNat 32 k = vaddr + BitVec.ofNat 32 (filesz.toNat + k) := by
      rw [BitVec.ofNat_add, BitVec.ofNat_toNat, BitVec.setWidth_eq, BitVec.add_assoc]
    rw [place]
    exact turn _ q (by omega) (by omega) before
  · exact .pure start

/-- What is to be shown of the loop over the pages, the copying and the clearing
of a segment. -/
theorem loadSegment_meets {phdr : Nat} {brk : Word} {post : Turn → Prop}
    (allowed : ∀ k < span data phdr, holds (.read (phdr + k)))
    (skipped : ¬ Loads data phdr → post ⟨true, brk, p⟩)
    (refused : Loads data phdr → ¬ pVaddrOf data phdr < kernelVirtualBase → post ⟨false, brk, p⟩)
    (loaded : Loads data phdr → pVaddrOf data phdr < kernelVirtualBase →
      (mapPages pageDir (segmentFlags (pFlagsOf data phdr)) (segmentEnd (pVaddrOf data phdr) (pMemszOf data phdr)) maxPages
        (pageOf (pVaddrOf data phdr)) p).Meets holds fun pages =>
      (pages.1 = false → post ⟨false, brk, pages.2⟩) ∧ (pages.1 = true →
        (copyFile data size pageDir phdr (pVaddrOf data phdr) (pFileszOf data phdr) pages.2).Meets holds fun copied =>
        (copied.1 = false → post ⟨false, brk, copied.2⟩) ∧ (copied.1 = true →
          (clearBss pageDir (pVaddrOf data phdr) (pFileszOf data phdr) (pMemszOf data phdr) copied.2).Meets holds fun cleared =>
          post ⟨true, if pVaddrOf data phdr + pMemszOf data phdr > brk then pVaddrOf data phdr + pMemszOf data phdr else brk,
            cleared⟩))) :
    (loadSegment data size pageDir phdr p brk).Meets holds post := by
  have first (k : Nat) (bound : k < 4) : holds (.read (phdr + Elf32Phdr.pType + k)) := by
    refine allowed k (Nat.lt_of_lt_of_le bound ?_)
    unfold span
    split
    · exact Nat.le_refl _
    · split <;> omega
  refine (readWord_meets first).bind ?_
  intro type sameType
  subst sameType
  split
  · next other => exact .pure (skipped fun loads => other loads.1)
  · next load =>
    rw [not_not] at load
    rw [span, if_neg (not_not_intro load)] at allowed
    have second (offset k : Nat) (bound : offset + k < 24) : holds (.read (phdr + offset + k)) := by
      rw [Nat.add_assoc]
      refine allowed _ (Nat.lt_of_lt_of_le bound ?_)
      split <;> omega
    refine (readWord_meets fun k bound => second _ k (by rw [Elf32Phdr.pMemsz]; omega)).bind ?_
    intro memsz sameMemsz
    change memsz = pMemszOf data phdr at sameMemsz
    subst sameMemsz
    split
    · next empty => exact .pure (skipped fun loads => loads.2 empty)
    · next some_memory =>
      refine (readWord_meets fun k bound => second _ k (by rw [Elf32Phdr.pVaddr]; omega)).bind ?_
      intro vaddr sameVaddr
      change vaddr = pVaddrOf data phdr at sameVaddr
      subst sameVaddr
      split
      · next kernel =>
        refine .pure (refused ⟨load, some_memory⟩ fun below => ?_)
        rw [BitVec.lt_def] at below
        rw [ge_iff_le, BitVec.le_def] at kernel
        omega
      · next user =>
        rw [if_neg (not_or.mpr ⟨some_memory, user⟩)] at allowed
        have below : pVaddrOf data phdr < kernelVirtualBase := by
          rw [ge_iff_le, BitVec.le_def, Nat.not_le, ← BitVec.lt_def] at user
          exact user
        refine (readWord_meets fun k bound => ?_).bind ?_
        · rw [Nat.add_assoc]
          exact allowed _ (by rw [Elf32Phdr.pFlags]; omega)
        intro pFlags sameFlags
        change pFlags = pFlagsOf data phdr at sameFlags
        subst sameFlags
        refine (loaded ⟨load, some_memory⟩ below).bind ?_
        rintro pages ⟨failed, mapped⟩
        split
        · next unmapped => exact .pure (failed unmapped)
        · next done =>
          refine (readWord_meets fun k bound => second _ k (by rw [Elf32Phdr.pFilesz]; omega)).bind ?_
          intro filesz sameFilesz
          change filesz = pFileszOf data phdr at sameFilesz
          subst sameFilesz
          refine (mapped (by simpa using done)).bind ?_
          rintro copied ⟨outside, inside⟩
          split
          · next failed => exact .pure (outside failed)
          · next done => exact (inside (by simpa using done)).bind fun _ => .pure

theorem copyFile_meets {phdr : Nat} {vaddr : Word} {post : Bool × Paging → Prop}
    (allowed : ∀ k < 4, holds (.read (phdr + Elf32Phdr.pOffset + k)))
    (empty : pFileszOf data phdr = 0 → post (true, p))
    (outside : pFileszOf data phdr ≠ 0 → ¬ pOffsetOf data phdr + pFileszOf data phdr ≤ size → post (false, p))
    (inside : pFileszOf data phdr ≠ 0 → pOffsetOf data phdr + pFileszOf data phdr ≤ size →
      (copyBytes data pageDir vaddr (pOffsetOf data phdr).toNat (pFileszOf data phdr).toNat 0 p).Meets holds fun q =>
        post (true, q)) :
    (copyFile data size pageDir phdr vaddr (pFileszOf data phdr) p).Meets holds post := by
  rw [copyFile]
  split
  · next nothing => exact .pure (empty nothing)
  · next some_bytes =>
    refine (readWord_meets allowed).bind ?_
    intro offset same
    change offset = pOffsetOf data phdr at same
    subst same
    split
    · next behind =>
      refine .pure (outside some_bytes fun within => ?_)
      rw [gt_iff_lt, BitVec.lt_def] at behind
      rw [BitVec.le_def] at within
      omega
    · next within =>
      rw [gt_iff_lt, BitVec.lt_def, Nat.not_lt, ← BitVec.le_def] at within
      exact (inside some_bytes within).bind fun _ => .pure

/-- The loop over the program headers, by what each of them does. -/
theorem loadSegments_meets {left i : Nat} {brk : Word} (inv : Nat → Word → Paging → Prop) {post : Turn → Prop}
    (turn : ∀ k q brk, i ≤ k → k < i + left → inv k brk q →
      (loadSegment data size pageDir (phdrOf data k) q brk).Meets holds fun turn =>
        (turn.goesOn = false → post turn) ∧ (turn.goesOn = true → inv (k + 1) turn.brk turn.mm))
    (done : ∀ q brk, inv (i + left) brk q → post ⟨true, brk, q⟩) (start : inv i brk p) :
    (loadSegments data size pageDir (phoffOf data).toNat left i p brk).Meets holds post := by
  induction left generalizing i p brk with
  | zero => exact .pure (done p brk start)
  | succ left ih =>
    refine (turn i p brk (Nat.le_refl i) (by omega) start).bind ?_
    rintro next ⟨stopped, on⟩
    split
    · next ends => exact .pure (stopped ends)
    · next goes =>
      refine ih (fun k q brk lower upper => turn k q brk (by omega) (by omega)) (fun q brk last => ?_) (on (by simpa using goes))
      rw [Nat.add_assoc, Nat.add_comm 1 left] at last
      exact done q brk last

/-- What is to be shown of the loop over the program headers. -/
theorem elfLoad_meets {result : ElfLoadResult} {post : Int × ElfLoadResult × Paging → Prop}
    (allowed : Elf32Header.bytes ≤ size.toNat → ∀ index < Elf32Header.bytes, holds (.read index))
    (refused : post (-1, result, p))
    (looped : Accepted data size → (loadSegments data size pageDir (phoffOf data).toNat (phnumOf data).toNat 0 p 0).Meets holds
      fun turn => (turn.goesOn = false → post (-1, ⟨data.word Elf32Header.eEntry, turn.brk⟩, turn.mm)) ∧
        (turn.goesOn = true → post (0, ⟨data.word Elf32Header.eEntry, pageOf (turn.brk + 0xFFF)⟩, turn.mm))) :
    (elfLoad data size pageDir p result).Meets holds post := by
  rw [elfLoad]
  split
  · exact .pure refused
  split
  · exact .pure refused
  next large =>
    rw [Nat.not_lt] at large
    have header (offset : Nat) (bound : offset < 49) (k : Nat) (small : k < 4) : holds (.read (offset + k)) :=
      allowed large _ (by rw [Elf32Header.bytes]; omega)
    refine (elfValidate_meets (allowed large)).bind ?_
    intro ret validated
    split
    · exact (readWord_meets (header _ (by decide))).bind fun _ _ => .pure refused
    · next valid =>
      refine (readWord_meets (header _ (by decide))).bind ?_
      intro phoff samePhoff
      change phoff = phoffOf data at samePhoff
      subst samePhoff
      refine (readHalf_meets fun k small => header _ (by decide) k (by omega)).bind ?_
      intro phnum samePhnum
      change phnum = phnumOf data at samePhnum
      subst samePhnum
      split
      · exact .pure refused
      · next headers =>
        rw [not_or] at headers
        split
        · exact .pure refused
        · next table =>
          rw [gt_iff_lt, BitVec.lt_def, Nat.not_lt, ← BitVec.le_def] at table
          refine (readWord_meets (header _ (by decide))).bind ?_
          intro entry sameEntry
          subst sameEntry
          refine (looped ⟨large, validated (not_not.mp valid), headers.1, headers.2, table⟩).bind ?_
          rintro turn ⟨failed, done⟩
          split
          · next stopped => exact .pure (failed stopped)
          · next on => exact .pure (done (by simpa using on))

end Rules

/-- One turn without what it shows. -/
theorem loadSegment_value (data : Bytes) (size pageDir : Word) (phdr : Nat) (p : Paging) (brk : Word) :
    (loadSegment data size pageDir phdr p brk).value =
      if Loads data phdr then
        if pVaddrOf data phdr < kernelVirtualBase then
          (mapPages pageDir (segmentFlags (pFlagsOf data phdr)) (segmentEnd (pVaddrOf data phdr) (pMemszOf data phdr))
            maxPages (pageOf (pVaddrOf data phdr)) p).value.bind fun pages =>
          if pages.1 = false then some ⟨false, brk, pages.2⟩
          else (copyFile data size pageDir phdr (pVaddrOf data phdr) (pFileszOf data phdr) pages.2).value.bind fun copied =>
          if copied.1 = false then some ⟨false, brk, copied.2⟩
          else (clearBss pageDir (pVaddrOf data phdr) (pFileszOf data phdr) (pMemszOf data phdr) copied.2).value.bind
            fun cleared => some ⟨true, if pVaddrOf data phdr + pMemszOf data phdr > brk then
              pVaddrOf data phdr + pMemszOf data phdr else brk, cleared⟩
        else some ⟨false, brk, p⟩
      else some ⟨true, brk, p⟩ := by
  simp only [loadSegment, value_bind, readWord, Option.bind_some, apply_ite Monitored.value, value_pure, Loads, pMemszOf,
    pVaddrOf, pFlagsOf, pFileszOf]
  by_cases load : data.word (phdr + Elf32Phdr.pType) = ptLoad
  · by_cases empty : data.word (phdr + Elf32Phdr.pMemsz) = 0
    · simp [load, empty]
    · by_cases below : data.word (phdr + Elf32Phdr.pVaddr) < kernelVirtualBase
      · have user : ¬ data.word (phdr + Elf32Phdr.pVaddr) ≥ kernelVirtualBase := by
          rw [BitVec.lt_def] at below
          rw [ge_iff_le, BitVec.le_def]
          omega
        simp only [load, empty, below, user, ne_eq, not_true_eq_false, not_false_eq_true, and_self, ↓reduceIte]
        rfl
      · have kernel : data.word (phdr + Elf32Phdr.pVaddr) ≥ kernelVirtualBase := by
          rw [BitVec.lt_def] at below
          rw [ge_iff_le, BitVec.le_def]
          omega
        simp only [load, empty, below, kernel, ne_eq, not_true_eq_false, not_false_eq_true, and_self, ↓reduceIte]
  · simp [load]

theorem segmentFlags_lt (pFlags : Word) : (segmentFlags pFlags).toNat < 0x1000 := by
  unfold segmentFlags
  split <;> decide

section Obliging

/-- Machines on which the loader finds the pages `there` mapped and no store
faults. -/
structure Obliging (pageDir : Word) (there : Word → Prop) (good : Paging → Prop) : Prop where
  mapped : ∀ p address, good p → there address → (p.isMapped pageDir address).1 = true
  looked : ∀ p address, good p → good (p.isMapped pageDir address).2
  stores : ∀ p address value, good p → ∃ q, (store pageDir p address value).value = some q ∧ good q

variable {data : Bytes} {size pageDir : Word} {there : Word → Prop} {good : Paging → Prop} {p : Paging}

theorem page_next {page vaddrEnd : Word} (aligned : Page page) (ends : Page vaddrEnd) (before : page < vaddrEnd) :
    (page + pageSize).toNat = page.toNat + 4096 ∧ Page (page + pageSize) ∧ page.toNat + 4096 ≤ vaddrEnd.toNat := by
  rw [BitVec.lt_def] at before
  have bound := vaddrEnd.isLt
  unfold Page at *
  have amount : pageSize.toNat = 4096 := rfl
  have sum : (page + pageSize).toNat = page.toNat + 4096 := by
    rw [BitVec.toNat_add, amount]
    omega
  omega

theorem page_segmentEnd (vaddr memsz : Word) : Page (segmentEnd vaddr memsz) := page_pageOf _

/-- The loader maps the page for the header at `phdr`. -/
def SegmentPage (data : Bytes) (phdr : Nat) (page : Word) : Prop :=
  (pageOf (pVaddrOf data phdr)).toNat ≤ page.toNat ∧
    page.toNat < (segmentEnd (pVaddrOf data phdr) (pMemszOf data phdr)).toNat

instance (data : Bytes) (phdr : Nat) (page : Word) : Decidable (SegmentPage data phdr page) := inferInstanceAs (Decidable (_ ∧ _))

namespace Obliging

variable (obliging : Obliging pageDir there good)

include obliging

theorem mapPages (fine : good p) (flags : Word) {page vaddrEnd : Word} (aligned : Page page) (ends : Page vaddrEnd)
    (pages : ∀ other : Word, page.toNat ≤ other.toNat → other.toNat < vaddrEnd.toNat → there other) {turns : Nat}
    (enough : (vaddrEnd.toNat - page.toNat) / 4096 < turns) :
    ∃ q, (Loading.mapPages pageDir flags vaddrEnd turns page p).value = some (true, q) ∧ good q := by
  induction turns generalizing page p with
  | zero => omega
  | succ turns ih =>
    rw [Loading.mapPages]
    by_cases before : page < vaddrEnd
    · rw [if_pos before]
      dsimp only
      rw [if_pos (obliging.mapped p page fine (pages page (Nat.le_refl _) before))]
      obtain ⟨next, nextAligned, room⟩ := page_next aligned ends before
      refine ih (obliging.looked p page fine) nextAligned (fun other lower => pages other (by omega)) ?_
      omega
    · rw [if_neg before]
      exact ⟨p, rfl, fine⟩

theorem copyBytes (fine : good p) (dst : Word) (offset left i : Nat) :
    ∃ q, (Loading.copyBytes data pageDir dst offset left i p).value = some q ∧ good q := by
  induction left generalizing i p with
  | zero => exact ⟨p, rfl, fine⟩
  | succ left ih =>
    obtain ⟨q, stored, same⟩ := obliging.stores p (dst + BitVec.ofNat 32 i) (data (offset + i)) fine
    obtain ⟨r, copied, last⟩ := ih same (i + 1)
    refine ⟨r, ?_, last⟩
    rw [Loading.copyBytes, value_bind, readByte, Option.bind_some, value_bind, stored, Option.bind_some]
    exact copied

theorem clearBytes (fine : good p) (dst : Word) (left i : Nat) :
    ∃ q, (Loading.clearBytes pageDir dst left i p).value = some q ∧ good q := by
  induction left generalizing i p with
  | zero => exact ⟨p, rfl, fine⟩
  | succ left ih =>
    obtain ⟨q, stored, same⟩ := obliging.stores p (dst + BitVec.ofNat 32 i) 0 fine
    obtain ⟨r, cleared, last⟩ := ih same (i + 1)
    refine ⟨r, ?_, last⟩
    rw [Loading.clearBytes, value_bind, stored, Option.bind_some]
    exact cleared

/-- Each byte that is copied is read and stored. -/
theorem copyBytes_shows (fine : good p) (dst : Word) (offset left i : Nat) {k : Nat} (inside : k < left) {event : ElfAccess}
    (shown : event = .read (offset + (i + k)) ∨ ∀ q, good q →
      event ∈ (store pageDir q (dst + BitVec.ofNat 32 (i + k)) (data (offset + (i + k)))).trace) :
    event ∈ (Loading.copyBytes data pageDir dst offset left i p).trace := by
  induction left generalizing i k p with
  | zero => omega
  | succ left ih =>
    obtain ⟨q, stored, same⟩ := obliging.stores p (dst + BitVec.ofNat 32 i) (data (offset + i)) fine
    rw [Loading.copyBytes]
    cases k with
    | zero =>
      rw [Nat.add_zero] at shown
      rcases shown with rfl | shown
      · exact mem_bind_left (List.mem_singleton_self _)
      · exact mem_bind_right rfl (mem_bind_left (shown p fine))
    | succ k =>
      rw [show i + (k + 1) = i + 1 + k by omega] at shown
      exact mem_bind_right rfl (mem_bind_right stored (ih same (i + 1) (Nat.lt_of_succ_lt_succ inside) shown))

/-- Each byte that is cleared is stored. -/
theorem clearBytes_shows (fine : good p) (dst : Word) (left i : Nat) {k : Nat} (inside : k < left) {event : ElfAccess}
    (shown : ∀ q, good q → event ∈ (store pageDir q (dst + BitVec.ofNat 32 (i + k)) 0).trace) :
    event ∈ (Loading.clearBytes pageDir dst left i p).trace := by
  induction left generalizing i k p with
  | zero => omega
  | succ left ih =>
    obtain ⟨q, stored, same⟩ := obliging.stores p (dst + BitVec.ofNat 32 i) 0 fine
    rw [Loading.clearBytes]
    cases k with
    | zero => exact mem_bind_left (shown p fine)
    | succ k =>
      rw [show i + (k + 1) = i + 1 + k by omega] at shown
      exact mem_bind_right stored (ih same (i + 1) (Nat.lt_of_succ_lt_succ inside) shown)

/-- The pages of a segment are all there. -/
theorem segmentPages (fine : good p) (flags : Word) {phdr : Nat} (pages : ∀ page, SegmentPage data phdr page → there page) :
    ∃ q, (Loading.mapPages pageDir flags (segmentEnd (pVaddrOf data phdr) (pMemszOf data phdr)) maxPages
      (pageOf (pVaddrOf data phdr)) p).value = some (true, q) ∧ good q := by
  have bound := (segmentEnd (pVaddrOf data phdr) (pMemszOf data phdr)).isLt
  exact obliging.mapPages fine flags (page_pageOf _) (page_segmentEnd _ _)
    (fun other lower upper => pages other ⟨lower, upper⟩) (by rw [maxPages]; omega)

theorem copyFile (fine : good p) {phdr : Nat} (vaddr : Word)
    (within : pFileszOf data phdr = 0 ∨ pOffsetOf data phdr + pFileszOf data phdr ≤ size) :
    ∃ q, (Loading.copyFile data size pageDir phdr vaddr (pFileszOf data phdr) p).value = some (true, q) ∧ good q := by
  rw [Loading.copyFile]
  by_cases empty : pFileszOf data phdr = 0
  · rw [if_pos empty]
    exact ⟨p, rfl, fine⟩
  · rcases within with nothing | within
    · exact absurd nothing empty
    · have passed : ¬ pOffsetOf data phdr + pFileszOf data phdr > size := by
        rw [BitVec.le_def] at within
        rw [gt_iff_lt, BitVec.lt_def]
        omega
      obtain ⟨q, copied, same⟩ := @Obliging.copyBytes data pageDir there good p obliging fine vaddr (pOffsetOf data phdr).toNat
        (pFileszOf data phdr).toNat 0
      refine ⟨q, ?_, same⟩
      rw [if_neg empty, value_bind, readWord, Option.bind_some]
      change Monitored.value (if pOffsetOf data phdr + pFileszOf data phdr > size then _ else _) = _
      rw [if_neg passed, value_bind]
      change (Loading.copyBytes data pageDir vaddr (pOffsetOf data phdr).toNat (pFileszOf data phdr).toNat 0 p).value.bind
        _ = _
      rw [copied]
      rfl

theorem clearBss (fine : good p) (vaddr filesz memsz : Word) :
    ∃ q, (Loading.clearBss pageDir vaddr filesz memsz p).value = some q ∧ good q := by
  rw [Loading.clearBss]
  split
  · exact obliging.clearBytes fine _ _ _
  · exact ⟨p, rfl, fine⟩

/-- A segment that passes is loaded. -/
theorem loadSegment (fine : good p) {phdr : Nat} (pages : Loads data phdr → ∀ page, SegmentPage data phdr page → there page)
    (passes : Passes data size phdr) (brk : Word) :
    ∃ turn, (Loading.loadSegment data size pageDir phdr p brk).value = some turn ∧ turn.goesOn = true ∧ good turn.mm := by
  rw [loadSegment_value]
  by_cases loads : Loads data phdr
  · obtain ⟨below, within⟩ := passes loads
    obtain ⟨mapped, found, first⟩ := obliging.segmentPages fine (segmentFlags (pFlagsOf data phdr)) (pages loads)
    obtain ⟨copied, bytes, second⟩ := @Obliging.copyFile data size pageDir there good mapped obliging first phdr
      (pVaddrOf data phdr) within
    obtain ⟨cleared, bss, third⟩ :=
      obliging.clearBss second (pVaddrOf data phdr) (pFileszOf data phdr) (pMemszOf data phdr)
    rw [if_pos loads, if_pos below, found, Option.bind_some, if_neg (by simp), bytes, Option.bind_some,
      if_neg (by simp), bss]
    exact ⟨_, rfl, rfl, third⟩
  · rw [if_neg loads]
    exact ⟨_, rfl, rfl, fine⟩

/-- The loop gets to every header that is reached. -/
theorem loadSegments_shows (fine : good p) {event : ElfAccess} {left i : Nat} (k : Nat) (lower : i ≤ k)
    (upper : k < i + left) (passes : ∀ j, i ≤ j → j < k → Passes data size (phdrOf data j))
    (pages : ∀ j, i ≤ j → j < k → Loads data (phdrOf data j) → ∀ page, SegmentPage data (phdrOf data j) page → there page)
    (shown : ∀ q brk, good q → event ∈ (Loading.loadSegment data size pageDir (phdrOf data k) q brk).trace)
    (brk : Word) : event ∈ (loadSegments data size pageDir (phoffOf data).toNat left i p brk).trace := by
  induction left generalizing i p brk with
  | zero => omega
  | succ left ih =>
    rw [loadSegments]
    by_cases here : k = i
    · subst here
      exact mem_bind_left (shown p brk fine)
    · obtain ⟨turn, loaded, on, same⟩ := obliging.loadSegment fine (pages i (Nat.le_refl _) (by omega))
        (passes i (Nat.le_refl _) (by omega)) brk
      refine mem_bind_right loaded ?_
      rw [if_neg (by simp [on])]
      exact ih same (by omega) (by omega) (fun j from_here => passes j (by omega)) (fun j from_here => pages j (by omega)) _

omit obliging in
/-- The turn for a header with something to load in user space, after the first
reads. -/
theorem loadSegment_body {phdr : Nat} {brk : Word} (loads : Loads data phdr) (below : pVaddrOf data phdr < kernelVirtualBase)
    {event : ElfAccess}
    (shown : event ∈ (do
      let pages ← Loading.mapPages pageDir (segmentFlags (pFlagsOf data phdr)) (segmentEnd (pVaddrOf data phdr) (pMemszOf data phdr))
        maxPages (pageOf (pVaddrOf data phdr)) p
      if pages.1 = false then pure ⟨false, brk, pages.2⟩
      else do
        let filesz ← readWord data (phdr + Elf32Phdr.pFilesz)
        let copied ← Loading.copyFile data size pageDir phdr (pVaddrOf data phdr) filesz pages.2
        if copied.1 = false then pure ⟨false, brk, copied.2⟩
        else do
          let cleared ← Loading.clearBss pageDir (pVaddrOf data phdr) filesz (pMemszOf data phdr) copied.2
          pure ⟨true, if pVaddrOf data phdr + pMemszOf data phdr > brk then pVaddrOf data phdr + pMemszOf data phdr else brk,
            cleared⟩ : Loading Turn).trace) : event ∈ (Loading.loadSegment data size pageDir phdr p brk).trace := by
  have user : ¬ pVaddrOf data phdr ≥ kernelVirtualBase := by
    rw [BitVec.lt_def] at below
    rw [ge_iff_le, BitVec.le_def]
    omega
  rw [Loading.loadSegment]
  refine mem_bind_right rfl ?_
  rw [if_neg (not_not_intro loads.1)]
  refine mem_bind_right rfl ?_
  rw [← pMemszOf, if_neg loads.2]
  refine mem_bind_right rfl ?_
  rw [← pVaddrOf, if_neg user]
  exact mem_bind_right rfl shown

/-- What the copying of a header that passes shows, its turn shows. -/
theorem loadSegment_copies (fine : good p) {phdr : Nat} (copies : Copies data size phdr)
    (pages : ∀ page, SegmentPage data phdr page → there page) (brk : Word) {event : ElfAccess}
    (shown : ∀ q, good q → event ∈ (Loading.copyBytes data pageDir (pVaddrOf data phdr) (pOffsetOf data phdr).toNat
      (pFileszOf data phdr).toNat 0 q).trace) :
    event ∈ (Loading.loadSegment data size pageDir phdr p brk).trace := by
  obtain ⟨loads, passes, some_bytes⟩ := copies
  obtain ⟨below, nothing | within⟩ := passes loads
  · exact absurd nothing some_bytes
  have passed : ¬ pOffsetOf data phdr + pFileszOf data phdr > size := by
    rw [BitVec.le_def] at within
    rw [gt_iff_lt, BitVec.lt_def]
    omega
  obtain ⟨mapped, found, first⟩ := obliging.segmentPages fine (segmentFlags (pFlagsOf data phdr)) pages
  refine loadSegment_body loads below (mem_bind_right found ?_)
  rw [if_neg (by simp)]
  refine mem_bind_right rfl (mem_bind_left ?_)
  rw [← pFileszOf, Loading.copyFile, if_neg some_bytes]
  refine mem_bind_right rfl ?_
  rw [← pOffsetOf, if_neg passed]
  exact mem_bind_left (shown mapped first)

/-- So does what its clearing shows. -/
theorem loadSegment_clears (fine : good p) {phdr : Nat} (loads : Loads data phdr) (passes : Passes data size phdr)
    (pages : ∀ page, SegmentPage data phdr page → there page) (brk : Word) {event : ElfAccess}
    (shown : ∀ q, good q → event ∈ (Loading.clearBss pageDir (pVaddrOf data phdr) (pFileszOf data phdr) (pMemszOf data phdr)
      q).trace) :
    event ∈ (Loading.loadSegment data size pageDir phdr p brk).trace := by
  obtain ⟨below, within⟩ := passes loads
  obtain ⟨mapped, found, first⟩ := obliging.segmentPages fine (segmentFlags (pFlagsOf data phdr)) pages
  obtain ⟨copied, bytes, second⟩ := @Obliging.copyFile data size pageDir there good mapped obliging first phdr
    (pVaddrOf data phdr) within
  refine loadSegment_body loads below (mem_bind_right found ?_)
  rw [if_neg (by simp)]
  refine mem_bind_right rfl (mem_bind_right bytes ?_)
  rw [if_neg (by simp)]
  exact mem_bind_left (shown copied second)

end Obliging

end Obliging

section Shown

variable {data : Bytes} {size : Word}

theorem identMatches_value {index : Nat} {expected : List Byte}
    (same : ∀ place (bound : place < expected.length), data (index + place) = expected[place]) :
    (identMatches data index expected).value = some true := by
  induction expected generalizing index with
  | nil => rfl
  | cons first rest ih =>
    have here := same 0 (Nat.zero_lt_succ _)
    rw [Nat.add_zero, List.getElem_cons_zero] at here
    rw [identMatches, value_bind, readByte, Option.bind_some, if_neg (not_not_intro here)]
    apply ih
    intro place bound
    have next := same (place + 1) (Nat.succ_lt_succ bound)
    rw [List.getElem_cons_succ] at next
    rw [← next]
    congr 1
    omega

theorem elfValidate_value (valid : Valid data) : (elfValidate data).value = some 0 := by
  obtain ⟨ident, type, machine⟩ := valid
  have matched : (identMatches data 0 (elfMagic ++ [elfClass32, elfData2Lsb])).value = some true := by
    apply identMatches_value
    intro place bound
    rw [Nat.zero_add]
    exact ident place bound
  rw [elfValidate, value_bind, matched, Option.bind_some, if_neg (by simp), value_bind, readHalf, Option.bind_some,
    if_neg (not_not_intro type), value_bind, readHalf, Option.bind_some, if_neg (not_not_intro machine)]
  rfl

/-- What the loader makes of the loop, once the header is accepted. -/
theorem elfLoad_value (accepted : Accepted data size) {pageDir : Word} (nonnull : pageDir ≠ 0) (p : Paging)
    (result : ElfLoadResult) : (elfLoad data size pageDir p result).value =
      (loadSegments data size pageDir (phoffOf data).toNat (phnumOf data).toNat 0 p 0).value.map fun turn =>
        if turn.goesOn = false then (-1, ⟨data.word Elf32Header.eEntry, turn.brk⟩, turn.mm)
        else (0, ⟨data.word Elf32Header.eEntry, pageOf (turn.brk + 0xFFF)⟩, turn.mm) := by
  have table := accepted.table
  have inside : ¬ phoffOf data + (phnumOf data).setWidth 32 * BitVec.ofNat 32 Elf32Phdr.bytes > size := by
    rw [BitVec.le_def] at table
    rw [gt_iff_lt, BitVec.lt_def]
    omega
  rw [elfLoad, if_neg nonnull, if_neg (Nat.not_lt_of_le accepted.large), value_bind, elfValidate_value accepted.valid,
    Option.bind_some, if_neg (not_not_intro rfl), value_bind, readWord, Option.bind_some, value_bind, readHalf, Option.bind_some,
    ← phoffOf, ← phnumOf, if_neg (not_or.mpr ⟨accepted.phoff, accepted.phnum⟩), if_neg inside, value_bind, readWord,
    Option.bind_some, value_bind]
  cases (loadSegments data size pageDir (phoffOf data).toNat (phnumOf data).toNat 0 p 0).value with
  | none => rfl
  | some turn =>
    rw [Option.bind_some, Option.map_some]
    split
    · rfl
    · rfl

/-- What the loop shows, the loader shows. -/
theorem elfLoad_shows (accepted : Accepted data size) {pageDir : Word} (nonnull : pageDir ≠ 0) (p : Paging)
    (result : ElfLoadResult) {event : ElfAccess}
    (shown : event ∈ (loadSegments data size pageDir (phoffOf data).toNat (phnumOf data).toNat 0 p 0).trace) :
    event ∈ (elfLoad data size pageDir p result).trace := by
  have table := accepted.table
  have inside : ¬ phoffOf data + (phnumOf data).setWidth 32 * BitVec.ofNat 32 Elf32Phdr.bytes > size := by
    rw [BitVec.le_def] at table
    rw [gt_iff_lt, BitVec.lt_def]
    omega
  rw [elfLoad, if_neg nonnull, if_neg (Nat.not_lt_of_le accepted.large)]
  refine mem_bind_right (elfValidate_value accepted.valid) ?_
  rw [if_neg (by simp)]
  refine mem_bind_right rfl (mem_bind_right rfl ?_)
  rw [← phoffOf, ← phnumOf, if_neg (not_or.mpr ⟨accepted.phoff, accepted.phnum⟩), if_neg inside]
  exact mem_bind_right rfl (mem_bind_left shown)

end Shown

end MexOS.Core.Loading
