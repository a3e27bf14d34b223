import MexOS.Core.ElfReads

/-! Where the loader maps pages and stores bytes. -/

namespace MexOS.Core.Loading

open MexOS.Machine MexOS.Mm MexOS.Mm.Paging Monitored

/-- The address belongs to the memory of a loadable segment. -/
def InSegment (data : Bytes) (address : Word) : Prop :=
  ∃ i < (phnumOf data).toNat, data.word (phdrOf data i + Elf32Phdr.pType) = ptLoad ∧
    (pVaddrOf data (phdrOf data i)).toNat ≤ address.toNat ∧
    address.toNat < (pVaddrOf data (phdrOf data i)).toNat + (pMemszOf data (phdrOf data i)).toNat

/-- The page belongs to the memory of a loadable segment, rounded to pages. -/
def InSegmentPages (data : Bytes) (page : Word) : Prop :=
  ∃ i < (phnumOf data).toNat, data.word (phdrOf data i + Elf32Phdr.pType) = ptLoad ∧
    (pVaddrOf data (phdrOf data i)).toNat / 4096 * 4096 ≤ page.toNat ∧
    page.toNat < ((pVaddrOf data (phdrOf data i)).toNat + (pMemszOf data (phdrOf data i)).toNat + 4095) / 4096 * 4096

/-- What the program asked for: below the kernel, in a segment, and for a store in
a mapped page. -/
def Rightful (data : Bytes) : ElfAccess → Prop
  | .read _ => True
  | .mapped page => page < kernelVirtualBase ∧ InSegmentPages data page
  | .wrote address mapped => address < kernelVirtualBase ∧ InSegment data address ∧ mapped = true

/-- Directories and tables, of the directory that is loaded into and of the
active one, are out of reach of the segments. -/
def Orderly (data : Bytes) (p : Paging) (pageDir : Word) : Prop :=
  p.Guarded (fun space => space = pageDir ∨ space = p.cr3) 768 (InSegment data)

/-- A segment that begins below the kernel maps no page of it, its bytes in
memory and in the file end below the kernel, and file bytes behind its memory
come to lie in another segment that has its pages already. -/
def WriteFits (data : Bytes) (size : Word) : Prop :=
  Accepted data size → ∀ i < (phnumOf data).toNat, Reached data size i → Loads data (phdrOf data i) →
    pVaddrOf data (phdrOf data i) < kernelVirtualBase →
    ((pVaddrOf data (phdrOf data i)).toNat + (pMemszOf data (phdrOf data i)).toNat ≤ kernelVirtualBase.toNat ∨
      2 ^ 32 ≤ (pVaddrOf data (phdrOf data i)).toNat + (pMemszOf data (phdrOf data i)).toNat + 0xFFF) ∧
    (Passes data size (phdrOf data i) →
      (pVaddrOf data (phdrOf data i)).toNat + (pMemszOf data (phdrOf data i)).toNat ≤ kernelVirtualBase.toNat ∧
      (pVaddrOf data (phdrOf data i)).toNat + (pFileszOf data (phdrOf data i)).toNat ≤ kernelVirtualBase.toNat ∧
      ∀ k, (pMemszOf data (phdrOf data i)).toNat ≤ k → k < (pFileszOf data (phdrOf data i)).toNat →
        InSegment data (pVaddrOf data (phdrOf data i) + BitVec.ofNat 32 k) ∧
        ∃ j ≤ i, Loads data (phdrOf data j) ∧
          SegmentPage data (phdrOf data j) (pageOf (pVaddrOf data (phdrOf data i) + BitVec.ofNat 32 k)))

variable {data : Bytes} {size pageDir : Word} {spaces reach except : Word → Prop} {p q : Paging}

section Arithmetic

theorem segmentEnd_toNat (vaddr memsz : Word) :
    (segmentEnd vaddr memsz).toNat = (vaddr.toNat + memsz.toNat + 0xFFF) % 2 ^ 32 / 4096 * 4096 := by
  have amount : (0xFFF : Word).toNat = 0xFFF := rfl
  rw [segmentEnd, toNat_pageOf, BitVec.toNat_add, BitVec.toNat_add, amount]
  omega

/-- The page of an address that the loader maps is mapped as well. -/
theorem segmentPage_pageOf {phdr : Nat} {address : Word} :
    SegmentPage data phdr (pageOf address) ↔ SegmentPage data phdr address := by
  have first := page_pageOf (pVaddrOf data phdr)
  have last := page_segmentEnd (pVaddrOf data phdr) (pMemszOf data phdr)
  unfold Page at first last
  unfold SegmentPage
  rw [toNat_pageOf address]
  omega

/-- A segment that does not get into the kernel has its pages below it. -/
theorem segmentPage_user {phdr : Nat} {page : Word} (below : pVaddrOf data phdr < kernelVirtualBase)
    (fits : (pVaddrOf data phdr).toNat + (pMemszOf data phdr).toNat ≤ kernelVirtualBase.toNat ∨
      2 ^ 32 ≤ (pVaddrOf data phdr).toNat + (pMemszOf data phdr).toNat + 0xFFF)
    (there : SegmentPage data phdr page) : page < kernelVirtualBase := by
  obtain ⟨lower, upper⟩ := there
  have base : kernelVirtualBase.toNat = 0xC0000000 := rfl
  have size := (pMemszOf data phdr).isLt
  rw [BitVec.lt_def] at below ⊢
  rw [segmentEnd_toNat] at upper
  omega

/-- The pages that the loader maps for a segment are pages of it. -/
theorem segmentPage_rounded {phdr : Nat} {page : Word} (there : SegmentPage data phdr page) :
    (pVaddrOf data phdr).toNat / 4096 * 4096 ≤ page.toNat ∧
      page.toNat < ((pVaddrOf data phdr).toNat + (pMemszOf data phdr).toNat + 4095) / 4096 * 4096 := by
  obtain ⟨lower, upper⟩ := there
  rw [segmentEnd_toNat] at upper
  rw [toNat_pageOf] at lower
  omega

/-- The bytes of a segment that ends below the kernel lie in its pages. -/
theorem segmentPage_byte {phdr k : Nat} (ends : (pVaddrOf data phdr).toNat + (pMemszOf data phdr).toNat ≤ kernelVirtualBase.toNat)
    (inside : k < (pMemszOf data phdr).toNat) : SegmentPage data phdr (pVaddrOf data phdr + BitVec.ofNat 32 k) := by
  have base : kernelVirtualBase.toNat = 0xC0000000 := rfl
  rw [SegmentPage, segmentEnd_toNat, toNat_pageOf, BitVec.toNat_add, BitVec.toNat_ofNat]
  omega

end Arithmetic

section Rightful

/-- The address is mapped in the directory. -/
def Maps (p : Paging) (pageDir address : Word) : Prop := (p.translation pageDir address).isSome = true

theorem maps_of_page {address other : Word} (same : pageOf address = pageOf other) : Maps p pageDir address ↔ Maps p pageDir other := by
  rw [Maps, Maps, translation_of_page same]

/-- What is mapped in `p` is mapped in `q`. -/
def Grows (p : Paging) (spaces : Word → Prop) (q : Paging) : Prop :=
  ∀ space address, spaces space → address < kernelVirtualBase → Maps p space address → Maps q space address

theorem Grows.refl (p : Paging) : Grows p spaces p := fun _ _ _ _ => id

theorem Grows.trans {r : Paging} (first : Grows p spaces q) (second : Grows q spaces r) : Grows p spaces r :=
  fun space address known user mapped => second space address known user (first space address known user mapped)

theorem grows_of_same (same : SameBelow p spaces 768 q) : Grows p spaces q := by
  intro space address known user mapped
  rw [Maps, same space address known (pageDirectoryIndex_user user)]
  exact mapped

/-- In front of `next` the pages from `first` on are mapped, and nothing is lost. -/
structure Mapped (spaces reach : Word → Prop) (pageDir first : Word) (p : Paging) (next : Word) (q : Paging) : Prop where
  aligned : Page next
  guarded : q.Guarded spaces 768 reach
  grows : Grows p spaces q
  pages : ∀ other : Word, first.toNat ≤ other.toNat → other.toNat < next.toNat → Maps q pageDir other

/-- The next page is mapped as well. -/
theorem Mapped.turn {first next vaddrEnd : Word} {r : Paging} (known : spaces pageDir) (ends : Page vaddrEnd)
    (before : next < vaddrEnd) (user : ∀ other : Word, first.toNat ≤ other.toNat → other.toNat < vaddrEnd.toNat →
      other < kernelVirtualBase) (mapped : Mapped spaces reach pageDir first p next q) (guarded : r.Guarded spaces 768 reach)
    (grows : Grows q spaces r) (here : ∀ other, pageOf other = pageOf next → Maps r pageDir other) :
    Mapped spaces reach pageDir first p (next + pageSize) r := by
  obtain ⟨sum, aligned, room⟩ := page_next mapped.aligned ends before
  refine ⟨aligned, guarded, mapped.grows.trans grows, fun other lower upper => ?_⟩
  by_cases earlier : other.toNat < next.toNat
  · exact grows pageDir other known (user other lower (by omega)) (mapped.pages other lower earlier)
  · -- the other addresses of this page are mapped with it
    refine here other (BitVec.eq_of_toNat_eq ?_)
    have start := mapped.aligned
    unfold Page at start
    rw [toNat_pageOf, toNat_pageOf]
    omega

/-- The pages from here to the end of the segment, each below the kernel and in a
segment. -/
theorem mapPages_rightful (known : spaces pageDir) {flags vaddrEnd : Word} (small : flags.toNat < 0x1000) (ends : Page vaddrEnd)
    {turns : Nat} {page : Word} (aligned : Page page) (guarded : p.Guarded spaces 768 reach)
    (pages : ∀ other : Word, page.toNat ≤ other.toNat → other.toNat < vaddrEnd.toNat →
      other < kernelVirtualBase ∧ InSegmentPages data other) :
    (mapPages pageDir flags vaddrEnd turns page p).Meets (Rightful data) fun result =>
      result.2.Guarded spaces 768 reach ∧ Grows p spaces result.2 ∧ (result.1 = true → ∀ other : Word,
        page.toNat ≤ other.toNat → other.toNat < vaddrEnd.toNat → Maps result.2 pageDir other) := by
  have user (other : Word) (lower : page.toNat ≤ other.toNat) (upper : other.toNat < vaddrEnd.toNat) :
      other < kernelVirtualBase := (pages other lower upper).1
  have looked (next : Word) (q : Paging) (fine : q.Guarded spaces 768 reach) :
      (q.isMapped pageDir next).2.Guarded spaces 768 reach ∧ Grows q spaces (q.isMapped pageDir next).2 := by
    obtain ⟨after, same⟩ := fine.keep (preserves_isMapped q pageDir next) (fun _ _ => id)
    exact ⟨after, grows_of_same same⟩
  refine mapPages_meets (fun next q => page.toNat ≤ next.toNat ∧ Mapped spaces reach pageDir page p next q) ?_ ?_ ?_ ?_ turns
    ⟨Nat.le_refl _, aligned, guarded, .refl p, fun other lower upper => absurd upper (by omega)⟩
  · rintro next q before ⟨lower, mapped⟩ found
    obtain ⟨sum, _, _⟩ := page_next mapped.aligned ends before
    obtain ⟨after, grown⟩ := looked next q mapped.guarded
    refine ⟨by omega, mapped.turn known ends before user after grown fun other same => ?_⟩
    rw [isMapped_eq] at found
    have below := user next lower before
    refine (maps_of_page same).mpr (grown pageDir next known below found)
  · rintro next q before ⟨lower, mapped⟩ _ given
    obtain ⟨sum, _, _⟩ := page_next mapped.aligned ends before
    obtain ⟨below, inside⟩ := pages next lower before
    obtain ⟨afterLook, grown⟩ := looked next q mapped.guarded
    obtain ⟨after, _, outcome⟩ := afterLook.allocPage known (pageDirectoryIndex_user below) small
    rcases outcome with ⟨failed, _⟩ | ⟨_, table, block, _, _, placed⟩
    · exact absurd failed (by rw [given]; decide)
    · refine ⟨⟨below, inside⟩, by omega, mapped.turn known ends before user after (grown.trans ?_) fun other same => ?_⟩
      · exact fun space address spaceKnown address_user => placed.mapped spaceKnown (pageDirectoryIndex_user address_user)
      · rw [Maps, placed.maps known (pageDirectoryIndex_user below) same]
        rfl
  · rintro next q before ⟨lower, mapped⟩ _ refused
    obtain ⟨afterLook, grown⟩ := looked next q mapped.guarded
    obtain ⟨after, _, outcome⟩ := afterLook.allocPage known (pageDirectoryIndex_user (user next lower before)) small
    rcases outcome with ⟨_, kept⟩ | ⟨zero, _⟩
    · have same := (afterLook.keep kept fun _ _ => id).2
      exact ⟨after, (mapped.grows.trans grown).trans (grows_of_same same), Bool.false_ne_true.elim⟩
    · exact absurd zero refused
  · rintro next q past ⟨_, mapped⟩
    rw [BitVec.lt_def] at past
    exact ⟨mapped.guarded, mapped.grows, fun _ other lower upper => mapped.pages other lower (by omega)⟩

/-- A store to an address of a segment that is mapped. -/
theorem store_rightful {address : Word} (user : address < kernelVirtualBase)
    (reached : InSegment data address) (guarded : p.Guarded spaces 768 (InSegment data)) (mapped : Maps p pageDir address)
    (value : Byte) : (store pageDir p address value).Meets (Rightful data) fun q =>
      q.Guarded spaces 768 (InSegment data) ∧ Grows p spaces q := by
  constructor
  · intro event shown
    obtain rfl := List.mem_singleton.mp shown
    refine ⟨user, reached, ?_⟩
    rw [isMapped_eq]
    exact mapped
  · intro q stored
    obtain ⟨frame, walked, rfl⟩ := Option.map_eq_some_iff.mp stored
    obtain ⟨entry, _, _, _, after, same⟩ := guarded.storeByte (pageDirectoryIndex_user user) reached walked value
    exact ⟨after, grows_of_same same⟩

/-- The bytes from here on, each of a segment and in a page that is mapped. -/
theorem copyBytes_rightful (known : spaces pageDir) {dst : Word} {offset left i : Nat} (guarded : p.Guarded spaces 768 (InSegment data))
    (fits : ∀ k, i ≤ k → k < i + left → dst + BitVec.ofNat 32 k < kernelVirtualBase ∧
      InSegment data (dst + BitVec.ofNat 32 k) ∧ Maps p pageDir (dst + BitVec.ofNat 32 k)) :
    (copyBytes data pageDir dst offset left i p).Meets (Rightful data) fun q =>
      q.Guarded spaces 768 (InSegment data) ∧ Grows p spaces q := by
  refine copyBytes_meets (fun _ q => q.Guarded spaces 768 (InSegment data) ∧ Grows p spaces q) ?_ ⟨guarded, .refl p⟩
  rintro k q lower upper ⟨fine, grown⟩
  obtain ⟨user, reached, mapped⟩ := fits k lower upper
  exact ⟨trivial, (store_rightful user reached fine (grown pageDir _ known user mapped) _).imp fun r last =>
    ⟨last.1, grown.trans last.2⟩⟩

/-- Both loops over the bytes of a segment address them from its start. -/
theorem clearBss_rightful (known : spaces pageDir) {vaddr filesz memsz : Word} (guarded : p.Guarded spaces 768 (InSegment data))
    (fits : ∀ k, filesz.toNat ≤ k → k < memsz.toNat → vaddr + BitVec.ofNat 32 k < kernelVirtualBase ∧
      InSegment data (vaddr + BitVec.ofNat 32 k) ∧ Maps p pageDir (vaddr + BitVec.ofNat 32 k)) :
    (clearBss pageDir vaddr filesz memsz p).Meets (Rightful data) fun q => q.Guarded spaces 768 (InSegment data) ∧ Grows p spaces q := by
  refine clearBss_meets (fun q => q.Guarded spaces 768 (InSegment data) ∧ Grows p spaces q) ?_ ⟨guarded, .refl p⟩
  rintro k q lower upper ⟨fine, grown⟩
  obtain ⟨user, reached, mapped⟩ := fits k lower upper
  exact (store_rightful user reached fine (grown pageDir _ known user mapped) 0).imp fun r last =>
    ⟨last.1, grown.trans last.2⟩

/-- The pages of the segments before this one are below the kernel and mapped. -/
def Laid (data : Bytes) (p : Paging) (pageDir : Word) (i : Nat) : Prop :=
  ∀ j < i, Loads data (phdrOf data j) → ∀ page, SegmentPage data (phdrOf data j) page →
    page < kernelVirtualBase ∧ Maps p pageDir page

theorem Laid.grows {i : Nat} (laid : Laid data p pageDir i) (known : spaces pageDir) (grown : Grows p spaces q) :
    Laid data q pageDir i := by
  intro j earlier loads page there
  obtain ⟨user, mapped⟩ := laid j earlier loads page there
  exact ⟨user, grown pageDir page known user mapped⟩

theorem loadSegment_rightful (fits : WriteFits data size) (accepted : Accepted data size) (known : spaces pageDir) {i : Nat}
    (bound : i < (phnumOf data).toNat) (reached : Reached data size i) (guarded : p.Guarded spaces 768 (InSegment data))
    (laid : Laid data p pageDir i) (brk : Word) :
    (loadSegment data size pageDir (phdrOf data i) p brk).Meets (Rightful data) fun turn => turn.goesOn = true →
      Passes data size (phdrOf data i) ∧ turn.mm.Guarded spaces 768 (InSegment data) ∧ Laid data turn.mm pageDir (i + 1) := by
  refine loadSegment_meets (fun _ _ => trivial) ?_ (fun _ _ => nofun) ?_
  · intro skipped _
    refine ⟨fun loads => absurd loads skipped, guarded, ?_⟩
    intro j earlier loads
    refine laid j ((Nat.lt_succ_iff_lt_or_eq.mp earlier).resolve_right ?_) loads
    rintro rfl
    exact skipped loads
  · intro loads below
    obtain ⟨mapping, writing⟩ := fits accepted i bound reached loads below
    refine (mapPages_rightful known (segmentFlags_lt _) (page_segmentEnd _ _) (page_pageOf _) guarded ?_).imp ?_
    · intro page lower upper
      have there : SegmentPage data (phdrOf data i) page := ⟨lower, upper⟩
      exact ⟨segmentPage_user below mapping there, i, bound, loads.1, segmentPage_rounded there⟩
    rintro ⟨_, mapped⟩ ⟨after, grown, pages⟩
    refine ⟨fun _ => nofun, ?_⟩
    rintro rfl
    -- with its own pages the segment has all that its bytes may lie in
    have whole : Laid data mapped pageDir (i + 1) := by
      intro j earlier there page inside
      rcases Nat.lt_succ_iff_lt_or_eq.mp earlier with before | rfl
      · exact laid.grows known grown j before there page inside
      · exact ⟨segmentPage_user below mapping inside, pages rfl page inside.1 inside.2⟩
    -- the condition of each byte that is stored, once the segment passes
    have byte (passes : Passes data size (phdrOf data i)) (k : Nat)
        (small : k < (pMemszOf data (phdrOf data i)).toNat ∨ k < (pFileszOf data (phdrOf data i)).toNat) :
        pVaddrOf data (phdrOf data i) + BitVec.ofNat 32 k < kernelVirtualBase ∧
        InSegment data (pVaddrOf data (phdrOf data i) + BitVec.ofNat 32 k) ∧
        Maps mapped pageDir (pVaddrOf data (phdrOf data i) + BitVec.ofNat 32 k) := by
      obtain ⟨ends, fileEnds, foreign⟩ := writing passes
      by_cases own : k < (pMemszOf data (phdrOf data i)).toNat
      · have there := segmentPage_byte ends own
        have base : kernelVirtualBase.toNat = 0xC0000000 := rfl
        have sum : (pVaddrOf data (phdrOf data i) + BitVec.ofNat 32 k).toNat = (pVaddrOf data (phdrOf data i)).toNat + k := by
          rw [BitVec.toNat_add, BitVec.toNat_ofNat]
          omega
        obtain ⟨user, present⟩ := whole i (Nat.lt_succ_self i) loads _ there
        exact ⟨user, ⟨i, bound, loads.1, by omega, by omega⟩, present⟩
      · obtain ⟨inside, j, earlier, otherLoads, there⟩ := foreign k (by omega) (by omega)
        obtain ⟨user, present⟩ := whole j (Nat.lt_succ_of_le earlier) otherLoads _ (segmentPage_pageOf.mp there)
        exact ⟨user, inside, present⟩
    have cleared (passes : Passes data size (phdrOf data i)) (copied : Paging) (fine : copied.Guarded spaces 768 (InSegment data))
        (larger : Grows mapped spaces copied) :
        (clearBss pageDir (pVaddrOf data (phdrOf data i)) (pFileszOf data (phdrOf data i)) (pMemszOf data (phdrOf data i))
          copied).Meets (Rightful data) fun last => Passes data size (phdrOf data i) ∧ last.Guarded spaces 768 (InSegment data) ∧
            Laid data last pageDir (i + 1) := by
      refine (clearBss_rightful known fine fun k lower upper => ?_).imp fun last spec =>
        ⟨passes, spec.1, whole.grows known (larger.trans spec.2)⟩
      obtain ⟨user, inside, present⟩ := byte passes k (.inl upper)
      exact ⟨user, inside, larger pageDir _ known user present⟩
    refine copyFile_meets (fun _ _ => trivial) ?_ (fun _ _ => ⟨fun _ => nofun, nofun⟩) ?_
    · intro empty
      have passes : Passes data size (phdrOf data i) := fun _ => ⟨below, .inl empty⟩
      exact ⟨nofun, fun _ => (cleared passes mapped after (.refl mapped)).imp fun _ spec _ => spec⟩
    · intro _ within
      have passes : Passes data size (phdrOf data i) := fun _ => ⟨below, .inr within⟩
      refine (copyBytes_rightful known after fun k _ upper => byte passes k (.inr (by omega))).imp ?_
      rintro copied ⟨fine, larger⟩
      exact ⟨nofun, fun _ => (cleared passes copied fine larger).imp fun _ spec _ => spec⟩

theorem loadSegments_rightful (fits : WriteFits data size) (accepted : Accepted data size) (known : spaces pageDir) {left i : Nat}
    (total : i + left = (phnumOf data).toNat) (reached : Reached data size i) (guarded : p.Guarded spaces 768 (InSegment data))
    (laid : Laid data p pageDir i) (brk : Word) :
    (loadSegments data size pageDir (phoffOf data).toNat left i p brk).Meets (Rightful data) fun _ => True := by
  refine loadSegments_meets (fun k _ q => Reached data size k ∧ q.Guarded spaces 768 (InSegment data) ∧ Laid data q pageDir k) ?_
    (fun _ _ _ => trivial) ⟨reached, guarded, laid⟩
  rintro k q brk _ upper ⟨passed, fine, soFar⟩
  refine (loadSegment_rightful fits accepted known (by omega) passed fine soFar brk).imp fun turn spec => ⟨fun _ => trivial, fun on => ?_⟩
  obtain ⟨passes, after, more⟩ := spec on
  exact ⟨passed.succ passes, after, more⟩

theorem elfLoad_rightful (fits : WriteFits data size) (orderly : Orderly data p pageDir) (result : ElfLoadResult) :
    (elfLoad data size pageDir p result).Meets (Rightful data) fun _ => True := by
  refine elfLoad_meets (fun _ _ _ => trivial) trivial fun accepted => ?_
  exact (loadSegments_rightful fits accepted (.inl rfl) (Nat.zero_add _) (fun j impossible => by omega) orderly
    (fun j impossible => by omega) 0).imp fun _ _ => ⟨fun _ => trivial, fun _ => trivial⟩

end Rightful

section Exact

theorem orderly_holedPage (data : Bytes) (hole : Word) : Orderly data (holedPage hole) 0x4000 :=
  (holed_holedPage hole).guarded (by decide) (InSegment data)

theorem Holed.store_shows (holed : Holed hole p) (address : Word) (value : Byte) :
    .wrote address (decide (pageOf address ≠ pageOf hole)) ∈ (store 0x4000 p address value).trace := by
  rw [store, holed.isMapped]
  exact List.mem_singleton_self _

/-- On the machine that has the pages of the segments so far, each byte of the
next one is stored. -/
theorem writes_byte (accepted : Accepted data size) {i k : Nat} (bound : i < (phnumOf data).toNat) (reached : Reached data size i)
    (loads : Loads data (phdrOf data i)) (passes : Passes data size (phdrOf data i))
    (pages : ∀ j ≤ i, Loads data (phdrOf data j) → ∀ page, SegmentPage data (phdrOf data j) page → pageOf page ≠ pageOf hole)
    (small : k < (pFileszOf data (phdrOf data i)).toNat ∨ k < (pMemszOf data (phdrOf data i)).toNat) :
    .wrote (pVaddrOf data (phdrOf data i) + BitVec.ofNat 32 k)
        (decide (pageOf (pVaddrOf data (phdrOf data i) + BitVec.ofNat 32 k) ≠ pageOf hole)) ∈
      (elfLoad data size 0x4000 (holedPage hole) ⟨0, 0⟩).trace := by
  apply elfLoad_shows accepted (by decide)
  refine (obliging_holed hole).loadSegments_shows (holed_holedPage hole) i (Nat.zero_le _) (by omega) (fun j _ => reached j)
    (fun j _ before => pages j (Nat.le_of_lt before)) ?_ 0
  intro q brk holed
  by_cases file : k < (pFileszOf data (phdrOf data i)).toNat
  · have some_bytes : pFileszOf data (phdrOf data i) ≠ 0 := by
      intro empty
      rw [empty] at file
      exact absurd file (Nat.not_lt_zero k)
    refine (obliging_holed hole).loadSegment_copies holed ⟨loads, passes, some_bytes⟩ (pages i (Nat.le_refl i) loads) brk
      fun m fine => (obliging_holed hole).copyBytes_shows fine _ _ _ 0 file (.inr fun q fine => ?_)
    rw [Nat.zero_add]
    exact fine.store_shows _ _
  · refine (obliging_holed hole).loadSegment_clears holed loads passes (pages i (Nat.le_refl i) loads) brk fun m fine => ?_
    have larger : pMemszOf data (phdrOf data i) > pFileszOf data (phdrOf data i) := by
      rw [gt_iff_lt, BitVec.lt_def]
      omega
    have amount := BitVec.toNat_sub_of_le (BitVec.le_of_lt larger)
    rw [clearBss, if_pos larger]
    refine (obliging_holed hole).clearBytes_shows fine _ _ 0
      (show k - (pFileszOf data (phdrOf data i)).toNat < _ by omega) fun q fine => ?_
    have place : pVaddrOf data (phdrOf data i) + pFileszOf data (phdrOf data i) +
        BitVec.ofNat 32 (0 + (k - (pFileszOf data (phdrOf data i)).toNat)) = pVaddrOf data (phdrOf data i) + BitVec.ofNat 32 k := by
      have sum : (pFileszOf data (phdrOf data i)).toNat + (k - (pFileszOf data (phdrOf data i)).toNat) = k := by omega
      rw [Nat.zero_add, BitVec.add_assoc]
      congr 1
      rw [← sum, BitVec.ofNat_add, BitVec.ofNat_toNat, BitVec.setWidth_eq, Nat.add_sub_cancel_left]
    rw [place]
    exact fine.store_shows _ _

/-- A segment that gets into the kernel while its end does not wrap has the first
page of the kernel mapped. -/
theorem maps_kernel (accepted : Accepted data size) {i : Nat} (bound : i < (phnumOf data).toNat) (reached : Reached data size i)
    (loads : Loads data (phdrOf data i)) (below : pVaddrOf data (phdrOf data i) < kernelVirtualBase)
    (crosses : kernelVirtualBase.toNat < (pVaddrOf data (phdrOf data i)).toNat + (pMemszOf data (phdrOf data i)).toNat)
    (unwrapped : (pVaddrOf data (phdrOf data i)).toNat + (pMemszOf data (phdrOf data i)).toNat + 0xFFF < 2 ^ 32)
    (earlier : ∀ j < i, Loads data (phdrOf data j) → ∀ page, SegmentPage data (phdrOf data j) page → page < kernelVirtualBase) :
    .mapped kernelVirtualBase ∈ (elfLoad data size 0x4000 (holedPage kernelVirtualBase) ⟨0, 0⟩).trace := by
  have base : kernelVirtualBase.toNat = 0xC0000000 := rfl
  apply elfLoad_shows accepted (by decide)
  refine (obliging_holed kernelVirtualBase).loadSegments_shows (holed_holedPage kernelVirtualBase) i (Nat.zero_le _) (by omega)
    (fun j _ => reached j) ?_ ?_ 0
  · intro j _ before otherLoads page there same
    have user := pageOf_user (earlier j before otherLoads page there)
    have kernel : pageOf kernelVirtualBase = kernelVirtualBase := by decide
    rw [same, kernel, BitVec.lt_def] at user
    exact absurd user (Nat.lt_irrefl _)
  · intro q brk holed
    refine Obliging.loadSegment_body loads below (mem_bind_left ?_)
    have ends := segmentEnd_toNat (pVaddrOf data (phdrOf data i)) (pMemszOf data (phdrOf data i))
    have starts := toNat_pageOf (pVaddrOf data (phdrOf data i))
    have limit := (segmentEnd (pVaddrOf data (phdrOf data i)) (pMemszOf data (phdrOf data i))).isLt
    rw [BitVec.lt_def] at below
    refine holed.mapPages_shows _ (page_pageOf _) (page_segmentEnd _ _) (by decide) (by omega) (by omega) ?_
    rw [maxPages]
    omega

/-- The loader maps and writes what the program asked for, in every orderly state in
which the file lies apart from what it stores to, exactly when the addresses and
sizes in the file fit. -/
theorem elf_writes_rightful (data : Bytes) (size : Word) :
    (∀ pageDir p file result event, Orderly data p pageDir → Apart data size p pageDir file →
      event ∈ (elfLoad data size pageDir p result).trace → Rightful data event) ↔ WriteFits data size := by
  constructor
  · intro rightful accepted i
    -- earlier headers fit, so that their pages lie below the kernel
    induction i using Nat.strong_induction_on with
    | h i ih =>
      intro bound reached loads below
      have base : kernelVirtualBase.toNat = 0xC0000000 := rfl
      have orderly (hole : Word) (event : ElfAccess)
          (shown : event ∈ (elfLoad data size 0x4000 (holedPage hole) ⟨0, 0⟩).trace) : Rightful data event :=
        rightful 0x4000 (holedPage hole) lowFile ⟨0, 0⟩ event (orderly_holedPage data hole) (apart_holedPage data size hole) shown
      have byte (passes : Passes data size (phdrOf data i)) (k : Nat)
          (small : k < (pFileszOf data (phdrOf data i)).toNat ∨ k < (pMemszOf data (phdrOf data i)).toNat) :=
        orderly 0xFFFFF000 _ (writes_byte accepted bound reached loads passes (fun _ _ _ _ there => no_segmentPage there) small)
      have under (passes : Passes data size (phdrOf data i)) (amount : Nat)
          (small : amount ≤ (pFileszOf data (phdrOf data i)).toNat ∨ amount ≤ (pMemszOf data (phdrOf data i)).toNat) :
          (pVaddrOf data (phdrOf data i)).toNat + amount ≤ kernelVirtualBase.toNat := by
        rw [BitVec.lt_def] at below
        by_contra outside
        have user := (byte passes (kernelVirtualBase.toNat - (pVaddrOf data (phdrOf data i)).toNat) (by omega)).1
        rw [BitVec.lt_def, BitVec.toNat_add, BitVec.toNat_ofNat] at user
        omega
      refine ⟨?_, fun passes => ⟨under passes _ (.inr (Nat.le_refl _)), under passes _ (.inl (Nat.le_refl _)), ?_⟩⟩
      · by_contra outside
        rw [not_or, Nat.not_le, Nat.not_le] at outside
        have mapped := orderly kernelVirtualBase _ (maps_kernel accepted bound reached loads below outside.1 outside.2 ?_)
        · have user := mapped.1
          rw [BitVec.lt_def] at user
          exact absurd user (Nat.lt_irrefl _)
        · intro j before otherLoads page there
          have otherBelow := (reached j before otherLoads).1
          have fits := (ih j before (by omega) (fun l earlier => reached l (by omega)) otherLoads otherBelow).1
          exact segmentPage_user otherBelow fits there
      · intro k _ small
        refine ⟨(byte passes k (.inl small)).2.1, ?_⟩
        by_contra nowhere
        have unmapped := orderly (pVaddrOf data (phdrOf data i) + BitVec.ofNat 32 k) _
          (writes_byte accepted bound reached loads passes (fun j earlier otherLoads page there same => nowhere
            ⟨j, earlier, otherLoads, same ▸ segmentPage_pageOf.mpr there⟩) (.inl small))
        have mapped := unmapped.2.2
        simp at mapped
  · intro fits pageDir p file result event orderly _ shown
    exact (elfLoad_rightful fits orderly result).shows_ event shown

/-- One segment of a page and a half, the last half of which is the kernel's. -/
def crossingSegment : Bytes :=
  ((((((((Bytes.zero.setWord 0 0x464C457F).setWord 4 0x101).setWord 16 0x30002).setWord 28 52).setWord 44 1).setWord 52 1).setWord
    60 0xBFFFF000).setWord 72 0x1800)

theorem crossingSegment_accepted : Accepted crossingSegment 84 := by
  refine ⟨by decide, ⟨?_, by decide, by decide⟩, by decide, by decide, by decide⟩
  decide

/-- The loader maps a page of the kernel for it. -/
theorem elf_maps_kernel : ¬ ∀ data size pageDir p file result event, Orderly data p pageDir → Apart data size p pageDir file →
    event ∈ (elfLoad data size pageDir p result).trace → Rightful data event := by
  intro rightful
  have mapped := rightful crossingSegment 84 0x4000 (holedPage kernelVirtualBase) lowFile ⟨0, 0⟩ (.mapped kernelVirtualBase)
    (orderly_holedPage _ _) (apart_holedPage _ _ _) (@maps_kernel _ _ crossingSegment_accepted 0 (by decide +kernel)
      (fun j impossible => by omega) (by decide +kernel) (by decide +kernel) (by decide +kernel) (by decide +kernel)
      (fun j impossible => by omega))
  have user := mapped.1
  rw [BitVec.lt_def] at user
  exact absurd user (Nat.lt_irrefl _)

end Exact

end MexOS.Core.Loading
