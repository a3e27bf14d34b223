import MexOS.Mm.Allotted
import Mathlib.Data.Nat.Find

/-! What a new address space leaves in its directory and tables, word by word, when
pages one behind the other have been allocated in it. -/

namespace MexOS.Mm.Paging

open MexOS.Machine

variable {b p q : Paging} {pageDir virtAddr flags : Word} {first last other : Nat}

section Ranks

/-- How many blocks the pages from `first` up to `last` take, and their tables. -/
def blocksFor (first last : Nat) : Nat := if first < last then last - first + ((last - 1) / 1024 - first / 1024 + 1) else 0

/-- This entry of the directory has a table for one of the pages. -/
def Tabled (first last index : Nat) : Prop := first / 1024 ≤ index ∧ max first (1024 * index) < last

instance {index : Nat} : Decidable (Tabled first last index) := inferInstanceAs (Decidable (_ ∧ _))

/-- How many blocks are handed out before this page: the directory, and the pages
before it with their tables. -/
def pageRank (first page : Nat) : Nat := 1 + blocksFor first page

/-- A table comes right behind its first page. -/
def tableRank (first index : Nat) : Nat := pageRank first (max first (1024 * index)) + 1

theorem blocksFor_self (first : Nat) : blocksFor first first = 0 := if_neg (Nat.lt_irrefl first)

/-- A table is new with the first of the pages and with the first page behind it. -/
theorem not_tabled_iff (start : first ≤ last) : ¬ Tabled first last (last / 1024) ↔ last = first ∨ last % 1024 = 0 := by
  unfold Tabled
  omega

theorem pageRank_succ (start : first ≤ last) :
    pageRank first (last + 1) = pageRank first last + 1 + if Tabled first last (last / 1024) then 0 else 1 := by
  have new := not_tabled_iff start
  unfold pageRank blocksFor
  by_cases tabled : Tabled first last (last / 1024)
  · rw [if_pos tabled]
    rw [← not_iff_not, not_not] at new
    have old := new.mp tabled
    rw [if_pos (by omega), if_pos (by omega)]
    omega
  · rw [if_neg tabled, if_pos (by omega)]
    rcases new.mp tabled with rfl | above
    · rw [if_neg (Nat.lt_irrefl _)]
      omega
    · split
      · omega
      · omega

theorem tableRank_new (start : first ≤ last) (new : ¬ Tabled first last (last / 1024)) :
    tableRank first (last / 1024) = pageRank first last + 1 := by
  have place : max first (1024 * (last / 1024)) = last := by
    have or := (not_tabled_iff start).mp new
    omega
  rw [tableRank, place]

theorem tabled_succ (start : first ≤ last) {index : Nat} :
    Tabled first (last + 1) index ↔ Tabled first last index ∨ index = last / 1024 := by
  unfold Tabled
  omega

theorem pageRank_lt (start : first ≤ last) (less : last < other) : pageRank first last < pageRank first other := by
  unfold pageRank blocksFor
  split
  · rw [if_pos (by omega)]
    omega
  · rw [if_pos (by omega)]
    omega

/-- No two tables are the same block. -/
theorem tableRank_unique {index : Nat} (start : first / 1024 ≤ index) (startOther : first / 1024 ≤ other)
    (same : tableRank first index = tableRank first other) : index = other := by
  unfold tableRank at same
  rcases Nat.lt_trichotomy index other with less | equal | more
  · have rank := @pageRank_lt first (max first (1024 * index)) (max first (1024 * other)) (by omega) (by omega)
    omega
  · exact equal
  · have rank := @pageRank_lt first (max first (1024 * other)) (max first (1024 * index)) (by omega) (by omega)
    omega

end Ranks

section Words

/-- The entry that a directory takes over from the one of the kernel. -/
def kernelWord (b : Paging) (index : Word) : Word := if b.kernelDirectory = 0 then 0 else b.entry b.kernelDirectory index

/-- Word `index` of the new directory. -/
def directoryWord (b : Paging) (first last : Nat) (index : Word) : Word :=
  if 768 ≤ index.toNat then b.kernelWord index
  else if Tabled first last index.toNat then b.vacant (tableRank first index.toNat) ||| (pagePresent ||| pageWrite ||| pageUser)
  else 0

/-- Word `index` of its table with this number. -/
def tableWord (b : Paging) (first last : Nat) (flags : Word) (table : Nat) (index : Word) : Word :=
  if first ≤ 1024 * table + index.toNat ∧ 1024 * table + index.toNat < last
  then b.vacant (pageRank first (1024 * table + index.toNat)) ||| flags else 0

/-- The directory and its tables hold these words, and nothing else has been stored
but bits of the bitmap. -/
structure Left (b : Paging) (first last : Nat) (flags pageDir : Word) (p : Paging) : Prop where
  rank : Nth b 0 pageDir
  directory : ∀ index, index.toNat < 1024 → p.entry pageDir index = b.directoryWord first last index
  tables : ∀ number, Tabled first last number → ∃ table, Nth b (tableRank first number) table ∧
    ∀ index, index.toNat < 1024 → p.entry table index = b.tableWord first last flags number index
  bytes : Alters (fun page => page = pageDir ∨ ∃ number, Tabled first last number ∧ Nth b (tableRank first number) page) b p

/-- The pages from `first` up to `last` have been given, and no others. -/
structure Stocked (b : Paging) (first last : Nat) (flags pageDir : Word) (p : Paging) : Prop
    extends Left b first last flags pageDir p where
  served : Served b p (pageRank first last)
  supply : p.supply + pageRank first last = b.supply

/-- Looking something up stores nothing. -/
theorem Stocked.look (stocked : Stocked b first last flags pageDir p) (unseen : Unseen p q) (mem : q.mem = p.mem) :
    Stocked b first last flags pageDir q := by
  have entry (page index : Word) : q.entry page index = p.entry page index := by rw [Paging.entry, Paging.entry, mem]
  refine ⟨⟨stocked.rank, fun index small => (entry pageDir index).trans (stocked.directory index small), fun number tabled => ?_, ?_⟩,
    stocked.served.keep unseen, ?_⟩
  · obtain ⟨table, nth, words⟩ := stocked.tables number tabled
    exact ⟨table, nth, fun index small => (entry table index).trans (words index small)⟩
  · intro place outside other
    rw [mem]
    exact stocked.bytes place outside other
  · rw [unseen.supply]
    exact stocked.supply

theorem Left.keep (left : Left b first last flags pageDir p) (ready : b.Ready) (steady : Steady b p)
    (alters : Alters (fun _ => False) p q) : Left b first last flags pageDir q := by
  have entry {block index : Word} {count : Nat} (nth : Nth b count block) (small : index.toNat < 1024) :
      q.entry block index = p.entry block index :=
    alters.entry nth.page (steady.clear.mpr (nth.clear ready)) id small
  refine ⟨left.rank, fun index small => (entry left.rank small).trans (left.directory index small), fun number tabled => ?_, ?_⟩
  · obtain ⟨table, nth, words⟩ := left.tables number tabled
    exact ⟨table, nth, fun index small => (entry nth small).trans (words index small)⟩
  · exact Alters.trans steady.toSameStatics left.bytes (alters.weaken fun _ => False.elim)

section Created

/-- The kernel's entries are copied. -/
theorem copyEntries_words {source target : Word} (aligned : Page source) (targetAligned : Page target) (different : target ≠ source)
    {indices : List Nat} (small : ∀ i ∈ indices, i < 1024) (p : Paging) {index : Nat} (bound : index < 1024) :
    (indices.foldl (copyEntry source target) p).entry target (BitVec.ofNat 32 index) =
      if index ∈ indices then p.entry source (BitVec.ofNat 32 index) else p.entry target (BitVec.ofNat 32 index) := by
  induction indices generalizing p with
  | nil => rfl
  | cons first rest ih =>
    have firstSmall := small first List.mem_cons_self
    have value (i : Nat) (less : i < 1024) : (BitVec.ofNat 32 i).toNat = i := toNat_ofNat_index less
    have stored (page : Word) (page_ : Page page) (i : Nat) (less : i < 1024) :
        (copyEntry source target p first).entry page (BitVec.ofNat 32 i) =
          if target = page ∧ first = i then p.entry source (BitVec.ofNat 32 first) else p.entry page (BitVec.ofNat 32 i) := by
      have same : BitVec.ofNat 32 first = BitVec.ofNat 32 i ↔ first = i := by
        rw [← BitVec.toNat_inj, value first firstSmall, value i less]
      rw [copyEntry, entry_write targetAligned page_ (by rwa [value first firstSmall]) (by rwa [value i less]), if_congr
        (and_congr_right fun _ => same) rfl rfl]
      rfl
    have sources : (copyEntry source target p first).entry source (BitVec.ofNat 32 index) = p.entry source (BitVec.ofNat 32 index) :=
      (stored source aligned index bound).trans (if_neg fun both => different both.1)
    rw [List.foldl_cons, ih (fun i member => small i (List.mem_cons_of_mem _ member)), sources,
      stored target targetAligned index bound]
    by_cases here : first = index
    · subst here
      simp
    · have other : ¬ index = first := fun same => here same.symm
      simp [here, other]

theorem Ready.created_words (ready : b.Ready) (kernel : b.kernelDirectory ≠ 0 → b.Taken b.kernelDirectory)
    (returned : b.createAddressSpace.1 ≠ 0) (first : Nat) {index : Word} (small : index.toNat < 1024) :
    b.createAddressSpace.2.entry b.createAddressSpace.1 index = b.directoryWord first first index := by
  have opened := ready.opened returned
  by_cases user : 768 ≤ index.toNat
  · rw [directoryWord, if_pos user, kernelWord]
    by_cases nothing : b.allocBlock.1 = 0
    · simp only [Paging.createAddressSpace, nothing, ↓reduceIte, ne_eq, not_true] at returned
    · have allocated := allocBlock_returned nothing
      have aligned := allocated.member.page
      simp only [Paging.createAddressSpace, nothing, ↓reduceIte, physToVirt_eq]
      generalize b.allocBlock.1 = pageDir at *
      generalize b.allocBlock.2 = m at *
      by_cases absent : b.kernelDirectory = 0
      · simp only [absent, ↓reduceIte]
        rw [entry_clearPage aligned aligned small, if_pos rfl]
      · have held := kernel absent
        have different : pageDir ≠ b.kernelDirectory := (allocated.ne_of_inUse held.inUse).symm
        have upper (i : Nat) (member : i ∈ List.range' 768 256) : i < 1024 := by
          rw [List.mem_range'_1] at member
          omega
        have name : index = BitVec.ofNat 32 index.toNat := by rw [BitVec.ofNat_toNat, BitVec.setWidth_eq]
        have copied := copyEntries_words held.page aligned different upper (m.clearPage pageDir) small
        rw [← name, if_pos (List.mem_range'_1.mpr ⟨user, small⟩), entry_clearPage aligned held.page small, if_neg different,
          allocated.entry _ _ held.clear small] at copied
        simp only [absent, ↓reduceIte]
        exact copied
  · have empty : ¬ Tabled first first index.toNat := by
      unfold Tabled
      omega
    rw [directoryWord, if_neg user, if_neg empty]
    exact opened.empty index (by omega)

/-- A new address space before it has any pages. -/
theorem Ready.stocked (ready : b.Ready) (kernel : b.kernelDirectory ≠ 0 → b.Taken b.kernelDirectory)
    (returned : b.createAddressSpace.1 ≠ 0) (first : Nat) (flags : Word) :
    Stocked b first first flags b.createAddressSpace.1 b.createAddressSpace.2 := by
  have opened := ready.opened returned
  obtain ⟨m, _, allocated, unseen⟩ := opened.granted
  obtain ⟨nth, served⟩ := (Served.refl b).allocated allocated
  have rank : pageRank first first = 1 := by rw [pageRank, blocksFor_self]
  refine ⟨⟨nth, fun index => ready.created_words kernel returned first, ?_, ?_⟩, ?_, ?_⟩
  · rintro number ⟨_, less⟩
    omega
  · exact (alters_createAddressSpace returned).weaken fun page => .inl
  · rw [rank]
    exact served.keep unseen
  · rw [rank]
    exact opened.supply returned

end Created

section Next

variable (ready : b.Ready) (stocked : Stocked b first last flags pageDir p) (start : first ≤ last) (user : last < 768 * 1024)
  (place : virtAddr.toNat = 4096 * last)

theorem directoryIndex_place {virtAddr : Word} (place : virtAddr.toNat = 4096 * last) :
    (pageDirectoryIndex virtAddr).toNat = last / 1024 := by
  rw [toNat_pageDirectoryIndex]
  omega

theorem tableIndex_place {virtAddr : Word} (place : virtAddr.toNat = 4096 * last) :
    (pageTableIndex virtAddr).toNat = last % 1024 := by
  rw [toNat_pageTableIndex]
  omega

include stocked user place

theorem Stocked.entry_place : p.entry pageDir (pageDirectoryIndex virtAddr) =
    if Tabled first last (last / 1024) then b.vacant (tableRank first (last / 1024)) ||| (pagePresent ||| pageWrite ||| pageUser)
    else 0 := by
  have index := directoryIndex_place place
  rw [stocked.directory _ (pageDirectoryIndex_lt virtAddr), directoryWord, index, if_neg (by omega)]

/-- The entry for the next page is set exactly when it has a table. -/
theorem Stocked.missing_iff : p.entry pageDir (pageDirectoryIndex virtAddr) &&& pagePresent = 0 ↔ ¬ Tabled first last (last / 1024) := by
  rw [stocked.entry_place user place]
  by_cases tabled : Tabled first last (last / 1024)
  · rw [if_pos tabled]
    exact iff_of_false (present_or (by decide)) (not_not_intro tabled)
  · rw [if_neg tabled]
    exact iff_of_true (by decide) tabled

/-- The next page is not mapped. -/
theorem Stocked.unmapped : p.translation pageDir virtAddr = none := by
  by_cases tabled : Tabled first last (last / 1024)
  · obtain ⟨table, nth, words⟩ := stocked.tables _ tabled
    have has : p.HasTable pageDir (pageDirectoryIndex virtAddr) table := by
      refine ⟨pageDirectoryIndex_lt virtAddr, fun absent => (stocked.missing_iff user place).mp absent tabled, ?_⟩
      rw [stocked.entry_place user place, if_pos tabled, ← nth.eq_vacant]
      exact pageOf_or nth.page (by decide)
    have empty : p.entry table (pageTableIndex virtAddr) = 0 := by
      have index := tableIndex_place place
      rw [words _ (pageTableIndex_lt virtAddr), tableWord, if_neg (by omega)]
    rw [translation_found has, empty]
    split
    · rfl
    · exact if_pos (by decide)
  · exact translation_absent ((stocked.missing_iff user place).mpr tabled)

include start

/-- The table that gets the next page. -/
theorem Stocked.stands {table : Word} (stands : p.HasTable pageDir (pageDirectoryIndex virtAddr) table ∨
    p.entry pageDir (pageDirectoryIndex virtAddr) &&& pagePresent = 0 ∧ Nth b (pageRank first last + 1) table) :
    Nth b (tableRank first (last / 1024)) table := by
  rcases stands with has | ⟨missing, nth⟩
  · have tabled : Tabled first last (last / 1024) := by
      by_contra new
      exact has.present ((stocked.missing_iff user place).mpr new)
    obtain ⟨other, nth, _⟩ := stocked.tables _ tabled
    have points := has.points
    rw [stocked.entry_place user place, if_pos tabled, ← nth.eq_vacant, pageOf_or nth.page (by decide)] at points
    exact points ▸ nth
  · rw [tableRank_new start ((stocked.missing_iff user place).mp missing)]
    exact nth

include ready

/-- The directory with the next page. -/
theorem Stocked.directory_next {table value : Word} {count : Nat} (own : Nth b (tableRank first (last / 1024)) table)
    (steady : Steady b p) (allotted : Allotted b p pageDir virtAddr value count table q) {index : Word} (small : index.toNat < 1024) :
    q.entry pageDir index = b.directoryWord first (last + 1) index := by
  have place_index := directoryIndex_place place
  have missing := stocked.missing_iff user place
  have clear : p.Clear pageDir := steady.clear.mpr (stocked.rank.clear ready)
  have different : table ≠ pageDir := by
    rintro rfl
    exact Nat.succ_ne_zero _ (own.unique stocked.rank)
  rw [allotted.words pageDir index stocked.rank.page clear small, if_neg fun both => different both.1,
    if_neg fun both : _ ∧ table = pageDir => different both.2, stocked.directory index small, directoryWord, directoryWord]
  by_cases here : pageDirectoryIndex virtAddr = index
  · subst here
    have low : ¬ 768 ≤ last / 1024 := by omega
    have after : Tabled first (last + 1) (last / 1024) := (tabled_succ start).mpr (.inr rfl)
    rw [place_index, if_neg low, if_neg low, if_pos after]
    by_cases absent : p.entry pageDir (pageDirectoryIndex virtAddr) &&& pagePresent = 0
    · have below : virtAddr < kernelVirtualBase := by
        rw [BitVec.lt_def, place]
        exact (show 4096 * last < 0xC0000000 by omega)
      rw [if_pos ⟨absent, rfl, rfl⟩, tableFlags, if_pos below, own.eq_vacant]
    · have tabled := not_not.mp (missing.not.mp absent)
      rw [if_neg fun all => absent all.1, if_pos tabled]
  · have other : index.toNat ≠ last / 1024 := by
      intro same
      exact here (BitVec.eq_of_toNat_eq (place_index.trans same.symm))
    rw [if_neg fun all => here all.2.2, if_congr ((tabled_succ start).trans (or_iff_left other)) rfl rfl]

/-- Its tables with the next page. -/
theorem Stocked.tables_next {page table : Word} {count : Nat} (own : Nth b (tableRank first (last / 1024)) table)
    (nth : Nth b (pageRank first last) page) (steady : Steady b p)
    (allotted : Allotted b p pageDir virtAddr (page ||| flags) count table q) {number : Nat} (tabled : Tabled first (last + 1) number) :
    ∃ table, Nth b (tableRank first number) table ∧
      ∀ index, index.toNat < 1024 → q.entry table index = b.tableWord first (last + 1) flags number index := by
  have place_index := tableIndex_place place
  have missing := stocked.missing_iff user place
  have ne_directory {block : Word} {rank : Nat} (there : Nth b (rank + 1) block) : pageDir ≠ block := by
    rintro rfl
    exact Nat.succ_ne_zero _ (there.unique stocked.rank)
  by_cases here : number = last / 1024
  · subst here
    refine ⟨table, own, fun index small => ?_⟩
    have clear : p.Clear table := steady.clear.mpr (own.clear ready)
    rw [allotted.words table index own.page clear small, if_neg fun all : _ ∧ pageDir = table ∧ _ => ne_directory own all.2.1, tableWord]
    by_cases entry : pageTableIndex virtAddr = index
    · subst entry
      have number : 1024 * (last / 1024) + (pageTableIndex virtAddr).toNat = last := by omega
      rw [if_pos ⟨rfl, rfl⟩, number, if_pos ⟨start, Nat.lt_succ_self last⟩, nth.eq_vacant]
    · have other : index.toNat ≠ last % 1024 := fun same => entry (BitVec.eq_of_toNat_eq (place_index.trans same.symm))
      rw [if_neg fun both => entry both.2]
      by_cases absent : p.entry pageDir (pageDirectoryIndex virtAddr) &&& pagePresent = 0
      · have new := (not_tabled_iff start).mp (missing.mp absent)
        rw [if_pos ⟨absent, rfl⟩, if_neg (by omega)]
      · have old := not_not.mp (missing.not.mp absent)
        obtain ⟨same, before, words⟩ := stocked.tables _ old
        obtain rfl : table = same := own.eq_vacant.trans before.eq_vacant.symm
        rw [if_neg fun both => absent both.1, words index small, tableWord]
        exact if_congr (by omega) rfl rfl
  · have old := ((tabled_succ start).mp tabled).resolve_right here
    obtain ⟨other, before, words⟩ := stocked.tables _ old
    have different : table ≠ other := by
      rintro rfl
      exact here (tableRank_unique old.1 (by omega) (before.unique own))
    refine ⟨other, before, fun index small => ?_⟩
    have clear : p.Clear other := steady.clear.mpr (before.clear ready)
    have numbers : 1024 * number + index.toNat ≠ last := by omega
    rw [allotted.words other index before.page clear small, if_neg fun both => different both.1,
      if_neg fun all : _ ∧ pageDir = other ∧ _ => ne_directory before all.2.1, if_neg fun both : _ ∧ table = other => different both.2,
      words index small, tableWord, tableWord]
    exact if_congr (by omega) rfl rfl

/-- Giving the next page. -/
theorem Stocked.allotted {page table : Word} (nth : Nth b (pageRank first last) page) (steady : Steady b p)
    (supply : q.supply + 1 + (if p.entry pageDir (pageDirectoryIndex virtAddr) &&& pagePresent = 0 then 1 else 0) = p.supply)
    (allotted : Allotted b p pageDir virtAddr (page ||| flags) (pageRank first last + 1) table q) :
    Stocked b first (last + 1) flags pageDir q := by
  have own := stocked.stands start user place allotted.stands
  have taken : pageRank first (last + 1) =
      pageRank first last + 1 + if p.entry pageDir (pageDirectoryIndex virtAddr) &&& pagePresent = 0 then 1 else 0 := by
    rw [pageRank_succ start, if_congr (stocked.missing_iff user place) rfl rfl, ite_not]
  refine ⟨⟨stocked.rank, fun index => stocked.directory_next ready start user place own steady allotted,
    fun number => stocked.tables_next ready start user place own nth steady allotted, ?_⟩, ?_, ?_⟩
  · refine Alters.trans steady.toSameStatics (stocked.bytes.weaken ?_) (allotted.bytes.weaken ?_)
    · rintro page (same | ⟨number, tabled, there⟩)
      · exact .inl same
      · exact .inr ⟨number, (tabled_succ start).mpr (.inl tabled), there⟩
    · rintro page (same | rfl)
      · exact .inl same
      · exact .inr ⟨_, (tabled_succ start).mpr (.inr rfl), own⟩
  · rw [taken]
    exact allotted.served
  · have before := stocked.supply
    omega

end Next

section Calls

variable (growing : Growing b pageDir p) (stocked : Stocked b first last (flags ||| pagePresent) pageDir p) (start : first ≤ last)
  (user : last < 768 * 1024) (place : virtAddr.toNat = 4096 * last)

include growing stocked start user place

theorem Stocked.allocPage (done : (p.allocPage pageDir virtAddr flags).1 = 0) :
    Stocked b first (last + 1) (flags ||| pagePresent) pageDir (p.allocPage pageDir virtAddr flags).2 := by
  have owns := growing.owns
  have below : virtAddr < kernelVirtualBase := by
    rw [BitVec.lt_def, place]
    exact (show 4096 * last < 0xC0000000 by omega)
  obtain ⟨page, table, nth, allotted⟩ := owns.allocPage_allotted stocked.served below done
  exact stocked.allotted owns.ready start user place nth owns.holds.steady (owns.allocPage_given below done).supply allotted

/-- The page fails only for want of blocks. -/
theorem Stocked.allocPage_refused (failed : (p.allocPage pageDir virtAddr flags).1 ≠ 0) :
    b.supply < pageRank first (last + 1) ∧
      Left b first last (flags ||| pagePresent) pageDir (p.allocPage pageDir virtAddr flags).2 := by
  have owns := growing.owns
  have below : virtAddr < kernelVirtualBase := by
    rw [BitVec.lt_def, place]
    exact (show 4096 * last < 0xC0000000 by omega)
  refine ⟨?_, stocked.keep owns.ready owns.holds.steady (owns.alters_refused below failed)⟩
  have supply := stocked.supply
  rw [pageRank_succ start]
  rcases owns.allocPage_failed below failed with ⟨_, empty⟩ | ⟨_, one, missing⟩
  · omega
  · rw [if_neg ((stocked.missing_iff user place).mp missing)]
    omega

end Calls

end Words

section Given

/-- The page behind the last one for which there are enough blocks. -/
def lastGiven (b : Paging) (first last : Nat) : Nat :=
  Nat.findGreatest (fun page => pageRank first page ≤ b.supply) (max first last)

theorem lastGiven_eq {page : Nat} (start : first ≤ page) (within : page ≤ max first last) (enough : pageRank first page ≤ b.supply)
    (stop : page = max first last ∨ b.supply < pageRank first (page + 1)) : b.lastGiven first last = page := by
  refine Nat.findGreatest_eq_iff.mpr ⟨within, fun _ => enough, fun further more inside => ?_⟩
  rcases stop with rfl | short
  · omega
  · rcases Nat.eq_or_lt_of_le (show page + 1 ≤ further from more) with rfl | beyond
    · omega
    · have rank := @pageRank_lt first (page + 1) further (by omega) beyond
      omega

end Given

section Seen

/-- The processor reaches the page. -/
def Visible (p : Paging) (page : Word) : Prop := ∃ address frame, p.walk address = some frame ∧ pageOf frame = page

/-- What the processor reaches of the blocks holds already what is left in them. -/
structure Unmoved (b : Paging) (first last : Nat) (flags : Word) : Prop where
  directory : b.Visible (b.vacant 0) → ∀ index : Word, index.toNat < 1024 → b.entry (b.vacant 0) index = b.directoryWord first last index
  tables : ∀ number, Tabled first last number → b.Visible (b.vacant (tableRank first number)) →
    ∀ index : Word, index.toNat < 1024 → b.entry (b.vacant (tableRank first number)) index = b.tableWord first last flags number index

theorem Visible.walk {page place : Word} (visible : p.Visible page) (inside : pageOf place = page) :
    ∃ address, p.walk address = some place := by
  obtain ⟨address, frame, walked, same⟩ := visible
  by_cases paging : p.paging
  · have offset := offset_lt place
    have aligned := page_pageOf address
    have points : pageOf (pageOf address ||| (place &&& 0xFFF)) = pageOf address := pageOf_or aligned offset
    obtain ⟨directory, table⟩ := pageOf_eq_iff.mp points
    refine ⟨pageOf address ||| (place &&& 0xFFF), ?_⟩
    simp only [Paging.walk, paging, ↓reduceIte] at walked ⊢
    rw [directory, table, low_or aligned]
    split at walked
    · cases walked
    · next present =>
      rw [if_neg present]
      split at walked
      · cases walked
      · next found =>
        have frames := Option.some.inj walked
        rw [if_neg found]
        generalize pageWord p.mem _ (pageTableIndex address) = entry at *
        have page : pageOf entry = pageOf place := by
          rw [inside, ← same, ← frames, pageOf_or (page_pageOf entry) (offset_lt address)]
        rw [page, pageOf_or_offset]
  · exact ⟨place, if_neg paging⟩

theorem Visible.entry {page index : Word} (visible : p.Visible page) (aligned : Page page) (small : index.toNat < 1024)
    (same : ∀ address frame, p.walk address = some frame → q.mem frame = p.mem frame) : q.entry page index = p.entry page index := by
  apply loadWord_congr
  intro lane laneSmall
  unfold Page at aligned
  have inside : pageOf (page + 4 * index + lane) = page := by
    apply BitVec.eq_of_toNat_eq
    rw [toNat_pageOf]
    bv_omega
  obtain ⟨address, walked⟩ := visible.walk inside
  exact same address _ walked

/-- Once the bitmap is restored, the processor sees a change exactly where it
reaches a block that held something else before. -/
theorem Left.seen_iff (left : Left b first last flags pageDir q) (bitmap : SameBitmap b q) :
    (∀ address frame, b.walk address = some frame → q.mem frame = b.mem frame) ↔ Unmoved b first last flags := by
  constructor
  · intro same
    refine ⟨fun visible index small => ?_, fun number tabled visible index small => ?_⟩
    · rw [← left.rank.eq_vacant] at visible ⊢
      rw [← visible.entry left.rank.page small same]
      exact left.directory index small
    · obtain ⟨table, nth, words⟩ := left.tables number tabled
      rw [← nth.eq_vacant] at visible ⊢
      rw [← visible.entry nth.page small same]
      exact words index small
  · intro unmoved address frame walked
    have visible : b.Visible (pageOf frame) := ⟨address, frame, walked, rfl⟩
    by_cases inside : b.InBitmap frame
    · obtain ⟨byte, below, rfl⟩ := inside
      exact bitmap byte below
    by_cases directory : pageOf frame = pageDir
    · refine mem_of_entries fun index small => ?_
      have held := unmoved.directory (by rwa [← left.rank.eq_vacant, ← directory]) index small
      rw [← left.rank.eq_vacant] at held
      rw [directory, held]
      exact left.directory index small
    by_cases table : ∃ number, Tabled first last number ∧ Nth b (tableRank first number) (pageOf frame)
    · obtain ⟨number, tabled, nth⟩ := table
      obtain ⟨page, there, words⟩ := left.tables number tabled
      have same := nth.eq_vacant
      refine mem_of_entries fun index small => ?_
      have held := unmoved.tables number tabled (by rwa [← same]) index small
      rw [same, held, ← there.eq_vacant]
      exact words index small
    · refine left.bytes frame inside ?_
      rintro (same | there)
      · exact directory same
      · exact table there

end Seen

end MexOS.Mm.Paging
