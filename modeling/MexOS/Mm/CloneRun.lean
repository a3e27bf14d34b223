import MexOS.Mm.Lifecycle
import MexOS.Mm.WindowSpaces

/-! The loops of `vmm_clone_address_space` on an address space whose blocks are
in use: what they copy, what they take, and what they hold where they stop. -/

namespace MexOS.Mm.Paging

open MexOS.Machine

/-- How often `pmm_alloc_block` will still return a block. -/
def supply (p : Paging) : Nat := min (p.maxBlocks - p.usedBlocks).toNat (p.spare p.searched)

/-- A block that is in use and lies clear of the bitmap. -/
structure Taken (p : Paging) (block : Word) : Prop extends Block p block where
  inUse : p.inUse (block.toNat / 4096) = true
  clear : p.Clear block

/-- The blocks in use stay so and keep their words, but for some pages. -/
structure Preserves (except : Word → Prop) (p q : Paging) : Prop where
  steady : Steady p q
  bits : ∀ frame < p.searched, p.inUse frame = true → q.inUse frame = true
  entry : ∀ page index, p.Taken page → ¬ except page → index.toNat < 1024 → q.entry page index = p.entry page index

variable {b p q r : Paging} {page index block table target source src dst value : Word} {except : Word → Prop}
  {held : List Word}

section Supply

theorem Unseen.supply (unseen : Unseen p q) : q.supply = p.supply := by
  unfold Paging.supply
  rw [unseen.steady.maxBlocks, unseen.used, unseen.steady.searched, spare_congr unseen.inUse]

theorem allocBlock_returned (returned : p.allocBlock.1 ≠ 0) : Allocated p p.allocBlock.1 p.allocBlock.2 := by
  rcases allocBlock_cases p with nothing | allocated
  · rw [nothing] at returned
    exact absurd rfl returned
  · exact allocated

theorem allocBlock_failed (null : p.inUse 0 = true) (failed : p.allocBlock.1 = 0) : p.allocBlock = (0, p) := by
  rcases allocBlock_cases p with nothing | allocated
  · exact nothing
  · exact absurd failed (allocated.ne_zero null)

/-- A page that is given is the block that `pmm_alloc_block` returns, mapped. -/
theorem allocPage_done {pageDir virtAddr flags : Word} (done : (p.allocPage pageDir virtAddr flags).1 = 0) :
    p.allocBlock.1 ≠ 0 ∧
    (p.allocBlock.2.mapPage pageDir virtAddr p.allocBlock.1 (flags ||| pagePresent)).1 = 0 ∧
    (p.allocPage pageDir virtAddr flags).2 =
      (p.allocBlock.2.mapPage pageDir virtAddr p.allocBlock.1 (flags ||| pagePresent)).2 := by
  have minus : (-1 : Int) ≠ 0 := by decide
  by_cases returned : p.allocBlock.1 = 0
  · rw [Paging.allocPage, if_pos returned] at done
    exact absurd done minus
  simp only [Paging.allocPage, returned, ↓reduceIte] at done ⊢
  by_cases mapped : (p.allocBlock.2.mapPage pageDir virtAddr p.allocBlock.1 (flags ||| pagePresent)).1 = 0
  · rw [if_neg (not_not_intro mapped)]
    exact ⟨returned, mapped, rfl⟩
  · rw [if_pos mapped] at done
    exact absurd done minus

/-- A block that is returned is one less. -/
theorem Allocated.supply (allocated : Allocated p p.allocBlock.1 p.allocBlock.2) (returned : p.allocBlock.1 ≠ 0) :
    p.allocBlock.2.supply + 1 = p.supply := by
  have counted : p.maxBlocks - p.usedBlocks ≠ 0 := by
    intro full
    have count : p.pmm.getFreeBlockCount = 0 := full
    rw [allocBlock, if_pos count] at returned
    exact returned rfl
  have one := spare_take allocated.free allocated.member.bound allocated.inUse
  unfold Paging.supply
  rw [allocated.steady.maxBlocks, allocated.used, allocated.steady.searched]
  have less : (p.maxBlocks - (p.usedBlocks + 1)).toNat + 1 = (p.maxBlocks - p.usedBlocks).toNat := by
    have positive : (p.maxBlocks - p.usedBlocks).toNat ≠ 0 := fun zero => counted (BitVec.eq_of_toNat_eq zero)
    bv_omega
  omega

/-- No block is returned when there is none left. -/
theorem supply_of_failed (null : p.inUse 0 = true) (failed : p.allocBlock.1 = 0) : p.supply = 0 := by
  by_cases counted : p.maxBlocks - p.usedBlocks = 0
  · rw [Paging.supply, counted]
    exact Nat.zero_min _
  · have nothing : ∀ frame < p.searched, p.inUse frame = true := by
      cases found : p.pmm.bitmapFirstFree with
      | none => exact Pmm.bitmapFirstFree_eq_none.mp found
      | some frame =>
        rcases allocBlock_cases p with same | allocated
        · have shape := congrArg (fun result => result.2.trace) same
          simp only [allocBlock, if_neg (show ¬ p.pmm.getFreeBlockCount = 0 from counted), found] at shape
          exact absurd shape (List.cons_ne_self _ _)
        · exact absurd failed (allocated.ne_zero null)
    have empty : p.spare p.searched = 0 := by
      by_contra left
      obtain ⟨frame, small, free⟩ := exists_free (Nat.pos_of_ne_zero left)
      rw [nothing frame small] at free
      cases free
    rw [Paging.supply, empty]
    exact Nat.min_zero _

end Supply

section Preserving

theorem Preserves.refl (p : Paging) : Preserves except p p := ⟨.refl p, fun _ _ used => used, fun _ _ _ _ _ => rfl⟩

theorem Preserves.taken (preserves : Preserves except p q) (taken : p.Taken page) : q.Taken page where
  toBlock := preserves.steady.block_iff.mpr taken.toBlock
  inUse := preserves.bits _ taken.bound taken.inUse
  clear := preserves.steady.clear.mpr taken.clear

theorem Preserves.trans (first : Preserves except p q) (second : Preserves except q r) : Preserves except p r where
  steady := first.steady.trans second.steady
  bits := fun frame bound used => second.bits frame (by rwa [first.steady.searched]) (first.bits frame bound used)
  entry := fun page index taken other small =>
    (second.entry page index (first.taken taken) other small).trans (first.entry page index taken other small)

theorem Preserves.weaken {more : Word → Prop} (preserves : Preserves except p q) (fewer : ∀ page, except page → more page) :
    Preserves more p q :=
  ⟨preserves.steady, preserves.bits, fun page index taken other small =>
    preserves.entry page index taken (fun here => other (fewer page here)) small⟩

/-- A page with the same words has the same bytes. -/
theorem mem_of_entries {place : Word}
    (same : ∀ index : Word, index.toNat < 1024 → q.entry (pageOf place) index = p.entry (pageOf place) index) :
    q.mem place = p.mem place := by
  have offset : place = pageOf place + BitVec.ofNat 32 (place.toNat % 4096) := by
    apply BitVec.eq_of_toNat_eq
    have limit := place.isLt
    rw [BitVec.toNat_add, toNat_pageOf, BitVec.toNat_ofNat]
    omega
  rw [offset]
  exact bytes_of_pageWords same (Nat.mod_lt _ (by decide))

/-- What is in use keeps its bytes as well. -/
theorem Preserves.byte (preserves : Preserves except p q) {place : Word} (taken : p.Taken (pageOf place))
    (other : ¬ except (pageOf place)) : q.mem place = p.mem place :=
  mem_of_entries fun index small => preserves.entry (pageOf place) index taken other small

/-- Pages that were not in use before may be written to. -/
theorem Preserves.unused {others : Word → Prop} (first : Preserves except p q) (second : Preserves others q r)
    (fresh : ∀ page, p.Taken page → ¬ others page) : Preserves except p r where
  steady := first.steady.trans second.steady
  bits := fun frame bound used => second.bits frame (by rwa [first.steady.searched]) (first.bits frame bound used)
  entry := fun page index taken other small =>
    (second.entry page index (first.taken taken) (fresh page taken) small).trans (first.entry page index taken other small)

theorem preserves_touch (p : Paging) (address : Word) : Preserves except p (p.touch address) :=
  ⟨p.steady_touch address, fun _ _ used => used, fun _ _ _ _ _ => rfl⟩

theorem Taken.touch (taken : p.Taken block) (address : Word) : (p.touch address).Taken block :=
  ⟨⟨taken.page, taken.bound⟩, taken.inUse, taken.clear⟩

theorem Allocated.preserves (allocated : Allocated p block q) : Preserves except p q where
  steady := allocated.steady
  bits := fun frame bound used => by rw [allocated.inUse frame bound, used, Bool.or_true]
  entry := fun page index taken _ small => allocated.entry page index taken.clear small

/-- A block that is returned and given back is as it was. -/
theorem Allocated.undone (allocated : Allocated p block q) (address : Word) :
    Preserves except p ((q.touch address).freeBlock block) := by
  have steady : Steady p (q.touch address) := allocated.steady.trans (q.steady_touch address)
  have freed := freeBlock_freed (steady.block_iff.mpr allocated.member)
  refine ⟨steady.trans freed.steady, ?_, ?_⟩
  · intro frame bound used
    have different : block.toNat / 4096 ≠ frame := by
      rintro rfl
      have free := allocated.free
      rw [used] at free
      cases free
    have kept : q.inUse frame = true := by rw [allocated.inUse frame bound, used, Bool.or_true]
    rw [freed.inUse frame (by rwa [steady.searched]), decide_eq_false different]
    exact kept
  · intro page index taken _ small
    exact (freed.entry page index (steady.clear.mpr taken.clear) small).trans (allocated.entry page index taken.clear small)

theorem preserves_write (taken : p.Taken table) (small : index.toNat < 1024) (value : Word) :
    Preserves (· = table) p (p.write (table + 4 * index) value) where
  steady := steady_write taken.clear small value
  bits := fun frame bound used => by rw [inUse_write taken.clear small value bound, used]
  entry := fun page other held different otherSmall => by
    rw [entry_write taken.page held.page small otherSmall, if_neg fun same => different same.1.symm]

theorem unseen_copyPage (clear : p.Clear page) (source : Word) : Unseen p (p.copyPage page source) where
  steady := ⟨p.sameStatics_of_update _ _ _, fun byte _ below => if_neg (Nat.not_lt.mpr (clear byte below))⟩
  inUse := fun _ bound => inUse_copyPage (clear.outside (p.word_lt bound))
  used := rfl
  calls := rfl

theorem entry_copied (small : index.toNat < 1024) : (p.copyPage page source).entry page index = p.entry source index :=
  pageWord_memcpy small

end Preserving

section Entries

/-- Entry `index` of the table `target` is that of `source` with a page of the
same content. -/
def CopiedEntry (p q : Paging) (source target index : Word) : Prop :=
  if p.entry source index &&& pagePresent = 0 then q.entry target index = 0
  else q.entry target index &&& 0xFFF = p.entry source index &&& 0xFFF ∧ ∀ k : Word, k.toNat < 1024 →
    q.entry (pageOf (q.entry target index)) k = p.entry (pageOf (p.entry source index)) k

/-- The low bits tell whether an entry is present. -/
theorem present_congr {first second : Word} (same : first &&& 0xFFF = second &&& 0xFFF) :
    first &&& pagePresent = second &&& pagePresent := by
  have low (word : Word) : word &&& pagePresent = (word &&& 0xFFF) &&& pagePresent := by
    rw [BitVec.and_assoc]
    rfl
  rw [low, same, ← low]

theorem low_or (aligned : Page page) (word : Word) : (page ||| (word &&& 0xFFF)) &&& 0xFFF = word &&& 0xFFF := by
  have zero : page &&& 0xFFF = 0#32 := by
    apply BitVec.eq_of_toNat_eq
    rw [BitVec.toNat_and, show (0xFFF : Word).toNat = 2 ^ 12 - 1 from rfl, Nat.and_two_pow_sub_one_eq_mod]
    exact aligned
  rw [BitVec.and_comm, BitVec.and_or_distrib_left, BitVec.and_comm, zero, BitVec.and_comm, BitVec.and_assoc, BitVec.and_self]
  exact BitVec.zero_or

theorem Holds.taken (holds : Holds b p held) (ready : b.Ready) (member : block ∈ held) : p.Taken block := by
  obtain ⟨known, _⟩ := holds.fresh block member
  exact ⟨holds.steady.block_iff.mpr known, (holds.inUse _ known.bound).mpr (.inr ⟨block, member, rfl⟩),
    holds.clear ready member⟩

/-- A table whose present entries point to blocks in use, apart from `target`. -/
structure Sourced (p : Paging) (source target : Word) : Prop where
  table : p.Taken source
  apart : source ≠ target
  pages : ∀ j : Word, j.toNat < 1024 → p.entry source j &&& pagePresent ≠ 0 →
    p.Taken (pageOf (p.entry source j)) ∧ pageOf (p.entry source j) ≠ target

theorem Sourced.preserved (sourced : Sourced p source target) (preserves : Preserves (· = target) p q) : Sourced q source target := by
  refine ⟨preserves.taken sourced.table, sourced.apart, ?_⟩
  intro j small
  rw [preserves.entry source j sourced.table sourced.apart small]
  intro present
  obtain ⟨taken, apart⟩ := sourced.pages j small present
  exact ⟨preserves.taken taken, apart⟩

/-- What the loop over a table's entries has done between two states, where it
has taken the blocks `pages`. -/
structure Stretch (b p : Paging) (target : Word) (held : List Word) (turns : List Nat) (pages : List Word) (q : Paging) :
    Prop where
  holds : Holds b q (pages ++ held)
  preserves : Preserves (· = target) p q
  others : ∀ k : Word, k.toNat < 1024 → k.toNat ∉ turns → q.entry target k = p.entry target k
  supply : q.supply + pages.length = p.supply

theorem Stretch.trans {first second : List Nat} {pages more : List Word} (one : Stretch b p target held first pages q)
    (two : Stretch b q target (pages ++ held) second more r) : Stretch b p target held (first ++ second) (more ++ pages) r where
  holds := by
    rw [List.append_assoc]
    exact two.holds
  preserves := one.preserves.trans two.preserves
  others := fun k small outside => by
    rw [List.mem_append, not_or] at outside
    rw [two.others k small outside.2, one.others k small outside.1]
  supply := by
    have before := one.supply
    have after := two.supply
    rw [List.length_append]
    omega

theorem stretch_touch (holds : Holds b p held) (address : Word) : Stretch b p target held [] [] (p.touch address) :=
  ⟨holds.keep (p.unseen_touch _), preserves_touch p _, fun _ _ _ => rfl, (p.unseen_touch _).supply⟩

theorem stretch_write (ready : b.Ready) (holds : Holds b p held) (member : target ∈ held) {j : Nat} (small : j < 1024)
    (value : Word) : Stretch b p target held [j] [] (p.write (target + 4 * BitVec.ofNat 32 j) value) ∧
      (p.write (target + 4 * BitVec.ofNat 32 j) value).entry target (BitVec.ofNat 32 j) = value := by
  have taken := holds.taken ready member
  have index : (BitVec.ofNat 32 j).toNat = j := toNat_ofNat_index small
  have unseen := unseen_write taken.clear (by omega : (BitVec.ofNat 32 j).toNat < 1024) value
  refine ⟨⟨holds.keep unseen, preserves_write taken (by omega) value, ?_, unseen.supply⟩, ?_⟩
  · intro k kSmall other
    rw [entry_write taken.page taken.page (by omega) kSmall, if_neg]
    rintro ⟨_, rfl⟩
    exact other (by rw [index]; exact List.mem_singleton_self j)
  · rw [entry_write taken.page taken.page (by omega) (by omega), if_pos ⟨rfl, rfl⟩]

/-- A page is taken and filled from another one. -/
theorem stretch_page (ready : b.Ready) (holds : Holds b p held) (member : target ∈ held) (address : Word)
    (allocated : Allocated p p.allocBlock.1 p.allocBlock.2) (returned : p.allocBlock.1 ≠ 0)
    (source : p.Taken page) :
    Stretch b p target held [] [p.allocBlock.1] ((p.allocBlock.2.touch address).copyPage p.allocBlock.1 page) ∧
      ∀ k : Word, k.toNat < 1024 →
        ((p.allocBlock.2.touch address).copyPage p.allocBlock.1 page).entry p.allocBlock.1 k = p.entry page k := by
  have less := allocated.supply returned
  obtain ⟨block, m, call⟩ : ∃ block m, p.allocBlock = (block, m) := ⟨_, _, rfl⟩
  rw [call] at allocated returned less ⊢
  dsimp only at allocated returned less ⊢
  have held_ := (holds.allocated allocated).keep (m.unseen_touch address)
  have taken := held_.taken ready List.mem_cons_self
  have unseen := unseen_copyPage taken.clear page
  have unused (other : Word) (used : p.Taken other) : other ≠ block := allocated.ne_of_inUse used.inUse
  have looked : Preserves (fun _ => False) p (m.touch address) := allocated.preserves.trans (preserves_touch m address)
  have copied (other k : Word) (used : p.Taken other) (small : k.toNat < 1024) :
      ((m.touch address).copyPage block page).entry other k = p.entry other k := by
    rw [entry_copyPage allocated.member.page used.page (unused other used).symm small]
    exact looked.entry other k used id small
  have targetTaken := holds.taken ready member
  refine ⟨⟨held_.keep unseen, ⟨looked.steady.trans unseen.steady, ?_, ?_⟩, ?_, ?_⟩, ?_⟩
  · intro frame bound used
    rw [unseen.inUse frame (by rwa [looked.steady.searched])]
    exact looked.bits frame bound used
  · exact fun other k used _ small => copied other k used small
  · exact fun k small _ => copied target k targetTaken small
  · rw [unseen.supply, (m.unseen_touch address).supply, List.length_singleton]
    exact less
  · intro k small
    rw [entry_copied small]
    exact looked.entry page k source id small

/-- The turn of the loop at a present entry. -/
theorem stretch_fill {j : Nat} (ready : b.Ready) (holds : Holds b p held) (member : target ∈ held)
    (sourced : Sourced p source target) (small : j < 1024) (present : p.entry source (BitVec.ofNat 32 j) &&& pagePresent ≠ 0)
    (returned : (p.touch (source + 4 * BitVec.ofNat 32 j)).allocBlock.1 ≠ 0) :
    ∃ q, q = fillEntry source target (p.touch (source + 4 * BitVec.ofNat 32 j)).allocBlock.1
        (p.touch (source + 4 * BitVec.ofNat 32 j)).allocBlock.2 j ∧
      Stretch b p target held [j] (entryBlock (q.entry target (BitVec.ofNat 32 j))) q ∧
      CopiedEntry p q source target (BitVec.ofNat 32 j) := by
  have index : (BitVec.ofNat 32 j).toNat < 1024 := by rwa [toNat_ofNat_index small]
  have looked := @stretch_touch b p target held holds (source + 4 * BitVec.ofNat 32 j)
  obtain ⟨pageTaken, pageApart⟩ := sourced.pages _ index present
  have allocated := allocBlock_returned returned
  obtain ⟨page, content⟩ := stretch_page ready looked.holds member (source + 4 * BitVec.ofNat 32 j) allocated returned
    (looked.preserves.taken pageTaken)
  have word : (p.touch (source + 4 * BitVec.ofNat 32 j)).allocBlock.2.entry source (BitVec.ofNat 32 j) =
      p.entry source (BitVec.ofNat 32 j) := allocated.entry source _ sourced.table.clear index
  have aligned := allocated.member.page
  refine ⟨_, rfl, ?_⟩
  unfold fillEntry
  dsimp only
  rw [read_entry, read_entry, read_state, read_state, word]
  generalize (p.touch (source + 4 * BitVec.ofNat 32 j)).allocBlock.1 = block at page content aligned ⊢
  generalize ((p.touch (source + 4 * BitVec.ofNat 32 j)).allocBlock.2.touch (source + 4 * BitVec.ofNat 32 j)).copyPage
    block (pageOf (p.entry source (BitVec.ofNat 32 j))) = m at page content ⊢
  have same : m.entry source (BitVec.ofNat 32 j) = p.entry source (BitVec.ofNat 32 j) :=
    page.preserves.entry source _ (looked.preserves.taken sourced.table) sourced.apart index
  have again := @stretch_touch b m target ([block] ++ held) page.holds (source + 4 * BitVec.ofNat 32 j)
  obtain ⟨stored, value⟩ := stretch_write ready again.holds (List.mem_append_right _ (List.mem_append_right _ member)) small
    (block ||| (m.entry source (BitVec.ofNat 32 j) &&& 0xFFF))
  have points : pageOf (block ||| (m.entry source (BitVec.ofNat 32 j) &&& 0xFFF)) = block := pageOf_or aligned (offset_lt _)
  have low := low_or aligned (m.entry source (BitVec.ofNat 32 j))
  have flagged : (block ||| (m.entry source (BitVec.ofNat 32 j) &&& 0xFFF)) &&& pagePresent ≠ 0 := by
    rwa [present_congr low, same]
  have blockApart : block ≠ target := by
    rintro rfl
    exact (List.nodup_cons.mp page.holds.distinct).1 member
  refine ⟨?_, ?_⟩
  · have whole := (looked.trans page).trans (again.trans stored)
    rw [value, entryBlock_present flagged, points]
    exact whole
  · rw [CopiedEntry, if_neg present, value, points, low]
    refine ⟨by rw [same], ?_⟩
    intro k kSmall
    have kept := (again.trans stored).preserves.entry block k (page.holds.taken ready List.mem_cons_self) blockApart kSmall
    rw [kept]
    exact content k kSmall

theorem CopiedEntry.kept (copied : CopiedEntry p q source target index) (same : r.entry target index = q.entry target index)
    (page : q.entry target index &&& pagePresent ≠ 0 → ∀ k : Word, k.toNat < 1024 →
      r.entry (pageOf (q.entry target index)) k = q.entry (pageOf (q.entry target index)) k) :
    CopiedEntry p r source target index := by
  rw [CopiedEntry] at copied
  rw [CopiedEntry, same]
  by_cases missing : p.entry source index &&& pagePresent = 0
  · rw [if_pos missing] at copied ⊢
    exact copied
  · rw [if_neg missing] at copied ⊢
    refine ⟨copied.1, ?_⟩
    intro k small
    rw [page (by rwa [present_congr copied.1]) k small, copied.2 k small]

/-- Later turns leave a copied entry and its page alone. -/
theorem CopiedEntry.later {j : Nat} {turns : List Nat} {pages : List Word} (ready : b.Ready) (small : j < 1024)
    (copied : CopiedEntry p q source target (BitVec.ofNat 32 j)) (member : target ∈ held)
    (rest : Stretch b q target (entryBlock (q.entry target (BitVec.ofNat 32 j)) ++ held) turns pages r)
    (holds : Holds b q (entryBlock (q.entry target (BitVec.ofNat 32 j)) ++ held)) (absent : j ∉ turns) :
    CopiedEntry p r source target (BitVec.ofNat 32 j) := by
  have number : (BitVec.ofNat 32 j).toNat = j := toNat_ofNat_index small
  refine copied.kept (rest.others _ (by omega) (by rwa [number])) ?_
  intro present k kSmall
  rw [entryBlock_present present] at holds rest
  have apart : pageOf (q.entry target (BitVec.ofNat 32 j)) ≠ target := by
    intro here
    apply (List.nodup_cons.mp holds.distinct).1
    rw [here]
    exact member
  exact rest.preserves.entry _ k (holds.taken ready List.mem_cons_self) apart kSmall

/-- The source table is the one it was. -/
theorem CopiedEntry.earlier {j : Word} (sourced : Sourced p source target) (preserves : Preserves (· = target) p q) (small : j.toNat < 1024)
    (copied : CopiedEntry q r source target j) : CopiedEntry p r source target j := by
  have word := preserves.entry source j sourced.table sourced.apart small
  rw [CopiedEntry, word] at copied
  rw [CopiedEntry]
  by_cases missing : p.entry source j &&& pagePresent = 0
  · rw [if_pos missing] at copied ⊢
    exact copied
  · rw [if_neg missing] at copied ⊢
    obtain ⟨taken, apart⟩ := sourced.pages j small missing
    refine ⟨copied.1, ?_⟩
    intro k kSmall
    rw [copied.2 k kSmall, preserves.entry _ k taken apart kSmall]

/-- What the loop over a table's entries has done when it is left. -/
structure EntriesCloned (b p : Paging) (source target : Word) (held : List Word) (turns : List Nat) (pages : List Word)
    (result : Bool × Paging) : Prop where
  stretch : Stretch b p target held turns pages result.2
  finished : result.1 = true → pages.length = p.entriesCost source turns ∧
    pages.Perm (turns.flatMap fun j => entryBlock (result.2.entry target (BitVec.ofNat 32 j))) ∧
    ∀ j ∈ turns, CopiedEntry p result.2 source target (BitVec.ofNat 32 j)
  stopped : result.1 = false → result.2.supply = 0 ∧ pages.length < p.entriesCost source turns

theorem cloneEntries_cloned {turns : List Nat} (ready : b.Ready) (holds : Holds b p held) (member : target ∈ held)
    (sourced : Sourced p source target) (small : ∀ j ∈ turns, j < 1024) (distinct : turns.Nodup) :
    ∃ pages, EntriesCloned b p source target held turns pages (cloneEntries source target turns p) := by
  induction turns generalizing p held with
  | nil =>
    refine ⟨[], ⟨holds, .refl p, fun _ _ _ => rfl, rfl⟩, fun _ => ⟨rfl, .refl _, ?_⟩, Bool.false_ne_true.symm.elim⟩
    intro j inside
    cases inside
  | cons j rest ih =>
    have jSmall := small j List.mem_cons_self
    have index : (BitVec.ofNat 32 j).toNat < 1024 := by rwa [toNat_ofNat_index jSmall]
    obtain ⟨absentLater, distinctRest⟩ := List.nodup_cons.mp distinct
    have looked := @stretch_touch b p target held holds (source + 4 * BitVec.ofNat 32 j)
    -- the rest of the loop runs from a state in which entry `j` is copied
    have continue_ (next : Paging) (turn : Stretch b p target held [j] (entryBlock (next.entry target (BitVec.ofNat 32 j))) next)
        (copied : CopiedEntry p next source target (BitVec.ofNat 32 j))
        (cost : (entryBlock (p.entry source (BitVec.ofNat 32 j))).length =
          (entryBlock (next.entry target (BitVec.ofNat 32 j))).length) :
        ∃ pages, EntriesCloned b p source target held (j :: rest) pages (cloneEntries source target rest next) := by
      obtain ⟨pages, stretch, finished, stopped⟩ := ih turn.holds (List.mem_append_right _ member)
        (sourced.preserved turn.preserves) (fun k inside => small k (List.mem_cons_of_mem _ inside)) distinctRest
      have later : next.entriesCost source rest = p.entriesCost source rest := by
        unfold entriesCost
        congr 1
        apply List.flatMap_congr
        intro k inside
        rw [turn.preserves.entry source _ sourced.table sourced.apart
          (by rw [toNat_ofNat_index (small k (List.mem_cons_of_mem _ inside))]; exact small k (List.mem_cons_of_mem _ inside))]
      have total : p.entriesCost source (j :: rest) =
          (entryBlock (p.entry source (BitVec.ofNat 32 j))).length + p.entriesCost source rest := by
        rw [entriesCost, List.flatMap_cons, List.length_append, entriesCost]
      have kept : (cloneEntries source target rest next).2.entry target (BitVec.ofNat 32 j) =
          next.entry target (BitVec.ofNat 32 j) :=
        stretch.others _ index (by rwa [toNat_ofNat_index jSmall])
      refine ⟨pages ++ entryBlock (next.entry target (BitVec.ofNat 32 j)), turn.trans stretch, ?_, ?_⟩
      · intro succeeded
        obtain ⟨length, perm, all⟩ := finished succeeded
        refine ⟨?_, ?_, ?_⟩
        · rw [List.length_append, length, later, total, cost]
          exact Nat.add_comm _ _
        · rw [List.flatMap_cons, kept]
          exact (perm.append_right _).trans List.perm_append_comm
        · intro k inside
          rcases List.mem_cons.mp inside with rfl | deeper
          · exact copied.later ready jSmall member stretch turn.holds absentLater
          · exact (all k deeper).earlier sourced turn.preserves
              (by rw [toNat_ofNat_index (small k inside)]; exact small k inside)
      · intro failed
        obtain ⟨empty, fewer⟩ := stopped failed
        refine ⟨empty, ?_⟩
        rw [List.length_append, total, cost]
        omega
    by_cases present : p.entry source (BitVec.ofNat 32 j) &&& pagePresent ≠ 0
    · by_cases returned : (p.touch (source + 4 * BitVec.ofNat 32 j)).allocBlock.1 = 0
      · rw [cloneEntries_failed present returned]
        have null := looked.holds.null ready member
        rw [allocBlock_failed null returned]
        refine ⟨[], ⟨looked.holds, looked.preserves, fun _ _ _ => rfl, looked.supply⟩, Bool.false_ne_true.elim, fun _ => ⟨?_, ?_⟩⟩
        · exact supply_of_failed null returned
        · rw [entriesCost, List.flatMap_cons, List.length_append, entryBlock_present present, List.length_nil,
            List.length_singleton]
          omega
      · rw [cloneEntries_filled present returned]
        obtain ⟨next, shape, turn, copied⟩ := stretch_fill ready holds member sourced jSmall present returned
        rw [← shape]
        apply continue_ next turn copied
        rw [CopiedEntry, if_neg present] at copied
        rw [entryBlock_present present, entryBlock_present (by rwa [present_congr copied.1])]
        rfl
    · have absent : p.entry source (BitVec.ofNat 32 j) &&& pagePresent = 0 := not_not.mp present
      rw [cloneEntries_absent absent]
      obtain ⟨stored, value⟩ := stretch_write ready looked.holds member jSmall 0
      have none : entryBlock (0 : Word) = [] := entryBlock_absent (by decide)
      apply continue_ _ _ _ _
      · rw [value, none]
        exact looked.trans stored
      · rw [CopiedEntry, if_pos absent, value]
      · rw [value, none, entryBlock_absent absent]

end Entries

section Tables

variable {todo rest : List Nat} {pages : List Word} {i : Nat}

/-- Entry `index` of the directory `dst` is that of `src` with a table of its
own. -/
def CopiedTable (p q : Paging) (src dst index : Word) : Prop :=
  if p.entry src index &&& pagePresent = 0 then q.entry dst index = 0
  else q.entry dst index &&& 0xFFF = p.entry src index &&& 0xFFF ∧ ∀ j : Word, j.toNat < 1024 →
    CopiedEntry p q (pageOf (p.entry src index)) (pageOf (q.entry dst index)) j

/-- The user half of the directory `dst` is a copy of that of `src` except for
the entries to do. -/
structure Copying (b : Paging) (dst : Word) (todo : List Nat) (q : Paging) : Prop where
  owns : Owns b q dst []
  kept : Preserves (fun _ => False) b q
  empty : ∀ i ∈ todo, q.entry dst (BitVec.ofNat 32 i) = 0

/-- A table that is not linked yet, with pages. -/
structure Filling (b : Paging) (dst table : Word) (pages : List Word) (todo : List Nat) (q : Paging) : Prop where
  owns : Owns b q dst (pages ++ [table])
  kept : Preserves (fun _ => False) b q
  empty : ∀ i ∈ todo, q.entry dst (BitVec.ofNat 32 i) = 0

theorem Holds.preserves (holds : Holds b q held)
    (entry : ∀ page index, b.Taken page → index.toNat < 1024 → q.entry page index = b.entry page index) :
    Preserves (fun _ => False) b q :=
  ⟨holds.steady, fun frame bound used => (holds.inUse frame bound).mpr (.inl used),
    fun page index taken _ small => entry page index taken small⟩

theorem Owns.taken {more : List Word} (owns : Owns b p dst more) (member : block ∈ p.owned dst) : p.Taken block :=
  owns.holds.taken owns.ready (List.mem_append_right _ member)

theorem Copying.touch (copying : Copying b dst todo q) (address : Word) : Copying b dst todo (q.touch address) :=
  ⟨copying.owns.congr (copying.owns.holds.keep (q.unseen_touch _)) fun _ _ _ _ _ => rfl,
    copying.kept.trans (preserves_touch q _), copying.empty⟩

theorem Copying.tail (copying : Copying b dst (i :: rest) q) : Copying b dst rest q :=
  ⟨copying.owns, copying.kept, fun k member => copying.empty k (List.mem_cons_of_mem _ member)⟩

theorem Copying.take (copying : Copying b dst todo q) (small : ∀ i ∈ todo, i < 768)
    (allocated : Allocated q q.allocBlock.1 q.allocBlock.2) : Filling b dst q.allocBlock.1 [] todo q.allocBlock.2 := by
  have preserves : Preserves (fun _ => False) q q.allocBlock.2 := allocated.preserves
  have directory := copying.owns.taken (Owns.mem_directory q dst)
  refine ⟨copying.owns.congr (copying.owns.holds.allocated allocated) ?_, copying.kept.trans preserves, ?_⟩
  · intro page index _ member indexSmall
    exact preserves.entry page index (copying.owns.taken member) id indexSmall
  · intro i member
    have bound := small i member
    rw [preserves.entry dst _ directory id (by rw [toNat_ofNat_index (by omega)]; omega)]
    exact copying.empty i member

theorem Filling.apart (filling : Filling b dst table pages todo q) (member : page ∈ q.owned dst) : page ≠ table := by
  rintro rfl
  have disjoint := (List.nodup_append.mp filling.owns.holds.distinct).2.2
  exact disjoint page (List.mem_append_right _ (List.mem_singleton_self _)) page member rfl

theorem Filling.taken_table (filling : Filling b dst table pages todo q) : q.Taken table :=
  filling.owns.holds.taken filling.owns.ready
    (List.mem_append_left _ (List.mem_append_right _ (List.mem_singleton_self _)))

/-- Blocks in use before the call are not the new table. -/
theorem Filling.table_fresh (filling : Filling b dst table pages todo q) (taken : b.Taken page) : page ≠ table := by
  rintro rfl
  have free := (filling.owns.holds.fresh page
    (List.mem_append_left _ (List.mem_append_right _ (List.mem_singleton_self _)))).2
  rw [taken.inUse] at free
  cases free

theorem Filling.fill {turns : List Nat} {more : List Word} (filling : Filling b dst table [] todo q) (small : ∀ i ∈ todo, i < 768)
    (stretch : Stretch b q table (table :: q.owned dst) turns more r) : Filling b dst table more todo r := by
  have directory := filling.owns.taken (Owns.mem_directory q dst)
  have others (page index : Word) (member : page ∈ q.owned dst) (indexSmall : index.toNat < 1024) :
      r.entry page index = q.entry page index :=
    stretch.preserves.entry page index (filling.owns.taken member) (filling.apart member) indexSmall
  have holds : Holds b r ((more ++ [table]) ++ q.owned dst) := by
    rw [List.append_assoc, List.singleton_append]
    exact stretch.holds
  refine ⟨filling.owns.congr holds fun page index _ member indexSmall => others page index member indexSmall, ?_, ?_⟩
  · refine holds.preserves ?_
    intro page index taken indexSmall
    have before := filling.kept.entry page index taken id indexSmall
    exact (stretch.preserves.entry page index (filling.kept.taken taken) (filling.table_fresh taken) indexSmall).trans before
  · intro i member
    have bound := small i member
    rw [others dst _ (Owns.mem_directory q dst) (by rw [toNat_ofNat_index (by omega)]; omega)]
    exact filling.empty i member

/-- Giving up the table leaves its pages behind. -/
theorem Filling.abandon (filling : Filling b dst table pages todo q) :
    Holds b ((q.freeBlock table).destroyAddressSpace dst) pages ∧
      Preserves (fun _ => False) b ((q.freeBlock table).destroyAddressSpace dst) := by
  have freed := freeBlock_freed filling.taken_table.toBlock
  have moved : (pages ++ [table] ++ q.owned dst).Perm (table :: (pages ++ q.owned dst)) := by
    rw [List.append_assoc, List.singleton_append]
    exact List.perm_middle
  have owns : Owns b (q.freeBlock table) dst pages := by
    refine filling.owns.congr ((filling.owns.holds.perm moved).freed freed) ?_
    intro page index _ member small
    exact freed.entry page index (filling.owns.clear member) small
  obtain ⟨holds, same⟩ := owns.destroyAddressSpace
  refine ⟨holds, holds.preserves fun page index taken small => ?_⟩
  have before := filling.kept.taken taken
  rw [same.entry before.page (freed.steady.clear.mpr before.clear) id small, freed.entry page index before.clear small,
    filling.kept.entry page index taken id small]

theorem Filling.touch (filling : Filling b dst table pages todo q) (address : Word) :
    Filling b dst table pages todo (q.touch address) :=
  ⟨filling.owns.congr (filling.owns.holds.keep (q.unseen_touch _)) fun _ _ _ _ _ => rfl,
    filling.kept.trans (preserves_touch q _), filling.empty⟩

/-- The filled table is linked into the directory. -/
theorem Filling.link (filling : Filling b dst table pages (i :: rest) q) (user : i < 768) (fresh : i ∉ rest)
    (small : ∀ k ∈ rest, k < 768) (all : pages.Perm (q.pageBlocks table))
    (points : pageOf value = table) (present : value &&& pagePresent ≠ 0) :
    Copying b dst rest (q.write (dst + 4 * BitVec.ofNat 32 i) value) ∧
      (∀ k : Word, k.toNat < 1024 → (q.write (dst + 4 * BitVec.ofNat 32 i) value).entry dst k =
        if BitVec.ofNat 32 i = k then value else q.entry dst k) ∧
      Preserves (· = dst) q (q.write (dst + 4 * BitVec.ofNat 32 i) value) := by
  have number : (BitVec.ofNat 32 i).toNat = i := toNat_ofNat_index (by omega)
  have index : (BitVec.ofNat 32 i).toNat < 1024 := by omega
  have directory := filling.owns.taken (Owns.mem_directory q dst)
  have tableApart := filling.apart (Owns.mem_directory q dst)
  have preserves := preserves_write directory index value
  have word (k : Word) (kSmall : k.toNat < 1024) : (q.write (dst + 4 * BitVec.ofNat 32 i) value).entry dst k =
      if BitVec.ofNat 32 i = k then value else q.entry dst k := by
    rw [entry_write directory.page directory.page index kSmall]
    simp only [true_and]
  have linked : (q.write (dst + 4 * BitVec.ofNat 32 i) value).entry dst (BitVec.ofNat 32 i) = value := by
    rw [word _ index, if_pos rfl]
  have has : (q.write (dst + 4 * BitVec.ofNat 32 i) value).HasTable dst (BitVec.ofNat 32 i) table :=
    ⟨index, by rwa [linked], by rwa [linked]⟩
  have tableWords (j : Word) (jSmall : j.toNat < 1024) :
      (q.write (dst + 4 * BitVec.ofNat 32 i) value).entry table j = q.entry table j :=
    preserves.entry table j filling.taken_table tableApart.symm jSmall
  have blocks : (q.write (dst + 4 * BitVec.ofNat 32 i) value).pageBlocks table = q.pageBlocks table := by
    apply List.flatMap_congr
    intro j member
    have bound := List.mem_range.mp member
    rw [tableWords _ (by rwa [toNat_ofNat_index bound])]
  have absent : q.entry dst (BitVec.ofNat 32 i) &&& pagePresent = 0 := by
    rw [filling.empty i List.mem_cons_self]
    decide
  have owned_ : ((q.write (dst + 4 * BitVec.ofNat 32 i) value).owned dst).Perm
      ((q.write (dst + 4 * BitVec.ofNat 32 i) value).pageBlocks table ++ [table] ++ q.owned dst) := by
    refine owned_perm_of_table (by omega) absent has ?_ ?_
    · intro k kUser different
      rw [word k (by omega), if_neg different.symm]
    · intro k other kUser otherHas j jSmall
      have member := Owns.mem_table otherHas kUser
      exact preserves.entry other j (filling.owns.taken member) (table_ne_directory filling.owns.distinct otherHas kUser) jSmall
  rw [blocks] at owned_
  have unseen := unseen_write directory.clear index value
  have holds : Holds b (q.write (dst + 4 * BitVec.ofNat 32 i) value) ((q.write (dst + 4 * BitVec.ofNat 32 i) value).owned dst) := by
    refine (filling.owns.holds.keep unseen).perm (List.Perm.trans ?_ owned_.symm)
    exact (all.append_right _).append_right _
  refine ⟨⟨⟨filling.owns.ready, ?_⟩, ?_, ?_⟩, word, preserves⟩
  · rwa [List.nil_append]
  · refine holds.preserves ?_
    intro page k taken kSmall
    have before := filling.kept.entry page k taken id kSmall
    have different : page ≠ dst := by
      rintro rfl
      have free := (filling.owns.holds.fresh page (List.mem_append_right _ (Owns.mem_directory q page))).2
      rw [taken.inUse] at free
      cases free
    exact (preserves.entry page k (filling.kept.taken taken) different kSmall).trans before
  · intro k member
    have bound := small k member
    have kNumber : (BitVec.ofNat 32 k).toNat = k := toNat_ofNat_index (by omega)
    rw [word _ (by omega), if_neg]
    · exact filling.empty k (List.mem_cons_of_mem _ member)
    · intro same
      have equal := congrArg BitVec.toNat same
      rw [number, kNumber] at equal
      exact fresh (equal ▸ member)

/-- The directory entry is copied with its table. -/
theorem Filling.copied {j : Word} (filling : Filling b dst table pages todo q) (small : j.toNat < 1024)
    (all : pages.Perm (q.pageBlocks table)) (entry : CopiedEntry p q source table j)
    (preserves : Preserves (· = dst) q r) : CopiedEntry p r source table j := by
  have apart := filling.apart (Owns.mem_directory q dst)
  refine entry.kept (preserves.entry table j filling.taken_table apart.symm small) ?_
  intro present k kSmall
  have member : pageOf (q.entry table j) ∈ pages := all.symm.subset (mem_pageBlocks small present)
  have held_ : pageOf (q.entry table j) ∈ pages ++ [table] ++ q.owned dst :=
    List.mem_append_left _ (List.mem_append_left _ member)
  have different : pageOf (q.entry table j) ≠ dst := by
    intro same
    have disjoint := (List.nodup_append.mp filling.owns.holds.distinct).2.2
    exact disjoint _ (List.mem_append_left _ member) dst (Owns.mem_directory q dst) same
  exact preserves.entry _ k (filling.owns.holds.taken filling.owns.ready held_) different kSmall

/-- With so many blocks left, the tables with so many pages each can all be
cloned, or the first block that is missing is that of a table or of the first
page of a table. -/
def stopsClean : Nat → List Nat → Bool
  | _, [] => true
  | 0, _ :: _ => true
  | left + 1, pages :: rest => if pages ≤ left then stopsClean (left - pages) rest else left == 0

/-- A block for each table and each page. -/
def needed (counts : List Nat) : Nat := (counts.map (· + 1)).sum

/-- The numbers of pages behind the present entries of the directory. -/
def tablePages (p : Paging) (src : Word) (turns : List Nat) : List Nat :=
  (turns.filter fun i => p.entry src (BitVec.ofNat 32 i) &&& pagePresent != 0).map fun i =>
    (p.pageBlocks (pageOf (p.entry src (BitVec.ofNat 32 i)))).length

/-- What the loop over the tables has done when it is left. -/
structure TablesCloned (b q : Paging) (src dst : Word) (todo : List Nat) (result : Bool × Paging) : Prop where
  kept : Preserves (fun _ => False) b result.2
  finished : result.1 = true → Owns b result.2 dst [] ∧ Preserves (· = dst) q result.2 ∧
    (∀ k : Word, k.toNat < 768 → k.toNat ∉ todo → result.2.entry dst k = q.entry dst k) ∧
    (∀ i ∈ todo, CopiedTable b result.2 src dst (BitVec.ofNat 32 i)) ∧
    stopsClean q.supply (b.tablePages src todo) = true
  stopped : result.1 = false → q.supply < needed (b.tablePages src todo) ∧ ∃ leaked, Holds b result.2 leaked ∧
    leaked.length ≤ 1024 ∧ (leaked = [] ↔ stopsClean q.supply (b.tablePages src todo) = true)

/-- The kernel directory is among the blocks that the allocator knows. -/
structure Settled (p : Paging) : Prop extends Ready p where
  known : p.kernelDirectory ≠ 0 → p.kernelDirectory.toNat / 4096 < p.searched

/-- The blocks of an address space are in use, none of them twice and none of
them NULL. -/
structure Standing (p : Paging) (src : Word) : Prop where
  ready : p.Settled
  distinct : (p.owned src).Nodup
  taken : ∀ block ∈ p.owned src, p.Taken block
  nonnull : ∀ block ∈ p.owned src, block ≠ 0

theorem Standing.directory (standing : Standing b src) : b.Taken src := standing.taken src (Owns.mem_directory b src)

/-- A table of the address space in a state in which `table` is new. -/
theorem Standing.sourced (standing : Standing b src) (user : i < 768) (present : b.entry src (BitVec.ofNat 32 i) &&& pagePresent ≠ 0)
    (filling : Filling b dst table pages todo q) : Sourced b (pageOf (b.entry src (BitVec.ofNat 32 i))) table := by
  have number : (BitVec.ofNat 32 i).toNat = i := toNat_ofNat_index (by omega)
  have has : b.HasTable src (BitVec.ofNat 32 i) (pageOf (b.entry src (BitVec.ofNat 32 i))) := ⟨by omega, present, rfl⟩
  have own := standing.taken _ (Owns.mem_table has (by omega))
  refine ⟨own, filling.table_fresh own, ?_⟩
  intro j small there
  have page := standing.taken _ (has.mem_owned (by omega) (List.mem_append_left _ (mem_pageBlocks small there)))
  exact ⟨page, filling.table_fresh page⟩

theorem tablePages_absent (absent : p.entry src (BitVec.ofNat 32 i) &&& pagePresent = 0) :
    p.tablePages src (i :: rest) = p.tablePages src rest := by
  rw [tablePages, List.filter_cons, if_neg (by rw [absent]; decide)]
  rfl

theorem tablePages_present (present : p.entry src (BitVec.ofNat 32 i) &&& pagePresent ≠ 0) :
    p.tablePages src (i :: rest) = (p.pageBlocks (pageOf (p.entry src (BitVec.ofNat 32 i)))).length :: p.tablePages src rest := by
  rw [tablePages, List.filter_cons, if_pos (bne_iff_ne.mpr present)]
  rfl

theorem needed_cons (count : Nat) (counts : List Nat) : needed (count :: counts) = count + 1 + needed counts := by
  rw [needed, List.map_cons, List.sum_cons, needed]

/-- One turn, after which the loop goes on from `next`. -/
theorem TablesCloned.cons {next : Paging} {result : Bool × Paging} (tables : TablesCloned b next src dst rest result)
    (user : i < 768) (absent : i ∉ rest) (preserves : Preserves (· = dst) q next)
    (others : ∀ k : Word, k.toNat < 768 → k ≠ BitVec.ofNat 32 i → next.entry dst k = q.entry dst k)
    (copied : ∀ last, Preserves (· = dst) next last → last.entry dst (BitVec.ofNat 32 i) = next.entry dst (BitVec.ofNat 32 i) →
      CopiedTable b last src dst (BitVec.ofNat 32 i))
    (supply : stopsClean q.supply (b.tablePages src (i :: rest)) = stopsClean next.supply (b.tablePages src rest))
    (short : next.supply < needed (b.tablePages src rest) → q.supply < needed (b.tablePages src (i :: rest))) :
    TablesCloned b q src dst (i :: rest) result := by
  have number : (BitVec.ofNat 32 i).toNat = i := toNat_ofNat_index (by omega)
  refine ⟨tables.kept, ?_, ?_⟩
  · intro succeeded
    obtain ⟨owns, kept, same, all, clean⟩ := tables.finished succeeded
    refine ⟨owns, preserves.trans kept, ?_, ?_, supply.trans clean⟩
    · intro k kUser outside
      rw [List.mem_cons, not_or] at outside
      rw [same k kUser outside.2, others k kUser]
      rintro rfl
      exact outside.1 number
    · intro k member
      rcases List.mem_cons.mp member with rfl | later
      · exact copied _ kept (same _ (by omega) (by rwa [number]))
      · exact all k later
  · intro failed
    obtain ⟨missing, leaked, holds, few, clean⟩ := tables.stopped failed
    rw [supply]
    exact ⟨short missing, leaked, holds, few, clean⟩

theorem length_entryBlock_le (word : Word) : (entryBlock word).length ≤ 1 := by
  unfold entryBlock
  split <;> simp

theorem length_pageBlocks_le (p : Paging) (table : Word) : (p.pageBlocks table).length ≤ 1024 := by
  have each (turns : List Nat) :
      (turns.flatMap fun j => entryBlock (p.entry table (BitVec.ofNat 32 j))).length ≤ turns.length := by
    induction turns with
    | nil => exact Nat.le_refl 0
    | cons j rest ih =>
      have one := length_entryBlock_le (p.entry table (BitVec.ofNat 32 j))
      rw [List.flatMap_cons, List.length_append, List.length_cons]
      omega
  have bound := each (List.range 1024)
  rwa [List.length_range] at bound

/-- In the turn for entry `i` the block `table` was taken, in the state `m` then, and
the loop over its entries has come to `result`. -/
structure TableFilled (b q : Paging) (src dst table : Word) (i : Nat) (rest : List Nat) (m : Paging) (pages : List Word)
    (result : Bool × Paging) : Prop where
  filling : Filling b dst table pages (i :: rest) result.2
  sourced : Sourced b (pageOf (b.entry src (BitVec.ofNat 32 i))) table
  earlier : Preserves (· = table) b m
  entries : EntriesCloned b m (pageOf (b.entry src (BitVec.ofNat 32 i))) table (table :: m.owned dst) (List.range 1024) pages result
  cost : m.entriesCost (pageOf (b.entry src (BitVec.ofNat 32 i))) (List.range 1024) =
    (b.pageBlocks (pageOf (b.entry src (BitVec.ofNat 32 i)))).length
  kept : Preserves (fun _ => False) q result.2
  supply : m.supply + 1 = q.supply

/-- The source table, filled into a block that was just taken. -/
theorem Standing.fill (standing : Standing b src) (copying : Copying b dst (i :: rest) q) (small : ∀ k ∈ i :: rest, k < 768)
    (present : b.entry src (BitVec.ofNat 32 i) &&& pagePresent ≠ 0)
    (returned : (q.touch (src + 4 * BitVec.ofNat 32 i)).allocBlock.1 ≠ 0) :
    ∃ pages, TableFilled b q src dst (q.touch (src + 4 * BitVec.ofNat 32 i)).allocBlock.1 i rest
      (q.touch (src + 4 * BitVec.ofNat 32 i)).allocBlock.2 pages
      (cloneEntries (pageOf (b.entry src (BitVec.ofNat 32 i))) (q.touch (src + 4 * BitVec.ofNat 32 i)).allocBlock.1
        (List.range 1024) (q.touch (src + 4 * BitVec.ofNat 32 i)).allocBlock.2) := by
  have allocated := allocBlock_returned returned
  have less := allocated.supply returned
  have filling := (copying.touch (src + 4 * BitVec.ofNat 32 i)).take small allocated
  have fresh (page : Word) (taken : q.Taken page) : page ≠ (q.touch (src + 4 * BitVec.ofNat 32 i)).allocBlock.1 :=
    allocated.ne_of_inUse taken.inUse
  have granted : Preserves (fun _ => False) q (q.touch (src + 4 * BitVec.ofNat 32 i)).allocBlock.2 :=
    (preserves_touch q _).trans allocated.preserves
  rw [(q.unseen_touch (src + 4 * BitVec.ofNat 32 i)).supply] at less
  generalize (q.touch (src + 4 * BitVec.ofNat 32 i)).allocBlock.1 = table at *
  generalize (q.touch (src + 4 * BitVec.ofNat 32 i)).allocBlock.2 = m at *
  have sourced := standing.sourced (small i List.mem_cons_self) present filling
  have earlier : Preserves (· = table) b m := filling.kept.weaken fun _ none => none.elim
  have taken : Holds b m (table :: m.owned dst) := by
    have holds := filling.owns.holds
    rwa [List.nil_append, List.singleton_append] at holds
  obtain ⟨pages, entries⟩ := cloneEntries_cloned filling.owns.ready taken List.mem_cons_self
    (sourced.preserved earlier) (fun j member => List.mem_range.mp member) (@List.nodup_range 1024)
  refine ⟨pages, filling.fill small entries.stretch, sourced, earlier, entries, ?_, ?_, less⟩
  · rw [entriesCost_congr fun j small => filling.kept.entry _ j sourced.table id small, entriesCost, pageBlocks]
  · exact granted.unused entries.stretch.preserves fresh

/-- The filled table is linked, and the loop goes on. -/
theorem TableFilled.finished {m : Paging} {result last : Bool × Paging} (filled : TableFilled b q src dst table i rest m pages result)
    (standing : Standing b src) (copying : Copying b dst (i :: rest) q) (small : ∀ k ∈ i :: rest, k < 768) (later : i ∉ rest)
    (present : b.entry src (BitVec.ofNat 32 i) &&& pagePresent ≠ 0) (finished : result.1 = true)
    (next : Copying b dst rest ((result.2.touch (src + 4 * BitVec.ofNat 32 i)).write (dst + 4 * BitVec.ofNat 32 i)
        (table ||| (result.2.entry src (BitVec.ofNat 32 i) &&& 0xFFF))) →
      TablesCloned b ((result.2.touch (src + 4 * BitVec.ofNat 32 i)).write (dst + 4 * BitVec.ofNat 32 i)
        (table ||| (result.2.entry src (BitVec.ofNat 32 i) &&& 0xFFF))) src dst rest last) :
    TablesCloned b q src dst (i :: rest) last := by
  have user := small i List.mem_cons_self
  have number : (BitVec.ofNat 32 i).toNat = i := toNat_ofNat_index (by omega)
  have index : (BitVec.ofNat 32 i).toNat < 1024 := by omega
  obtain ⟨length, all, copied⟩ := filled.entries.finished finished
  have filling := filled.filling
  have cost := filled.cost
  have less := filled.supply
  have spent := filled.entries.stretch.supply
  have aligned := filling.taken_table.page
  have flags : result.2.entry src (BitVec.ofNat 32 i) = b.entry src (BitVec.ofNat 32 i) :=
    filling.kept.entry src _ standing.directory id index
  rw [flags] at next
  have low := low_or aligned (b.entry src (BitVec.ofNat 32 i))
  have points : pageOf (table ||| (b.entry src (BitVec.ofNat 32 i) &&& 0xFFF)) = table := pageOf_or aligned (offset_lt _)
  have flagged : (table ||| (b.entry src (BitVec.ofNat 32 i) &&& 0xFFF)) &&& pagePresent ≠ 0 := by
    rwa [present_congr low]
  obtain ⟨linkedCopying, words, linked⟩ := (filling.touch (src + 4 * BitVec.ofNat 32 i)).link user later
    (fun k member => small k (List.mem_cons_of_mem _ member)) all points flagged
  have unseen := unseen_write (p := result.2.touch (src + 4 * BitVec.ofNat 32 i))
    ((filling.touch (src + 4 * BitVec.ofNat 32 i)).owns.taken (Owns.mem_directory _ dst)).clear index
    (table ||| (b.entry src (BitVec.ofNat 32 i) &&& 0xFFF))
  have linkedSupply := unseen.supply
  have touchedSupply := (result.2.unseen_touch (src + 4 * BitVec.ofNat 32 i)).supply
  have whole := (preserves_touch result.2 (src + 4 * BitVec.ofNat 32 i)).trans linked
  have left : m.supply - pages.length = result.2.supply := by omega
  refine (next linkedCopying).cons user later ?_ ?_ ?_ ?_ ?_
  · exact (filled.kept.weaken fun _ none => none.elim).trans whole
  · intro k kUser different
    rw [words k (by omega), if_neg different.symm, entry_touch]
    exact filled.kept.entry dst k (copying.owns.taken (Owns.mem_directory q dst)) id (by omega)
  · intro last later same
    rw [words _ index, if_pos rfl] at same
    rw [CopiedTable, if_neg present, same, points, low]
    refine ⟨rfl, ?_⟩
    intro j jSmall
    have entry := copied j.toNat (List.mem_range.mpr jSmall)
    rw [ofNat_toNat_index] at entry
    exact filling.copied jSmall all (entry.earlier filled.sourced filled.earlier jSmall) (whole.trans later)
  · rw [tablePages_present present, ← cost, ← length, ← less, stopsClean, if_pos (by omega), linkedSupply, touchedSupply, left]
  · rw [tablePages_present present, ← cost, ← length, needed_cons, ← less, linkedSupply, touchedSupply]
    omega

/-- A page is missing: the directory is given up, with the pages of this table
left behind. -/
theorem TableFilled.stopped {m : Paging} {result : Bool × Paging} (filled : TableFilled b q src dst table i rest m pages result)
    (present : b.entry src (BitVec.ofNat 32 i) &&& pagePresent ≠ 0) (stopped : result.1 = false) :
    TablesCloned b q src dst (i :: rest) (false, (result.2.freeBlock table).destroyAddressSpace dst) := by
  obtain ⟨empty, fewer⟩ := filled.entries.stopped stopped
  obtain ⟨holds, kept⟩ := filled.filling.abandon
  have bound := length_pageBlocks_le b (pageOf (b.entry src (BitVec.ofNat 32 i)))
  have cost := filled.cost
  have less := filled.supply
  have spent := filled.entries.stretch.supply
  refine ⟨kept, Bool.false_ne_true.elim, fun _ => ⟨?_, pages, holds, by omega, ?_⟩⟩
  · rw [tablePages_present present, ← cost, ← less, needed_cons]
    omega
  · rw [tablePages_present present, ← cost, ← less, stopsClean, if_neg (by omega), ← List.length_eq_zero_iff, beq_iff_eq]
    omega

/-- There is no block for the table. -/
theorem Copying.refused (copying : Copying b dst (i :: rest) q)
    (present : b.entry src (BitVec.ofNat 32 i) &&& pagePresent ≠ 0)
    (refused : (q.touch (src + 4 * BitVec.ofNat 32 i)).allocBlock.1 = 0) :
    TablesCloned b q src dst (i :: rest)
      (false, (q.touch (src + 4 * BitVec.ofNat 32 i)).allocBlock.2.destroyAddressSpace dst) := by
  have looked := copying.touch (src + 4 * BitVec.ofNat 32 i)
  have null := looked.owns.null
  have empty := supply_of_failed null refused
  rw [(q.unseen_touch (src + 4 * BitVec.ofNat 32 i)).supply] at empty
  rw [allocBlock_failed null refused]
  obtain ⟨holds, same⟩ := looked.owns.destroyAddressSpace
  refine ⟨holds.preserves ?_, Bool.false_ne_true.elim, fun _ => ⟨?_, [], holds, Nat.zero_le _, ?_⟩⟩
  · intro page k taken kSmall
    have before := looked.kept.taken taken
    exact (same.entry before.page before.clear id kSmall).trans (looked.kept.entry page k taken id kSmall)
  · rw [empty, tablePages_present present, needed_cons]
    omega
  · rw [empty, tablePages_present present]
    exact iff_of_true rfl rfl

/-- There is no table to copy. -/
theorem Copying.skipped {result : Bool × Paging} (copying : Copying b dst (i :: rest) q) (user : i < 768) (later : i ∉ rest)
    (absent : b.entry src (BitVec.ofNat 32 i) &&& pagePresent = 0)
    (next : TablesCloned b (q.touch (src + 4 * BitVec.ofNat 32 i)) src dst rest result) :
    TablesCloned b q src dst (i :: rest) result := by
  have supply := (q.unseen_touch (src + 4 * BitVec.ofNat 32 i)).supply
  refine next.cons user later (preserves_touch q _) (fun _ _ _ => rfl) ?_ ?_ ?_
  · intro last _ same
    rw [CopiedTable, if_pos absent, same]
    exact copying.empty i List.mem_cons_self
  · rw [tablePages_absent absent, supply]
  · rw [tablePages_absent absent, supply]
    exact id

theorem Standing.cloneTables (standing : Standing b src) (copying : Copying b dst todo q) (small : ∀ i ∈ todo, i < 768)
    (distinct : todo.Nodup) : TablesCloned b q src dst todo (Paging.cloneTables src dst todo q) := by
  induction todo generalizing q with
  | nil =>
    refine ⟨copying.kept, fun _ => ⟨copying.owns, .refl q, fun _ _ _ => rfl, ?_, ?_⟩, Bool.false_ne_true.symm.elim⟩
    · intro i member
      cases member
    · cases q.supply <;> rfl
  | cons i rest ih =>
    have user := small i List.mem_cons_self
    have smallRest (k : Nat) (member : k ∈ rest) : k < 768 := small k (List.mem_cons_of_mem _ member)
    obtain ⟨later, distinctRest⟩ := List.nodup_cons.mp distinct
    have number : (BitVec.ofNat 32 i).toNat = i := toNat_ofNat_index (by omega)
    have word : q.entry src (BitVec.ofNat 32 i) = b.entry src (BitVec.ofNat 32 i) :=
      copying.kept.entry src _ standing.directory id (by omega)
    by_cases present : b.entry src (BitVec.ofNat 32 i) &&& pagePresent ≠ 0
    · by_cases returned : (q.touch (src + 4 * BitVec.ofNat 32 i)).allocBlock.1 = 0
      · rw [cloneTables_failed (by rwa [word]) returned]
        exact copying.refused present returned
      · obtain ⟨pages, filled⟩ := standing.fill copying small present returned
        rw [cloneTables_entries (by rwa [word]) returned rfl, word]
        split
        · next finished =>
          exact filled.finished standing copying small later present finished fun next => ih next smallRest distinctRest
        · next stopped => exact filled.stopped present (by simpa using stopped)
    · have absent : b.entry src (BitVec.ofNat 32 i) &&& pagePresent = 0 := not_not.mp present
      rw [cloneTables_absent (by rwa [word])]
      exact copying.skipped user later absent (ih (copying.touch _).tail smallRest distinctRest)

end Tables

section Clone

/-- The new directory before the first turn. -/
theorem Opened.copying (opened : Opened b dst q) (owns : Owns b q dst []) : Copying b dst (List.range 768) q := by
  refine ⟨owns, owns.all.preserves ?_, ?_⟩
  · intro page index taken small
    refine opened.elsewhere page index taken.page taken.clear ?_ small
    rintro rfl
    have free := (owns.all.fresh page (Owns.mem_directory q page)).2
    rw [taken.inUse] at free
    cases free
  · intro i member
    have bound := List.mem_range.mp member
    exact opened.empty _ (by rwa [toNat_ofNat_index (by omega)])

theorem Opened.supply (opened : Opened b dst q) (nonnull : dst ≠ 0) : q.supply + 1 = b.supply := by
  obtain ⟨m, call, allocated, unseen⟩ := opened.granted
  have returned : b.allocBlock.1 ≠ 0 := by rwa [call]
  have less := (allocBlock_returned returned).supply returned
  rw [call] at less
  rw [unseen.supply]
  exact less

/-- No directory is returned when there is no block for it. -/
theorem createAddressSpace_failed (null : b.inUse 0 = true) (nothing : b.createAddressSpace.1 = 0) :
    b.createAddressSpace.2 = b ∧ b.supply = 0 := by
  have returned : b.allocBlock.1 = 0 := by
    by_contra nonnull
    simp only [Paging.createAddressSpace, nonnull, ↓reduceIte] at nothing
    split at nothing
    · exact nonnull nothing
    · exact nonnull nothing
  refine ⟨?_, supply_of_failed null returned⟩
  rw [Paging.createAddressSpace, allocBlock_failed null returned]
  rfl

/-- The directory, a table or the first page of a table is what the first
missing block was wanted for, if one is missing. -/
def FailsClean (p : Paging) (src : Word) : Prop :=
  p.supply = 0 ∨ stopsClean (p.supply - 1) (p.tablePages src (List.range 768)) = true

/-- What the call has done when it returns a directory. -/
theorem Standing.clone_returned (standing : Standing b src) (returned : (b.cloneAddressSpace src).1 ≠ 0) :
    Owns b (b.cloneAddressSpace src).2 (b.cloneAddressSpace src).1 [] ∧
      Preserves (fun _ => False) b (b.cloneAddressSpace src).2 ∧
      (∀ i < 768, CopiedTable b (b.cloneAddressSpace src).2 src (b.cloneAddressSpace src).1 (BitVec.ofNat 32 i)) ∧
      b.FailsClean src := by
  by_cases nothing : b.createAddressSpace.1 = 0
  · rw [Paging.cloneAddressSpace, if_pos nothing] at returned
    exact absurd rfl returned
  · have opened := standing.ready.toReady.opened nothing
    have copying := opened.copying (standing.ready.toReady.createAddressSpace nothing)
    have tables := standing.cloneTables copying (fun i member => List.mem_range.mp member) List.nodup_range
    rw [Paging.cloneAddressSpace, if_neg nothing] at returned ⊢
    dsimp only at returned ⊢
    cases finished : (Paging.cloneTables src b.createAddressSpace.1 (List.range 768) b.createAddressSpace.2).1 with
    | true =>
      obtain ⟨owns, _, _, all, clean⟩ := tables.finished finished
      have spent := opened.supply nothing
      have left : b.createAddressSpace.2.supply = b.supply - 1 := by omega
      rw [left] at clean
      rw [if_pos rfl]
      exact ⟨owns, tables.kept, fun i small => all i (List.mem_range.mpr small), .inr clean⟩
    | false =>
      rw [finished, if_neg Bool.false_ne_true] at returned
      exact absurd rfl returned

/-- What the call still holds when it returns NULL. -/
theorem Standing.clone_failed (standing : Standing b src) (failed : (b.cloneAddressSpace src).1 = 0) :
    Preserves (fun _ => False) b (b.cloneAddressSpace src).2 ∧
      b.supply < needed (b.tablePages src (List.range 768)) + 1 ∧ ∃ leaked, Holds b (b.cloneAddressSpace src).2 leaked ∧
        leaked.length ≤ 1024 ∧ (leaked = [] ↔ b.FailsClean src) := by
  by_cases nothing : b.createAddressSpace.1 = 0
  · obtain ⟨same, empty⟩ := createAddressSpace_failed standing.ready.null nothing
    rw [Paging.cloneAddressSpace, if_pos nothing, same]
    refine ⟨.refl b, ?_, [], .refl b, Nat.zero_le _, iff_of_true rfl (.inl empty)⟩
    rw [empty]
    exact Nat.succ_pos _
  · have opened := standing.ready.toReady.opened nothing
    have copying := opened.copying (standing.ready.toReady.createAddressSpace nothing)
    have spent := opened.supply nothing
    have tables := standing.cloneTables copying (fun i member => List.mem_range.mp member) List.nodup_range
    rw [Paging.cloneAddressSpace, if_neg nothing] at failed ⊢
    dsimp only at failed ⊢
    cases finished : (Paging.cloneTables src b.createAddressSpace.1 (List.range 768) b.createAddressSpace.2).1 with
    | true =>
      rw [finished, if_pos rfl] at failed
      exact absurd failed nothing
    | false =>
      obtain ⟨short, leaked, holds, few, clean⟩ := tables.stopped finished
      refine ⟨tables.kept, ?_, leaked, holds, few, clean.trans ?_⟩
      · rw [← spent]
        exact Nat.succ_lt_succ short
      have left : b.createAddressSpace.2.supply = b.supply - 1 := by omega
      have some_left : b.supply ≠ 0 := by
        rw [← spent]
        exact Nat.succ_ne_zero _
      rw [FailsClean, left]
      exact (or_iff_right some_left).symm

end Clone

end MexOS.Mm.Paging
