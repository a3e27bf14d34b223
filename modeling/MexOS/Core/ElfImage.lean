import MexOS.Core.ElfWrites

/-! What the loader leaves in the directory that it loads into. -/

namespace MexOS.Core.Loading

open MexOS.Machine MexOS.Mm MexOS.Mm.Paging Monitored

/-- Header `i` is loadable and has memory. -/
def Loadable (data : Bytes) (i : Nat) : Prop := i < (phnumOf data).toNat ∧ Loads data (phdrOf data i)

def vaddrOf (data : Bytes) (i : Nat) : Word := pVaddrOf data (phdrOf data i)
def memszOf (data : Bytes) (i : Nat) : Word := pMemszOf data (phdrOf data i)
def fileszOf (data : Bytes) (i : Nat) : Word := pFileszOf data (phdrOf data i)
def offsetOf (data : Bytes) (i : Nat) : Word := pOffsetOf data (phdrOf data i)
def flagsOf (data : Bytes) (i : Nat) : Word := pFlagsOf data (phdrOf data i)

/-- Byte `k` of a segment, by its address. -/
def byteOf (data : Bytes) (i k : Nat) : Word := vaddrOf data i + BitVec.ofNat 32 k

/-- What it is to hold. -/
def contentOf (data : Bytes) (i k : Nat) : Byte :=
  if k < (fileszOf data i).toNat then data ((offsetOf data i).toNat + k) else 0

/-- Segments in user space that share no page and have their file ranges inside
the file. -/
structure WellFormed (data : Bytes) (size : Word) : Prop where
  user : ∀ i, Loadable data i → (vaddrOf data i).toNat + (memszOf data i).toNat ≤ kernelVirtualBase.toNat
  sizes : ∀ i, Loadable data i → (fileszOf data i).toNat ≤ (memszOf data i).toNat
  file : ∀ i, Loadable data i → (offsetOf data i).toNat + (fileszOf data i).toNat ≤ size.toNat
  disjoint : ∀ i j, Loadable data i → Loadable data j → i ≠ j → ∀ k < (memszOf data i).toNat, ∀ l < (memszOf data j).toNat,
    pageOf (byteOf data i k) ≠ pageOf (byteOf data j l)

/-- The largest end of a loadable segment, rounded to pages. -/
structure IsBrk (data : Bytes) (brk : Word) : Prop where
  bounds : ∀ i < (phnumOf data).toNat, data.word (phdrOf data i + Elf32Phdr.pType) = ptLoad →
    (vaddrOf data i).toNat + (memszOf data i).toNat ≤ brk.toNat
  least : brk = 0 ∨ ∃ i < (phnumOf data).toNat, data.word (phdrOf data i + Elf32Phdr.pType) = ptLoad ∧
    brk.toNat = ((vaddrOf data i).toNat + (memszOf data i).toNat + 4095) / 4096 * 4096

/-- A page with these entries is accessible to the program, and writable just if
its segment is. -/
def Right (directory entry flags : Word) : Prop :=
  directory &&& pageUser ≠ 0 ∧ entry &&& pageUser ≠ 0 ∧
    (directory &&& pageWrite ≠ 0 ∧ entry &&& pageWrite ≠ 0 ↔ flags &&& pfW ≠ 0)

/-- The directory maps the byte to a place with this value. -/
def Shows (p : Paging) (pageDir address : Word) (value : Byte) : Prop :=
  ∃ entry, p.translation pageDir address = some entry ∧ p.mem (pageOf entry ||| (address &&& 0xFFF)) = value

/-- The program as it is to be found behind the directory. -/
structure Image (data : Bytes) (q : Paging) (pageDir : Word) (result : ElfLoadResult) : Prop where
  bytes : ∀ i, Loadable data i → ∀ k < (memszOf data i).toNat, Shows q pageDir (byteOf data i k) (contentOf data i k)
  pages : ∀ i, Loadable data i → ∀ k < (memszOf data i).toNat, ∀ entry, q.translation pageDir (byteOf data i k) = some entry →
    Right (q.entry pageDir (pageDirectoryIndex (byteOf data i k))) entry (flagsOf data i)
  entry : result.entryPoint = data.word Elf32Header.eEntry
  brk : IsBrk data result.brk

/-- A page of the program. -/
def InProgram (data : Bytes) (page : Word) : Prop := ∃ i, Loadable data i ∧ SegmentPage data (phdrOf data i) page

/-- A state in which the program can be loaded: the directory is the active one,
its tables are out of reach of the program and stand behind one entry each, and
pages that the program finds mapped, or tables for them, have the flags of their
segments. -/
structure Suitable (data : Bytes) (p : Paging) (pageDir : Word) : Prop where
  guarded : p.Guarded (fun space => space = pageDir) 768 (InProgram data)
  once : ∀ i j table, i.toNat < 768 → j.toNat < 768 → p.HasTable pageDir i table → p.HasTable pageDir j table → i = j
  single : ∀ first second entry other, InProgram data first → InProgram data second →
    p.translation pageDir first = some entry → p.translation pageDir second = some other → pageOf entry = pageOf other →
    pageOf first = pageOf second
  pages : ∀ i, Loadable data i → ∀ address, SegmentPage data (phdrOf data i) address → ∀ entry,
    p.translation pageDir address = some entry → Right (p.entry pageDir (pageDirectoryIndex address)) entry (flagsOf data i)
  tables : ∀ i, Loadable data i → ∀ address, SegmentPage data (phdrOf data i) address →
    p.entry pageDir (pageDirectoryIndex address) &&& pagePresent ≠ 0 →
    p.entry pageDir (pageDirectoryIndex address) &&& pageUser ≠ 0 ∧
      (flagsOf data i &&& pfW ≠ 0 → p.entry pageDir (pageDirectoryIndex address) &&& pageWrite ≠ 0)

/-- Segments without memory do not end behind all others. -/
def Topped (data : Bytes) : Prop :=
  ∀ i < (phnumOf data).toNat, data.word (phdrOf data i + Elf32Phdr.pType) = ptLoad → memszOf data i = 0 →
    vaddrOf data i = 0 ∨ ∃ j, Loadable data j ∧
      (vaddrOf data i).toNat ≤ ((vaddrOf data j).toNat + (memszOf data j).toNat + 4095) / 4096 * 4096

/-- What the program has mapped stays mapped, with its bytes, and only new blocks
become tables. -/
structure Keeps (data : Bytes) (p : Paging) (pageDir : Word) (q : Paging) : Prop where
  preserves : Preserves (p.Structural (fun space => space = pageDir) 768) p q
  structural : ∀ page, p.Taken page → q.Structural (fun space => space = pageDir) 768 page →
    p.Structural (fun space => space = pageDir) 768 page
  translation : ∀ address entry, InProgram data address → p.translation pageDir address = some entry →
    q.translation pageDir address = some entry

variable {data : Bytes} {size pageDir : Word} {p q r : Paging}

section Segments

theorem WellFormed.below (wellFormed : WellFormed data size) {i : Nat} (loadable : Loadable data i) :
    vaddrOf data i < kernelVirtualBase := by
  have ends := wellFormed.user i loadable
  have positive : (memszOf data i).toNat ≠ 0 := fun zero => loadable.2.2 (BitVec.eq_of_toNat_eq zero)
  rw [BitVec.lt_def]
  omega

theorem WellFormed.page_user (wellFormed : WellFormed data size) {i : Nat} (loadable : Loadable data i) {page : Word}
    (there : SegmentPage data (phdrOf data i) page) : page < kernelVirtualBase :=
  segmentPage_user (wellFormed.below loadable) (.inl (wellFormed.user i loadable)) there

theorem WellFormed.page_half (wellFormed : WellFormed data size) {i : Nat} (loadable : Loadable data i) {page : Word}
    (there : SegmentPage data (phdrOf data i) page) : (pageDirectoryIndex page).toNat < 768 :=
  pageDirectoryIndex_user (wellFormed.page_user loadable there)

/-- Each page that is mapped for a segment holds a byte of it. -/
theorem WellFormed.page_byte (wellFormed : WellFormed data size) {i : Nat} (loadable : Loadable data i) {page : Word}
    (there : SegmentPage data (phdrOf data i) page) : ∃ k < (memszOf data i).toNat, pageOf (byteOf data i k) = pageOf page := by
  have ends := wellFormed.user i loadable
  have base : kernelVirtualBase.toNat = 0xC0000000 := rfl
  have positive : (memszOf data i).toNat ≠ 0 := fun zero => loadable.2.2 (BitVec.eq_of_toNat_eq zero)
  obtain ⟨lower, upper⟩ := segmentPage_rounded there
  change (vaddrOf data i).toNat / 4096 * 4096 ≤ page.toNat at lower
  change page.toNat < ((vaddrOf data i).toNat + (memszOf data i).toNat + 4095) / 4096 * 4096 at upper
  have place (k : Nat) (small : k < (memszOf data i).toNat) (inside : ((vaddrOf data i).toNat + k) / 4096 = page.toNat / 4096) :
      pageOf (byteOf data i k) = pageOf page := by
    apply BitVec.eq_of_toNat_eq
    rw [toNat_pageOf, toNat_pageOf, byteOf, BitVec.toNat_add, BitVec.toNat_ofNat]
    omega
  by_cases first : page.toNat / 4096 * 4096 ≤ (vaddrOf data i).toNat
  · exact ⟨0, by omega, place 0 (by omega) (by omega)⟩
  · refine ⟨page.toNat / 4096 * 4096 - (vaddrOf data i).toNat, by omega, place _ (by omega) (by omega)⟩

/-- A page belongs to one segment. -/
theorem WellFormed.page_once (wellFormed : WellFormed data size) {i j : Nat} (first : Loadable data i) (second : Loadable data j)
    {page other : Word} (there : SegmentPage data (phdrOf data i) page) (again : SegmentPage data (phdrOf data j) other)
    (same : pageOf page = pageOf other) : i = j := by
  by_contra different
  obtain ⟨k, small, here⟩ := wellFormed.page_byte first there
  obtain ⟨l, little, hereToo⟩ := wellFormed.page_byte second again
  exact wellFormed.disjoint i j first second different k small l little (here.trans (same.trans hereToo.symm))

theorem WellFormed.segmentPage (wellFormed : WellFormed data size) {i k : Nat} (loadable : Loadable data i)
    (small : k < (memszOf data i).toNat) : SegmentPage data (phdrOf data i) (byteOf data i k) :=
  segmentPage_byte (wellFormed.user i loadable) small

end Segments

section Suitable

theorem Keeps.refl (p : Paging) : Keeps data p pageDir p := ⟨.refl p, fun _ _ => id, fun _ _ _ => id⟩

theorem Keeps.trans (first : Keeps data p pageDir q) (second : Keeps data q pageDir r) : Keeps data p pageDir r := by
  refine ⟨⟨first.preserves.steady.trans second.preserves.steady, ?_, ?_⟩, ?_, ?_⟩
  · exact fun frame bound used => second.preserves.bits frame (by rwa [first.preserves.steady.searched])
      (first.preserves.bits frame bound used)
  · intro page index taken apart small
    have after := first.preserves.taken taken
    exact (second.preserves.entry page index after (fun structural => apart (first.structural page taken structural)) small).trans
      (first.preserves.entry page index taken apart small)
  · exact fun page taken structural =>
      first.structural page taken (second.structural page (first.preserves.taken taken) structural)
  · exact fun address entry inside found => second.translation address entry inside (first.translation address entry inside found)

/-- Nothing is stored in the directory and the tables. -/
theorem Suitable.keep (wellFormed : WellFormed data size) (suitable : Suitable data p pageDir) {except : Word → Prop}
    (preserves : Preserves except p q) (apart : ∀ page, p.Structural (fun space => space = pageDir) 768 page → ¬ except page) :
    Suitable data q pageDir ∧ (∀ address, InProgram data address → q.translation pageDir address = p.translation pageDir address) ∧
      ∀ page, q.Structural (fun space => space = pageDir) 768 page → p.Structural (fun space => space = pageDir) 768 page := by
  obtain ⟨guarded, same⟩ := suitable.guarded.keep preserves apart
  have entry (index : Word) (small : index.toNat < 1024) : q.entry pageDir index = p.entry pageDir index :=
    preserves.entry pageDir index (suitable.guarded.directory rfl) (apart pageDir (.directory rfl)) small
  have alike (address : Word) (inside : InProgram data address) : q.translation pageDir address = p.translation pageDir address := by
    obtain ⟨i, loadable, there⟩ := inside
    exact same pageDir address rfl (wellFormed.page_half loadable there)
  refine ⟨⟨guarded, ?_, ?_, ?_, ?_⟩, alike, ?_⟩
  · intro i j table i_user j_user first second
    exact suitable.once i j table i_user j_user ((hasTable_congr (entry i first.small)).mp first)
      ((hasTable_congr (entry j second.small)).mp second)
  · intro first second one other inside insideToo found again
    rw [alike first inside] at found
    rw [alike second insideToo] at again
    exact suitable.single first second one other inside insideToo found again
  · intro i loadable address there found translated
    rw [alike address ⟨i, loadable, there⟩] at translated
    rw [entry _ (pageDirectoryIndex_lt address)]
    exact suitable.pages i loadable address there found translated
  · intro i loadable address there
    rw [entry _ (pageDirectoryIndex_lt address)]
    exact suitable.tables i loadable address there
  · refine fun page structural => (structural_congr fun space index known small => ?_).mp structural
    rw [show space = pageDir from known]
    exact entry index (by omega)

theorem page_and_write {block : Word} (aligned : Page block) : block &&& pageWrite = 0 := by
  have mask : ~~~(0xFFF : Word) &&& pageWrite = 0 := by decide
  rw [← pageOf_of_page aligned, pageOf, BitVec.and_assoc, mask]
  exact BitVec.and_zero

/-- The flags of a new page are those of its segment. -/
theorem segmentFlags_right {flags block directory : Word} (aligned : Page block) (user : directory &&& pageUser ≠ 0)
    (write : flags &&& pfW ≠ 0 → directory &&& pageWrite ≠ 0) :
    Right directory (block ||| (segmentFlags flags ||| pagePresent)) flags := by
  unfold segmentFlags
  split
  · next writable =>
    exact ⟨user, masked_or (by decide), fun _ => writable, fun _ => ⟨write writable, masked_or (by decide)⟩⟩
  · next readable =>
    refine ⟨user, masked_or (by decide), fun both => absurd ?_ both.2, fun writable => absurd writable readable⟩
    have low : (pagePresent ||| pageUser ||| pagePresent) &&& pageWrite = 0 := by decide
    rw [BitVec.and_comm, BitVec.and_or_distrib_left, BitVec.and_comm, page_and_write aligned, BitVec.and_comm, low]
    exact BitVec.zero_or

theorem tableFlags_open (table : Word) {virtAddr : Word} (user : virtAddr < kernelVirtualBase) :
    (table ||| tableFlags virtAddr) &&& pageUser ≠ 0 ∧ (table ||| tableFlags virtAddr) &&& pageWrite ≠ 0 := by
  rw [tableFlags, if_pos user]
  exact ⟨masked_or (by decide), masked_or (by decide)⟩

section Placing

variable {i : Nat} {page table block : Word} (wellFormed : WellFormed data size) (suitable : Suitable data p pageDir)
  (loadable : Loadable data i) (there : SegmentPage data (phdrOf data i) page) (member : p.Block block)
  (free : p.inUse (block.toNat / 4096) = false)
  (placed : Placed p (fun space => space = pageDir) 768 pageDir page table (block ||| (segmentFlags (flagsOf data i) ||| pagePresent)) q)

omit data size pageDir p q r in
theorem pageOf_segmentFlags (aligned : Page block) (flags : Word) : pageOf (block ||| (segmentFlags flags ||| pagePresent)) = block := by
  refine pageOf_or aligned ?_
  unfold segmentFlags
  split <;> decide

include wellFormed suitable loadable there placed

/-- The table of the new page stands behind one entry. -/
theorem Suitable.placed_once {j k other : Word} (j_user : j.toNat < 768) (k_user : k.toNat < 768) (first : q.HasTable pageDir j other)
    (second : q.HasTable pageDir k other) : j = k := by
  have half := wellFormed.page_half loadable there
  have before {l : Word} (l_user : l.toNat < 768) (old : p.HasTable pageDir l table) : l = pageDirectoryIndex page := by
    rcases placed.fresh with has | fresh
    · exact suitable.once _ _ table l_user half old has
    · exact absurd (suitable.guarded.table_taken rfl l_user old).1 fresh
  rcases (placed.tables pageDir j other rfl j_user).mp first with one | ⟨_, rfl, rfl⟩
  · rcases (placed.tables pageDir k other rfl k_user).mp second with two | ⟨_, rfl, rfl⟩
    · exact suitable.once j k other j_user k_user one two
    · exact before j_user one
  · rcases (placed.tables pageDir k _ rfl k_user).mp second with two | ⟨_, rfl, _⟩
    · exact (before k_user two).symm
    · rfl

/-- An address of the program is in the new page, or it translates as before. -/
theorem Suitable.placed_cases {address : Word} (inside : InProgram data address) :
    pageOf address = pageOf page ∧ q.translation pageDir address = some (block ||| (segmentFlags (flagsOf data i) ||| pagePresent)) ∨
    pageOf address ≠ pageOf page ∧ q.translation pageDir address = p.translation pageDir address := by
  have half := wellFormed.page_half loadable there
  by_cases same : pageOf address = pageOf page
  · exact .inl ⟨same, placed.maps rfl half same⟩
  · obtain ⟨j, other, inPage⟩ := inside
    have address_half := wellFormed.page_half other inPage
    refine .inr ⟨same, placed.elsewhere pageDir address rfl address_half ?_⟩
    rintro ⟨behind, index⟩
    exact same (pageOf_eq_iff.mpr ⟨suitable.placed_once wellFormed loadable there placed address_half half behind placed.has, index⟩)

omit suitable in
/-- An entry of the directory is as before, or it is open to the program. -/
theorem WellFormed.placed_opened {index : Word} (index_user : index.toNat < 768) : q.entry pageDir index = p.entry pageDir index ∨
    p.entry pageDir index &&& pagePresent = 0 ∧ q.entry pageDir index &&& pageUser ≠ 0 ∧ q.entry pageDir index &&& pageWrite ≠ 0 := by
  rcases placed.directory pageDir index rfl index_user with same | ⟨absent, new⟩
  · exact .inl same
  · rw [new]
    exact .inr ⟨absent, tableFlags_open table (wellFormed.page_user loadable there)⟩

include member free

/-- The new frame was free, so no other page of the program has it. -/
theorem Suitable.placed_single {first second one other : Word} (inside : InProgram data first) (insideToo : InProgram data second)
    (found : q.translation pageDir first = some one) (again : q.translation pageDir second = some other)
    (alike : pageOf one = pageOf other) : pageOf first = pageOf second := by
  have unused (address entry : Word) (within : InProgram data address) (old : p.translation pageDir address = some entry) :
      pageOf entry ≠ block := by
    rintro rfl
    obtain ⟨j, loadableToo, inPage⟩ := within
    have active : p.cr3 = pageDir := suitable.guarded.active
    have taken := (suitable.guarded.frames address entry (wellFormed.page_half loadableToo inPage) ⟨j, loadableToo, inPage⟩
      (active.symm ▸ old)).1
    rw [taken.inUse] at free
    cases free
  have frame := pageOf_segmentFlags member.page (flagsOf data i)
  rcases suitable.placed_cases wellFormed loadable there placed inside with ⟨here, new⟩ | ⟨_, old⟩ <;>
    rcases suitable.placed_cases wellFormed loadable there placed insideToo with ⟨hereToo, newToo⟩ | ⟨_, oldToo⟩
  · exact here.trans hereToo.symm
  · rw [new] at found
    rw [oldToo] at again
    rw [← Option.some.inj found, frame] at alike
    exact absurd alike.symm (unused second other insideToo again)
  · rw [newToo] at again
    rw [old] at found
    rw [← Option.some.inj again, frame] at alike
    exact absurd alike (unused first one inside found)
  · rw [old] at found
    rw [oldToo] at again
    exact suitable.single first second one other inside insideToo found again alike

omit free in
/-- It has the flags of its segment. -/
theorem Suitable.placed_pages {j : Nat} (other : Loadable data j) {address entry : Word}
    (inPage : SegmentPage data (phdrOf data j) address) (found : q.translation pageDir address = some entry) :
    Right (q.entry pageDir (pageDirectoryIndex address)) entry (flagsOf data j) := by
  have half := wellFormed.page_half loadable there
  rcases suitable.placed_cases wellFormed loadable there placed ⟨j, other, inPage⟩ with ⟨here, new⟩ | ⟨_, old⟩
  · obtain rfl := wellFormed.page_once other loadable inPage there here
    rw [new] at found
    rw [← Option.some.inj found, (pageOf_eq_iff.mp here).1]
    rcases wellFormed.placed_opened loadable there placed half with same | ⟨_, open_, writable⟩
    · have present : p.entry pageDir (pageDirectoryIndex page) &&& pagePresent ≠ 0 := by
        rw [← same]
        exact placed.has.present
      rw [same]
      obtain ⟨open_, writable⟩ := suitable.tables j other page there present
      exact segmentFlags_right member.page open_ writable
    · exact segmentFlags_right member.page open_ fun _ => writable
  · rw [old] at found
    rcases wellFormed.placed_opened loadable there placed (wellFormed.page_half other inPage) with same | ⟨absent, _⟩
    · rw [same]
      exact suitable.pages j other address inPage entry found
    · rw [translation_absent absent] at found
      cases found

theorem Suitable.given (guarded : q.Guarded (fun space => space = pageDir) 768 (InProgram data)) : Suitable data q pageDir := by
  refine ⟨guarded, ?_, ?_, ?_, ?_⟩
  · exact fun j k other j_user k_user => suitable.placed_once wellFormed loadable there placed j_user k_user
  · exact fun first second one other => suitable.placed_single wellFormed loadable there member free placed
  · exact fun j other address inPage entry => suitable.placed_pages wellFormed loadable there member placed other inPage
  · intro j other address inPage present
    rcases wellFormed.placed_opened loadable there placed (wellFormed.page_half other inPage) with same | ⟨_, open_, writable⟩
    · rw [same] at present ⊢
      exact suitable.tables j other address inPage present
    · exact ⟨open_, fun _ => writable⟩

omit member free in
theorem Suitable.placed_keeps (preserves : Preserves (p.Structural (fun space => space = pageDir) 768) p q)
    (unmapped : p.translation pageDir page = none) : Keeps data p pageDir q := by
  refine ⟨preserves, ?_, ?_⟩
  · rintro other taken ⟨space, rfl, rfl | ⟨index, index_user, has⟩⟩
    · exact .directory rfl
    · rcases (placed.tables space index other rfl index_user).mp has with old | ⟨_, _, rfl⟩
      · exact .of_table rfl index_user old
      · exact .of_table rfl (wellFormed.page_half loadable there) (placed.fresh.resolve_right (not_not_intro taken))
  · intro address entry inside found
    rcases suitable.placed_cases wellFormed loadable there placed inside with ⟨here, _⟩ | ⟨_, old⟩
    · rw [translation_of_page here, unmapped] at found
      cases found
    · rw [old]
      exact found

end Placing

/-- Only what is not in use is stored to. -/
theorem Suitable.kept (wellFormed : WellFormed data size) (suitable : Suitable data p pageDir)
    (preserves : Preserves (fun _ => False) p q) : Suitable data q pageDir ∧ Keeps data p pageDir q ∧
      ∀ address, InProgram data address → q.translation pageDir address = p.translation pageDir address := by
  obtain ⟨after, same, structural⟩ := suitable.keep wellFormed preserves fun _ _ => id
  refine ⟨after, ⟨preserves.weaken fun _ => False.elim, fun page _ => structural page, fun address entry inside found => ?_⟩, same⟩
  rw [same address inside]
  exact found

/-- A page of the program gets a frame. -/
theorem Suitable.allocPage (wellFormed : WellFormed data size) (suitable : Suitable data p pageDir) {i : Nat} (loadable : Loadable data i)
    {page : Word} (there : SegmentPage data (phdrOf data i) page) (unmapped : p.translation pageDir page = none) :
    Suitable data (p.allocPage pageDir page (segmentFlags (flagsOf data i))).2 pageDir ∧
      Keeps data p pageDir (p.allocPage pageDir page (segmentFlags (flagsOf data i))).2 := by
  have half := wellFormed.page_half loadable there
  obtain ⟨guarded, preserves, outcome⟩ := suitable.guarded.allocPage rfl half (segmentFlags_lt (flagsOf data i))
  generalize p.allocPage pageDir page (segmentFlags (flagsOf data i)) = result at *
  rcases outcome with ⟨_, same⟩ | ⟨_, table, block, member, free, placed⟩
  · obtain ⟨after, keeps, _⟩ := suitable.kept wellFormed same
    exact ⟨after, keeps⟩
  · exact ⟨suitable.given wellFormed loadable there member free placed guarded,
      suitable.placed_keeps wellFormed loadable there placed preserves unmapped⟩

/-- The pages of a segment from here on. -/
theorem Suitable.mapPages (wellFormed : WellFormed data size) {i : Nat} (loadable : Loadable data i) {turns : Nat} {page : Word}
    (aligned : Page page) (lower : (pageOf (vaddrOf data i)).toNat ≤ page.toNat) (suitable : Suitable data p pageDir) :
    (Loading.mapPages pageDir (segmentFlags (flagsOf data i)) (segmentEnd (vaddrOf data i) (memszOf data i)) turns page p).Meets
      (fun _ => True) fun result => Suitable data result.2 pageDir ∧ Keeps data p pageDir result.2 := by
  have given (next : Word) (q : Paging) (there : SegmentPage data (phdrOf data i) next) (fine : Suitable data q pageDir)
      (missing : (q.isMapped pageDir next).1 = false) :
      Suitable data ((q.isMapped pageDir next).2.allocPage pageDir next (segmentFlags (flagsOf data i))).2 pageDir ∧
        Keeps data q pageDir ((q.isMapped pageDir next).2.allocPage pageDir next (segmentFlags (flagsOf data i))).2 := by
    obtain ⟨looked, kept, same⟩ := fine.kept wellFormed (preserves_isMapped q pageDir next)
    have unmapped : (q.isMapped pageDir next).2.translation pageDir next = none := by
      rw [same next ⟨i, loadable, there⟩, ← Option.not_isSome_iff_eq_none, ← isMapped_eq, missing]
      exact Bool.false_ne_true
    obtain ⟨after, more⟩ := looked.allocPage wellFormed loadable there unmapped
    exact ⟨after, kept.trans more⟩
  refine mapPages_meets (fun next q => Page next ∧ (pageOf (vaddrOf data i)).toNat ≤ next.toNat ∧ Suitable data q pageDir ∧
    Keeps data p pageDir q) ?_ ?_ ?_ ?_ turns ⟨aligned, lower, suitable, .refl p⟩
  · rintro next q before ⟨start, inside, fine, kept⟩ _
    obtain ⟨sum, nextAligned, _⟩ := page_next start (page_segmentEnd _ _) before
    obtain ⟨looked, more, _⟩ := fine.kept wellFormed (preserves_isMapped q pageDir next)
    exact ⟨nextAligned, by omega, looked, kept.trans more⟩
  · rintro next q before ⟨start, inside, fine, kept⟩ missing _
    obtain ⟨sum, nextAligned, _⟩ := page_next start (page_segmentEnd _ _) before
    obtain ⟨after, more⟩ := given next q ⟨inside, before⟩ fine missing
    exact ⟨trivial, nextAligned, by omega, after, kept.trans more⟩
  · rintro next q before ⟨_, inside, fine, kept⟩ missing _
    obtain ⟨after, more⟩ := given next q ⟨inside, before⟩ fine missing
    exact ⟨after, kept.trans more⟩
  · rintro next q _ ⟨_, _, fine, kept⟩
    exact ⟨fine, kept⟩

end Suitable

section Bytes

/-- The place of a byte in its frame. -/
theorem frame_eq_add (entry address : Word) :
    pageOf entry ||| (address &&& 0xFFF) = pageOf entry + BitVec.ofNat 32 (address &&& 0xFFF).toNat := by
  have apart : pageOf entry &&& (address &&& 0xFFF) = 0#32 := by
    have mask : ~~~(0xFFF : Word) &&& 0xFFF = 0#32 := by decide
    rw [pageOf, BitVec.and_assoc, BitVec.and_comm address, ← BitVec.and_assoc (~~~0xFFF), mask, BitVec.zero_and, BitVec.and_zero]
  rw [BitVec.ofNat_toNat, BitVec.setWidth_eq, BitVec.add_eq_or_of_and_eq_zero _ _ apart]

/-- The page and the offset tell the address. -/
theorem eq_of_page_offset {first second : Word} (page : pageOf first = pageOf second)
    (offset : first &&& 0xFFF = second &&& 0xFFF) : first = second := by
  have whole (address : Word) : pageOf address ||| (address &&& 0xFFF) = address := by
    rw [pageOf, ← BitVec.and_or_distrib_left, show ~~~(0xFFF : Word) ||| 0xFFF = BitVec.allOnes 32 by decide, BitVec.and_allOnes]
  rw [← whole first, ← whole second, page, offset]

theorem Shows.keeps {address : Word} {value : Byte} (wellFormed : WellFormed data size) (suitable : Suitable data p pageDir)
    (keeps : Keeps data p pageDir q) (inside : InProgram data address) (shows_ : Shows p pageDir address value) :
    Shows q pageDir address value := by
  obtain ⟨entry, found, rfl⟩ := shows_
  refine ⟨entry, keeps.translation address entry inside found, ?_⟩
  obtain ⟨i, loadable, there⟩ := inside
  have active : p.cr3 = pageDir := suitable.guarded.active
  obtain ⟨taken, apart⟩ := suitable.guarded.frames address entry (wellFormed.page_half loadable there) ⟨i, loadable, there⟩
    (active.symm ▸ found)
  rw [frame_eq_add]
  exact bytes_of_pageWords (fun index small => keeps.preserves.entry (pageOf entry) index taken apart small)
    (Paging.offset_lt address)

/-- A store to a byte of the program. -/
theorem Suitable.store (wellFormed : WellFormed data size) (suitable : Suitable data p pageDir) {address : Word}
    (inside : InProgram data address) (value : Byte) :
    (Loading.store pageDir p address value).Meets (fun _ => True) fun q => Suitable data q pageDir ∧
      Shows q pageDir address value ∧ ∀ other byte, InProgram data other → other ≠ address → Shows p pageDir other byte →
        Shows q pageDir other byte := by
  refine ⟨fun _ _ => trivial, ?_⟩
  intro q stored
  obtain ⟨frame, walked, rfl⟩ := Option.map_eq_some_iff.mp stored
  have active : p.cr3 = pageDir := suitable.guarded.active
  have half : (pageDirectoryIndex address).toNat < 768 := by
    obtain ⟨i, loadable, there⟩ := inside
    exact wellFormed.page_half loadable there
  obtain ⟨entry, found, rfl, preserves, _, _⟩ := suitable.guarded.storeByte half inside walked value
  rw [active] at found
  have apart := (suitable.guarded.frames address entry half inside (active.symm ▸ found)).2
  obtain ⟨after, same, _⟩ := suitable.keep wellFormed preserves fun page structural here => apart (here ▸ structural)
  refine ⟨after, ⟨entry, (same address inside).trans found, Function.update_self _ _ _⟩, ?_⟩
  rintro other byte insideToo different ⟨one, translated, rfl⟩
  refine ⟨one, (same other insideToo).trans translated, ?_⟩
  apply Function.update_of_ne
  intro place
  have pages := congrArg pageOf place
  rw [pageOf_or (page_pageOf _) (Paging.offset_lt other), pageOf_or (page_pageOf _) (Paging.offset_lt address)] at pages
  refine different (eq_of_page_offset (suitable.single other address one entry insideToo inside translated found pages) ?_)
  rw [frame_eq_add, frame_eq_add, pages] at place
  have offsets := congrArg BitVec.toNat ((BitVec.add_right_inj _).mp place)
  have first := Paging.offset_lt other
  have second := Paging.offset_lt address
  rw [BitVec.toNat_ofNat, BitVec.toNat_ofNat] at offsets
  apply BitVec.eq_of_toNat_eq
  omega

/-- Bytes of the program from `dst + i` on get these values, and the others keep
theirs. -/
structure Stored (data : Bytes) (pageDir dst : Word) (i left : Nat) (value : Nat → Byte) (p q : Paging) : Prop where
  suitable : Suitable data q pageDir
  values : ∀ k, i ≤ k → k < i + left → Shows q pageDir (dst + BitVec.ofNat 32 k) (value k)
  others : ∀ other byte, InProgram data other → (∀ k, i ≤ k → k < i + left → other ≠ dst + BitVec.ofNat 32 k) →
    Shows p pageDir other byte → Shows q pageDir other byte

theorem Stored.nil {dst : Word} {i : Nat} {value : Nat → Byte} (suitable : Suitable data p pageDir) :
    Stored data pageDir dst i 0 value p p :=
  ⟨suitable, fun _ _ _ => by omega, fun _ _ _ _ => id⟩

/-- One more byte behind the others. -/
theorem Stored.snoc {dst : Word} {i count : Nat} {value : Nat → Byte}
    (inside : ∀ k, i ≤ k → k < i + (count + 1) → dst.toNat + k < 2 ^ 32 ∧ InProgram data (dst + BitVec.ofNat 32 k))
    (soFar : Stored data pageDir dst i count value p q) (suitable : Suitable data r pageDir)
    (last : Shows r pageDir (dst + BitVec.ofNat 32 (i + count)) (value (i + count)))
    (kept : ∀ other byte, InProgram data other → other ≠ dst + BitVec.ofNat 32 (i + count) → Shows q pageDir other byte →
      Shows r pageDir other byte) : Stored data pageDir dst i (count + 1) value p r := by
  refine ⟨suitable, fun k lower upper => ?_, fun other byte insideOther away shows_ => ?_⟩
  · by_cases here : k = i + count
    · rw [here]
      exact last
    · refine kept _ _ (inside k lower upper).2 (fun same => ?_) (soFar.values k lower (by omega))
      have places := congrArg BitVec.toNat same
      have one := (inside k lower upper).1
      have two := (inside (i + count) (by omega) (by omega)).1
      rw [BitVec.toNat_add, BitVec.toNat_add, BitVec.toNat_ofNat, BitVec.toNat_ofNat] at places
      omega
  · refine kept other byte insideOther (away _ (by omega) (by omega)) ?_
    exact soFar.others other byte insideOther (fun k lower upper => away k lower (by omega)) shows_

/-- A byte that is stored behind those stored so far. -/
theorem Stored.store (wellFormed : WellFormed data size) {dst : Word} {i left k : Nat} (value : Nat → Byte)
    (inside : ∀ k, i ≤ k → k < i + left → dst.toNat + k < 2 ^ 32 ∧ InProgram data (dst + BitVec.ofNat 32 k))
    (lower : i ≤ k) (upper : k < i + left) (soFar : Stored data pageDir dst i (k - i) value p q) :
    (Loading.store pageDir q (dst + BitVec.ofNat 32 k) (value k)).Meets (fun _ => True)
      (Stored data pageDir dst i (k + 1 - i) value p) := by
  refine (soFar.suitable.store wellFormed (inside k lower upper).2 (value k)).imp ?_
  rintro r ⟨after, last, kept⟩
  have place : i + (k - i) = k := Nat.add_sub_cancel' lower
  rw [Nat.succ_sub lower]
  refine soFar.snoc (fun l from_here before => inside l from_here (by omega)) after ?_ ?_
  · rw [place]
    exact last
  · rw [place]
    exact kept

theorem Suitable.copyBytes (wellFormed : WellFormed data size) {dst : Word} {offset left i : Nat} (suitable : Suitable data p pageDir)
    (inside : ∀ k, i ≤ k → k < i + left → dst.toNat + k < 2 ^ 32 ∧ InProgram data (dst + BitVec.ofNat 32 k)) :
    (Loading.copyBytes data pageDir dst offset left i p).Meets (fun _ => True)
      (Stored data pageDir dst i left (fun k => data (offset + k)) p) := by
  have all : (Loading.copyBytes data pageDir dst offset left i p).Meets (fun _ => True)
      (Stored data pageDir dst i (i + left - i) (fun k => data (offset + k)) p) := by
    refine copyBytes_meets (fun k => Stored data pageDir dst i (k - i) (fun k => data (offset + k)) p)
      (fun k q lower upper soFar => ⟨trivial, ?_⟩) ?_
    · exact Stored.store wellFormed (fun k => data (offset + k)) inside lower upper soFar
    · rw [Nat.sub_self]
      exact .nil suitable
  rwa [Nat.add_sub_cancel_left] at all

theorem Suitable.clearBytes (wellFormed : WellFormed data size) {dst : Word} {left i : Nat} (suitable : Suitable data p pageDir)
    (inside : ∀ k, i ≤ k → k < i + left → dst.toNat + k < 2 ^ 32 ∧ InProgram data (dst + BitVec.ofNat 32 k)) :
    (Loading.clearBytes pageDir dst left i p).Meets (fun _ => True) (Stored data pageDir dst i left (fun _ => 0) p) := by
  have all : (Loading.clearBytes pageDir dst left i p).Meets (fun _ => True)
      (Stored data pageDir dst i (i + left - i) (fun _ => 0) p) := by
    refine clearBytes_meets (fun k => Stored data pageDir dst i (k - i) (fun _ => 0) p) (fun k q lower upper soFar => ?_) ?_
    · exact Stored.store wellFormed (fun _ => 0) inside lower upper soFar
    · rw [Nat.sub_self]
      exact .nil suitable
  rwa [Nat.add_sub_cancel_left] at all

end Bytes

section Load

/-- A segment that was loaded. -/
structure SegmentLoaded (data : Bytes) (pageDir : Word) (i : Nat) (p q : Paging) : Prop where
  suitable : Suitable data q pageDir
  values : ∀ k < (memszOf data i).toNat, Shows q pageDir (byteOf data i k) (contentOf data i k)
  others : ∀ other byte, InProgram data other → ¬ SegmentPage data (phdrOf data i) other → Shows p pageDir other byte →
    Shows q pageDir other byte

theorem loadSegment_loaded (wellFormed : WellFormed data size) {i : Nat} (bound : i < (phnumOf data).toNat)
    (needed : Loadable data i → Suitable data p pageDir) (brk : Word) :
    (loadSegment data size pageDir (phdrOf data i) p brk).Meets (fun _ => True) fun turn => turn.goesOn = true →
      (Loads data (phdrOf data i) → SegmentLoaded data pageDir i p turn.mm ∧
        turn.brk = if vaddrOf data i + memszOf data i > brk then vaddrOf data i + memszOf data i else brk) ∧
      (¬ Loads data (phdrOf data i) → turn.mm = p ∧ turn.brk = brk) := by
  refine loadSegment_meets (fun _ _ => trivial) ?_ (fun _ _ => Bool.false_ne_true.elim) ?_
  · exact fun skipped _ => ⟨fun loads => absurd loads skipped, fun _ => ⟨rfl, rfl⟩⟩
  · intro loads _
    have loadable : Loadable data i := ⟨bound, loads⟩
    have suitable := needed loadable
    have ends := wellFormed.user i loadable
    have sizes := wellFormed.sizes i loadable
    have base : kernelVirtualBase.toNat = 0xC0000000 := rfl
    refine (suitable.mapPages wellFormed loadable (page_pageOf _) (Nat.le_refl _)).imp ?_
    rintro ⟨_, mapped⟩ ⟨fine, kept⟩
    refine ⟨fun _ => Bool.false_ne_true.elim, fun _ => ?_⟩
    have inside (k : Nat) (small : k < (memszOf data i).toNat) : InProgram data (byteOf data i k) :=
      ⟨i, loadable, wellFormed.segmentPage loadable small⟩
    have away {other : Word} (outside : ¬ SegmentPage data (phdrOf data i) other) (k : Nat) (small : k < (memszOf data i).toNat) :
        other ≠ byteOf data i k := by
      rintro rfl
      exact outside (wellFormed.segmentPage loadable small)
    have places (k : Nat) : vaddrOf data i + fileszOf data i + BitVec.ofNat 32 k = byteOf data i ((fileszOf data i).toNat + k) := by
      rw [byteOf, BitVec.ofNat_add, BitVec.ofNat_toNat, BitVec.setWidth_eq, BitVec.add_assoc]
    -- the rest of the segment is cleared after its bytes of the file are there
    have cleared (copied : Paging)
        (file : Stored data pageDir (vaddrOf data i) 0 (fileszOf data i).toNat (fun k => data ((offsetOf data i).toNat + k)) mapped
          copied) :
        (clearBss pageDir (vaddrOf data i) (fileszOf data i) (memszOf data i) copied).Meets (fun _ => True)
          (SegmentLoaded data pageDir i p) := by
      have first (k : Nat) (small : k < (fileszOf data i).toNat) : Shows copied pageDir (byteOf data i k) (contentOf data i k) := by
        rw [contentOf, if_pos small]
        exact file.values k (Nat.zero_le k) (by omega)
      have others (other : Word) (byte : Byte) (insideOther : InProgram data other)
          (outside : ¬ SegmentPage data (phdrOf data i) other) (shows_ : Shows p pageDir other byte) :
          Shows copied pageDir other byte :=
        file.others other byte insideOther (fun k _ small => away outside k (by omega))
          (shows_.keeps wellFormed suitable kept insideOther)
      rw [clearBss]
      split
      · next larger =>
        have amount := BitVec.toNat_sub_of_le (BitVec.le_of_lt larger)
        refine (file.suitable.clearBytes wellFormed fun k _ small => ?_).imp ?_
        · rw [places]
          refine ⟨?_, inside _ (by omega)⟩
          rw [BitVec.toNat_add]
          omega
        intro last rest
        refine ⟨rest.suitable, ?_, ?_⟩
        · intro k small
          by_cases file_byte : k < (fileszOf data i).toNat
          · refine rest.others _ _ (inside k small) ?_ (first k file_byte)
            intro l _ before same
            rw [places] at same
            have values := congrArg BitVec.toNat same
            rw [byteOf, byteOf, BitVec.toNat_add, BitVec.toNat_add, BitVec.toNat_ofNat, BitVec.toNat_ofNat] at values
            omega
          · have zero := rest.values (k - (fileszOf data i).toNat) (Nat.zero_le _) (by omega)
            rw [places, Nat.add_sub_cancel' (Nat.le_of_not_lt file_byte)] at zero
            rw [contentOf, if_neg file_byte]
            exact zero
        · intro other byte insideOther outside shows_
          refine rest.others other byte insideOther (fun k _ small => ?_) (others other byte insideOther outside shows_)
          rw [places]
          exact away outside _ (by omega)
      · next same =>
        refine .pure ⟨file.suitable, fun k small => first k ?_, others⟩
        rw [gt_iff_lt, BitVec.lt_def] at same
        omega
    refine copyFile_meets (fun _ _ => trivial) ?_ (fun _ _ => ⟨fun _ => Bool.false_ne_true.elim, Bool.false_ne_true.elim⟩) ?_
    · intro empty
      have nothing : (fileszOf data i).toNat = 0 := congrArg BitVec.toNat empty
      refine ⟨Bool.false_ne_true.symm.elim, fun _ => (cleared mapped ?_).imp fun last spec _ =>
        ⟨fun _ => ⟨spec, rfl⟩, fun skipped => absurd loads skipped⟩⟩
      rw [nothing]
      exact .nil fine
    · intro _ _
      refine (fine.copyBytes wellFormed fun k _ small => ?_).imp ?_
      · rw [Nat.zero_add] at small
        change k < (fileszOf data i).toNat at small
        refine ⟨?_, inside k (by omega)⟩
        change (vaddrOf data i).toNat + k < 2 ^ 32
        omega
      · intro copied file
        exact ⟨Bool.false_ne_true.symm.elim, fun _ => (cleared copied file).imp fun last spec _ =>
          ⟨fun _ => ⟨spec, rfl⟩, fun skipped => absurd loads skipped⟩⟩

/-- The largest end of a segment so far. -/
structure BrkSoFar (data : Bytes) (i : Nat) (brk : Word) : Prop where
  bounds : ∀ j < i, Loadable data j → (vaddrOf data j).toNat + (memszOf data j).toNat ≤ brk.toNat
  least : brk = 0 ∨ ∃ j < i, Loadable data j ∧ brk.toNat = (vaddrOf data j).toNat + (memszOf data j).toNat

theorem BrkSoFar.next (wellFormed : WellFormed data size) {i : Nat} {brk : Word} (soFar : BrkSoFar data i brk)
    (loadable : Loadable data i) :
    BrkSoFar data (i + 1) (if vaddrOf data i + memszOf data i > brk then vaddrOf data i + memszOf data i else brk) := by
  have ends := wellFormed.user i loadable
  have base : kernelVirtualBase.toNat = 0xC0000000 := rfl
  have sum : (vaddrOf data i + memszOf data i).toNat = (vaddrOf data i).toNat + (memszOf data i).toNat := by
    rw [BitVec.toNat_add]
    omega
  split
  · next larger =>
    rw [gt_iff_lt, BitVec.lt_def, sum] at larger
    refine ⟨?_, .inr ⟨i, Nat.lt_succ_self i, loadable, sum⟩⟩
    intro j earlier other
    rw [sum]
    rcases Nat.lt_succ_iff_lt_or_eq.mp earlier with before | rfl
    · have bound := soFar.bounds j before other
      omega
    · exact Nat.le_refl _
  · next smaller =>
    rw [gt_iff_lt, BitVec.lt_def, sum, Nat.not_lt] at smaller
    refine ⟨?_, soFar.least.imp_right fun ⟨j, before, found⟩ => ⟨j, Nat.lt_succ_of_lt before, found⟩⟩
    intro j earlier other
    rcases Nat.lt_succ_iff_lt_or_eq.mp earlier with before | rfl
    · exact soFar.bounds j before other
    · exact smaller

/-- The segments before this one are loaded. -/
structure Progress (data : Bytes) (pageDir : Word) (i : Nat) (p : Paging) (brk : Word) : Prop where
  suitable : (∃ j, Loadable data j) → Suitable data p pageDir
  values : ∀ j < i, Loadable data j → ∀ k < (memszOf data j).toNat, Shows p pageDir (byteOf data j k) (contentOf data j k)
  brk : BrkSoFar data i brk

theorem loadSegments_loaded (wellFormed : WellFormed data size) {left i : Nat} (total : i + left = (phnumOf data).toNat)
    {brk : Word} (progress : Progress data pageDir i p brk) :
    (loadSegments data size pageDir (phoffOf data).toNat left i p brk).Meets (fun _ => True) fun turn => turn.goesOn = true →
      Progress data pageDir (phnumOf data).toNat turn.mm turn.brk := by
  refine loadSegments_meets (fun k brk q => Progress data pageDir k q brk) (fun k q brk _ upper soFar => ?_)
    (fun q brk last _ => total ▸ last) progress
  have bound : k < (phnumOf data).toNat := by omega
  refine (loadSegment_loaded wellFormed bound (fun loadable => soFar.suitable ⟨k, loadable⟩) brk).imp fun turn spec =>
    ⟨fun stopped goes => absurd (stopped.symm.trans goes) (by decide), fun goes => ?_⟩
  obtain ⟨loaded, skipped⟩ := spec goes
  by_cases loads : Loads data (phdrOf data k)
  · obtain ⟨segment, same⟩ := loaded loads
    have loadable : Loadable data k := ⟨bound, loads⟩
    rw [same]
    refine ⟨fun _ => segment.suitable, ?_, soFar.brk.next wellFormed loadable⟩
    intro j earlier other l small
    rcases Nat.lt_succ_iff_lt_or_eq.mp earlier with before | rfl
    · have there := wellFormed.segmentPage other small
      refine segment.others _ _ ⟨j, other, there⟩ (fun again => ?_) (soFar.values j before other l small)
      exact absurd (wellFormed.page_once other loadable there again rfl) (Nat.ne_of_lt before)
    · exact segment.values l small
  · obtain ⟨same, sameBrk⟩ := skipped loads
    have earlier {j : Nat} (small : j < k + 1) (other : Loadable data j) : j < k := by
      refine (Nat.lt_succ_iff_lt_or_eq.mp small).resolve_right ?_
      rintro rfl
      exact loads other.2
    rw [same, sameBrk]
    refine ⟨soFar.suitable, fun j small other => soFar.values j (earlier small other) other, ?_, ?_⟩
    · exact fun j small other => soFar.brk.bounds j (earlier small other) other
    · exact soFar.brk.least.imp_right fun ⟨j, before, found⟩ => ⟨j, Nat.lt_succ_of_lt before, found⟩

theorem BrkSoFar.isBrk {brk : Word} (wellFormed : WellFormed data size) (topped : Topped data)
    (soFar : BrkSoFar data (phnumOf data).toNat brk) : IsBrk data (pageOf (brk + 0xFFF)) := by
  have base : kernelVirtualBase.toNat = 0xC0000000 := rfl
  have small : brk.toNat ≤ kernelVirtualBase.toNat := by
    rcases soFar.least with rfl | ⟨j, bound, loadable, same⟩
    · exact Nat.zero_le _
    · rw [same]
      exact wellFormed.user j loadable
  have rounded : (pageOf (brk + 0xFFF)).toNat = (brk.toNat + 4095) / 4096 * 4096 := by
    have amount : (0xFFF : Word).toNat = 4095 := rfl
    rw [toNat_pageOf, BitVec.toNat_add, amount]
    omega
  have covers (j : Nat) (loadable : Loadable data j) :
      ((vaddrOf data j).toNat + (memszOf data j).toNat + 4095) / 4096 * 4096 ≤ (pageOf (brk + 0xFFF)).toNat := by
    have bound := soFar.bounds j loadable.1 loadable
    omega
  constructor
  · intro i bound load
    by_cases empty : memszOf data i = 0
    · have nothing : (memszOf data i).toNat = 0 := congrArg BitVec.toNat empty
      rcases topped i bound load empty with zero | ⟨j, loadable, below⟩
      · have start : (vaddrOf data i).toNat = 0 := congrArg BitVec.toNat zero
        omega
      · have above := covers j loadable
        omega
    · have above := covers i ⟨bound, load, empty⟩
      omega
  · rcases soFar.least with rfl | ⟨j, bound, loadable, same⟩
    · exact .inl (by decide)
    · refine .inr ⟨j, bound, loadable.2.1, ?_⟩
      rw [rounded, same]

/-- Into an active directory a program is loaded as its file says; a file without
a segment to load needs no directory. -/
theorem elf_load_image {result after : ElfLoadResult} (wellFormed : WellFormed data size) (topped : Topped data)
    (suitable : (∃ i, Loadable data i) → Suitable data p pageDir) (loaded : (elfLoad data size pageDir p result).value = some (0, after, q)) :
    Image data q pageDir after := by
  have spec : (elfLoad data size pageDir p result).Meets (fun _ => True) fun outcome => outcome.1 = 0 →
      Image data outcome.2.2 pageDir outcome.2.1 := by
    have minus : (-1 : Int) ≠ 0 := by decide
    refine elfLoad_meets (fun _ _ _ => trivial) (fun impossible => absurd impossible minus) fun _ => ?_
    refine (loadSegments_loaded wellFormed (Nat.zero_add _) ⟨suitable, fun _ impossible => by omega, ?_⟩).imp ?_
    · exact ⟨fun _ impossible => by omega, .inl rfl⟩
    intro turn spec
    refine ⟨fun _ impossible => absurd impossible minus, fun on _ => ?_⟩
    have progress := spec on
    refine ⟨fun i loadable => progress.values i loadable.1 loadable, ?_, rfl, progress.brk.isBrk wellFormed topped⟩
    intro i loadable k small entry found
    exact (progress.suitable ⟨i, loadable⟩).pages i loadable _ (wellFormed.segmentPage loadable small) entry found
  exact spec.returns _ loaded rfl

/-- A program of one byte, the first of its own file. -/
def oneByte : Bytes :=
  (((((((((Bytes.zero.setWord 0 0x464C457F).setWord 4 0x101).setWord 16 0x30002).setWord 28 52).setWord 44 1).setWord 52 1).setWord
    60 0x8048000).setWord 68 1).setWord 72 1).setWord 76 5

theorem oneByte_loadable {i : Nat} (loadable : Loadable oneByte i) : i = 0 := by
  have bound := loadable.1
  have count : (phnumOf oneByte).toNat = 1 := by decide
  omega

theorem oneByte_wellFormed : WellFormed oneByte 84 := by
  refine ⟨?_, ?_, ?_, ?_⟩
  · intro i loadable
    obtain rfl := oneByte_loadable loadable
    decide
  · intro i loadable
    obtain rfl := oneByte_loadable loadable
    decide
  · intro i loadable
    obtain rfl := oneByte_loadable loadable
    decide
  · intro i j one other different
    exact absurd ((oneByte_loadable one).trans (oneByte_loadable other).symm) different

theorem oneByte_topped : Topped oneByte := by
  intro i bound _ empty
  have count : (phnumOf oneByte).toNat = 1 := by decide
  obtain rfl : i = 0 := by omega
  have some_memory : memszOf oneByte 0 ≠ 0 := by decide
  exact absurd empty some_memory

theorem oneByte_zero : Loadable oneByte 0 := ⟨by decide, by decide⟩

/-- A machine of 31 free frames, the first of which will be the active directory. -/
def activeMachine : Paging := { smallMachine with cr3 := 0x1000, paging := true }

theorem activeMachine_settled : activeMachine.Settled :=
  ⟨⟨smallMachine_ready.null, fun block known free => smallMachine_ready.storage block ⟨known.page, known.bound⟩ free,
    smallMachine_ready.kernel⟩, fun impossible => absurd rfl impossible⟩

theorem activeMachine_suitable : Suitable oneByte activeMachine.createAddressSpace.2 0x1000 := by
  have created : activeMachine.createAddressSpace.1 = 0x1000 := by decide
  have nonnull : activeMachine.createAddressSpace.1 ≠ 0 := by
    rw [created]
    decide
  have standing := activeMachine_settled.standing nonnull .refl
  have opened := activeMachine_settled.toReady.opened nonnull
  have statics := activeMachine.sameStatics_createAddressSpace
  rw [created] at standing opened
  have absent (index : Word) (user : index.toNat < 768) :
      ¬ activeMachine.createAddressSpace.2.entry 0x1000 index &&& pagePresent ≠ 0 := by
    rw [opened.empty index user]
    decide
  have user (i : Nat) (loadable : Loadable oneByte i) (address : Word) (there : SegmentPage oneByte (phdrOf oneByte i) address) :
      (pageDirectoryIndex address).toNat < 768 :=
    pageDirectoryIndex_user (oneByte_wellFormed.page_user loadable there)
  have unmapped (address : Word) (inside : InProgram oneByte address) :
      activeMachine.createAddressSpace.2.translation 0x1000 address = none := by
    obtain ⟨i, loadable, there⟩ := inside
    exact translation_absent (not_not.mp (absent _ (user i loadable address there)))
  refine ⟨standing.guarded statics.paging statics.cr3, ?_, ?_, ?_, ?_⟩
  · exact fun i j table i_user _ first _ => absurd first.present (absent i i_user)
  · intro first second entry other inside _ found
    rw [unmapped first inside] at found
    cases found
  · intro i loadable address there entry found
    rw [unmapped address ⟨i, loadable, there⟩] at found
    cases found
  · exact fun i loadable address there present => absurd present (absent _ (user i loadable address there))

/-- In a new directory that is active the program is found. -/
theorem elf_load_image_oneByte : ∃ after q,
    (elfLoad oneByte 84 0x1000 activeMachine.createAddressSpace.2 ⟨0, 0⟩).value = some (0, after, q) ∧
      Image oneByte q 0x1000 after := by
  have done : (elfLoad oneByte 84 0x1000 activeMachine.createAddressSpace.2 ⟨0, 0⟩).value.map (fun outcome => outcome.1) =
      some 0 := by decide +kernel
  obtain ⟨⟨ret, after, q⟩, loaded, zero⟩ := Option.map_eq_some_iff.mp done
  obtain rfl : ret = 0 := zero
  exact ⟨after, q, loaded, elf_load_image oneByte_wellFormed oneByte_topped (fun _ => activeMachine_suitable) loaded⟩

/-- In a directory that is not active the page stays as it was: the byte goes to
the active one. -/
theorem elf_load_elsewhere : ¬ ∀ data size p pageDir result after q, WellFormed data size → Topped data →
    Orderly data p pageDir → (elfLoad data size pageDir p result).value = some (0, after, q) → Image data q pageDir after := by
  intro image
  have done : (elfLoad oneByte 84 0x4000 (holedPage 0x8048000) ⟨0, 0⟩).value.map
      (fun outcome => (outcome.1, outcome.2.2.mem 0x6000, outcome.2.2.translation 0x4000 0x8048000)) =
      some (0, 0, some 0x6005) := by decide +kernel
  obtain ⟨⟨ret, after, q⟩, loaded, facts⟩ := Option.map_eq_some_iff.mp done
  simp only [Prod.mk.injEq] at facts
  obtain ⟨rfl, byte, found⟩ := facts
  have loadedImage := image oneByte 84 _ 0x4000 ⟨0, 0⟩ after q oneByte_wellFormed oneByte_topped
    (orderly_holedPage oneByte 0x8048000) loaded
  have place : byteOf oneByte 0 0 = 0x8048000 := by decide +kernel
  have content : contentOf oneByte 0 0 = 0x7F := by decide +kernel
  obtain ⟨entry, translated, value⟩ := loadedImage.bytes 0 oneByte_zero 0 (by decide +kernel)
  rw [place, found] at translated
  rw [place, content, ← Option.some.inj translated] at value
  have frame : pageOf (0x6005 : Word) ||| ((0x8048000 : Word) &&& 0xFFF) = 0x6000 := by decide
  rw [frame, byte] at value
  exact absurd value (by decide)

end Load

end MexOS.Core.Loading
