import MexOS.Core.HoledPage

/-! The file in memory, apart from what the loader stores to. -/

namespace MexOS.Core.Loading

open MexOS.Machine MexOS.Mm MexOS.Mm.Paging Monitored

/-- A byte of a segment, of its memory or of its part of the file, goes to this
address. -/
def Destination (data : Bytes) (address : Word) : Prop :=
  ∃ i < (phnumOf data).toNat, Loads data (phdrOf data i) ∧
    ∃ k, (k < (pFileszOf data (phdrOf data i)).toNat ∨ k < (pMemszOf data (phdrOf data i)).toNat) ∧
      address = pVaddrOf data (phdrOf data i) + BitVec.ofNat 32 k

/-- What looking for a page, giving one and storing a byte of a segment keep, the
loader keeps. -/
theorem elfLoad_invariant {data : Bytes} {size pageDir : Word} {p : Paging} (inv : Paging → Prop)
    (looks : ∀ page q, inv q → inv (q.isMapped pageDir page).2)
    (gives : ∀ page flags q, flags.toNat < 0x1000 → inv q → inv (q.allocPage pageDir page flags).2)
    (stores : ∀ address value q r, Destination data address → inv q → (store pageDir q address value).value = some r → inv r)
    (start : inv p) (result : ElfLoadResult) :
    (elfLoad data size pageDir p result).Meets (fun _ => True) fun outcome => inv outcome.2.2 := by
  have stored (address : Word) (value : Byte) (q : Paging) (reached : Destination data address) (before : inv q) :
      (store pageDir q address value).Meets (fun _ => True) inv :=
    ⟨fun _ _ => trivial, fun r returned => stores address value q r reached before returned⟩
  have segment (i : Nat) (bound : i < (phnumOf data).toNat) (q : Paging) (brk : Word) (before : inv q) :
      (loadSegment data size pageDir (phdrOf data i) q brk).Meets (fun _ => True) fun turn => inv turn.mm := by
    refine loadSegment_meets (fun _ _ => trivial) (fun _ => before) (fun _ _ => before) fun loads _ => ?_
    refine (mapPages_meets (fun _ => inv) (fun page m _ fine _ => looks page m fine)
      (fun page m _ fine _ _ => ⟨trivial, gives page _ _ (segmentFlags_lt _) (looks page m fine)⟩)
      (fun page m _ fine _ _ => gives page _ _ (segmentFlags_lt _) (looks page m fine)) (fun _ _ _ => id) maxPages before).imp
      fun pages mapped => ⟨fun _ => mapped, fun _ => ?_⟩
    have cleared (m : Paging) (fine : inv m) :
        (clearBss pageDir (pVaddrOf data (phdrOf data i)) (pFileszOf data (phdrOf data i)) (pMemszOf data (phdrOf data i)) m).Meets
          (fun _ => True) inv :=
      clearBss_meets inv (fun k m _ upper => stored _ 0 m ⟨i, bound, loads, k, .inr upper, rfl⟩) fine
    refine copyFile_meets (fun _ _ => trivial) (fun _ => ⟨fun _ => mapped, fun _ => cleared _ mapped⟩)
      (fun _ _ => ⟨fun _ => mapped, fun _ => cleared _ mapped⟩) fun _ _ => ?_
    refine (copyBytes_meets (fun _ => inv) (fun k m _ upper fine => ⟨trivial, ?_⟩) mapped).imp fun m copied =>
      ⟨fun _ => copied, fun _ => cleared m copied⟩
    exact stored _ _ m ⟨i, bound, loads, k, .inl (by omega), rfl⟩ fine
  refine elfLoad_meets (fun _ _ _ => trivial) start fun _ => ?_
  refine (loadSegments_meets (fun _ _ => inv) (fun i q brk _ upper before => ?_) (fun _ _ => id) start).imp fun _ last =>
    ⟨fun _ => last, fun _ => last⟩
  exact (segment i (by omega) q brk before).imp fun _ after => ⟨fun _ => after, fun _ => after⟩

/-- Byte `k` of the file lies at the place `file k`. Its frame is in use and neither
a directory nor a table, and none of the segments' bytes goes to it. -/
structure Aside (spaces : Word → Prop) (data : Bytes) (size : Word) (file : Nat → Word) (p : Paging) : Prop where
  guarded : p.Guarded spaces 1024 (Destination data)
  held : ∀ k < size.toNat, p.Taken (pageOf (file k)) ∧ ¬ p.Structural spaces 1024 (pageOf (file k))
  missed : ∀ address entry, Destination data address → p.translation p.cr3 address = some entry →
    ∀ k < size.toNat, pageOf entry ≠ pageOf (file k)

/-- The file lies apart from what the loader stores to, when it loads into
`pageDir`. -/
def Apart (data : Bytes) (size : Word) (p : Paging) (pageDir : Word) (file : Nat → Word) : Prop :=
  Aside (fun space => space = pageDir ∨ space = p.cr3) data size file p

/-- It still does, and holds the same bytes. -/
structure Spared (spaces : Word → Prop) (data : Bytes) (size : Word) (file : Nat → Word) (p q : Paging) : Prop where
  aside : Aside spaces data size file q
  bytes : ∀ k < size.toNat, q.mem (file k) = p.mem (file k)

variable {spaces except : Word → Prop} {data : Bytes} {size pageDir : Word} {file : Nat → Word} {p q r : Paging}

theorem Spared.refl (aside : Aside spaces data size file p) : Spared spaces data size file p p := ⟨aside, fun _ _ => rfl⟩

theorem Spared.trans (first : Spared spaces data size file p q) (second : Spared spaces data size file q r) :
    Spared spaces data size file p r :=
  ⟨second.aside, fun k small => (second.bytes k small).trans (first.bytes k small)⟩

section Operations

/-- Nothing is stored in the directories, the tables and the file. -/
theorem Aside.keep (aside : Aside spaces data size file p) (preserves : Preserves except p q)
    (apart : ∀ page, p.Structural spaces 1024 page → ¬ except page) (other : ∀ k < size.toNat, ¬ except (pageOf (file k))) :
    Spared spaces data size file p q := by
  obtain ⟨guarded, same⟩ := aside.guarded.keep preserves apart
  refine ⟨⟨guarded, ?_, ?_⟩, fun k small => preserves.byte (aside.held k small).1 (other k small)⟩
  · intro k small
    obtain ⟨taken, outside⟩ := aside.held k small
    exact ⟨preserves.taken taken, fun structural => outside ((aside.guarded.keep_structural preserves apart).mp structural)⟩
  · intro address entry reached found
    rw [preserves.steady.cr3, same _ address aside.guarded.active (pageDirectoryIndex_lt address)] at found
    exact aside.missed address entry reached found

/-- A page is given a frame, and maybe a table: both were free. -/
theorem Aside.allocPage (aside : Aside spaces data size file p) (known : spaces pageDir) (page : Word) {flags : Word}
    (small : flags.toNat < 0x1000) : Spared spaces data size file p (p.allocPage pageDir page flags).2 := by
  obtain ⟨guarded, preserves, outcome⟩ := aside.guarded.allocPage known (pageDirectoryIndex_lt page) small
  rcases outcome with ⟨_, kept⟩ | ⟨_, table, block, member, free, placed⟩
  · exact aside.keep kept (fun _ _ => id) fun _ _ => id
  have frame : pageOf (block ||| (flags ||| pagePresent)) = block := by
    refine pageOf_or member.page ?_
    rw [BitVec.toNat_or]
    exact @Nat.or_lt_two_pow _ _ 12 small (by decide)
  have cr3 : (p.allocPage pageDir page flags).2.cr3 = p.cr3 := preserves.steady.cr3
  refine ⟨⟨guarded, ?_, ?_⟩, fun k inside => preserves.byte (aside.held k inside).1 (aside.held k inside).2⟩
  · intro k inside
    obtain ⟨taken, outside⟩ := aside.held k inside
    refine ⟨preserves.taken taken, ?_⟩
    rintro ⟨space, spaceKnown, same | ⟨index, below, has⟩⟩
    · exact outside ⟨space, spaceKnown, .inl same⟩
    · rcases (placed.tables space index _ spaceKnown below).mp has with before | ⟨_, _, same⟩
      · exact outside (.of_table spaceKnown below before)
      · rcases placed.fresh with before | unused
        · exact outside (same ▸ .of_table known (pageDirectoryIndex_lt page) before)
        · exact unused (same ▸ taken)
  · intro address entry reached found k inside
    have below := pageDirectoryIndex_lt address
    rw [cr3] at found
    by_cases here : (p.allocPage pageDir page flags).2.HasTable p.cr3 (pageDirectoryIndex address) table ∧
        pageTableIndex address = pageTableIndex page
    · rw [placed.there p.cr3 address aside.guarded.active below here.1 here.2] at found
      rw [← Option.some.inj found, frame]
      rintro rfl
      rw [(aside.held k inside).1.inUse] at free
      cases free
    · rw [placed.elsewhere p.cr3 address aside.guarded.active below here] at found
      exact aside.missed address entry reached found k inside

theorem Aside.store (aside : Aside spaces data size file p) {address : Word} (reached : Destination data address) {value : Byte}
    (stored : (store pageDir p address value).value = some q) : Spared spaces data size file p q := by
  obtain ⟨frame, walked, rfl⟩ := Option.map_eq_some_iff.mp stored
  have below := pageDirectoryIndex_lt address
  obtain ⟨entry, found, _, preserves, _, _⟩ := aside.guarded.storeByte below reached walked value
  refine aside.keep preserves ?_ fun k small same => aside.missed address entry reached found k small same.symm
  rintro page structural rfl
  exact (aside.guarded.frames address entry below reached found).2 structural

/-- A file that lies apart holds the same bytes from the first read to the last. -/
theorem elfLoad_keeps_file (apart : Apart data size p pageDir file) (result : ElfLoadResult) :
    (elfLoad data size pageDir p result).Meets (fun _ => True) fun outcome =>
      ∀ k < size.toNat, outcome.2.2.mem (file k) = p.mem (file k) := by
  refine (elfLoad_invariant (Spared (fun space => space = pageDir ∨ space = p.cr3) data size file p) ?_ ?_ ?_ (.refl apart)
    result).imp fun _ spared => spared.bytes
  · exact fun page q spared => spared.trans (spared.aside.keep (preserves_isMapped q pageDir page) (fun _ _ => id) fun _ _ => id)
  · exact fun page flags q small spared => spared.trans (spared.aside.allocPage (.inl rfl) page small)
  · exact fun address value q r reached spared stored => spared.trans (spared.aside.store reached stored)

end Operations

section Holed

/-- The frame at 0 holds the file of the machine that maps all pages but one to the
frame at 0x3000. -/
def lowFile (k : Nat) : Word := BitVec.ofNat 32 (k % 4096)

theorem pageOf_lowFile (k : Nat) : pageOf (lowFile k) = 0 := by
  apply BitVec.eq_of_toNat_eq
  have zero : (0 : Word).toNat = 0 := rfl
  rw [toNat_pageOf, lowFile, BitVec.toNat_ofNat, zero]
  omega

theorem apart_holedPage (data : Bytes) (size hole : Word) : Apart data size (holedPage hole) 0x4000 lowFile := by
  have holed := holed_holedPage hole
  refine ⟨holed.guarded (Nat.le_refl _) (Destination data), ?_, ?_⟩
  · intro k _
    rw [pageOf_lowFile]
    refine ⟨holed.taken (by decide) (by decide), fun structural => ?_⟩
    rcases holed.structural structural with same | same | same | same <;> exact absurd same (by decide)
  · intro address entry _ found k _
    rw [pageOf_lowFile, holed.active_translation found]
    decide

end Holed

end MexOS.Core.Loading
