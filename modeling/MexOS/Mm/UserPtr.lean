import MexOS.Mm.Vmm

/-! What an accepting `vmm_check_user_ptr` guarantees about the range it was
asked about. -/

namespace MexOS.Mm

open MexOS.Machine

namespace Vmm

/-- The two-level walk of the processor: both entries must be present and
allow the access. -/
def Grants (vmm : Vmm) (address : Word) (write : Bool) : Prop :=
  let directory := vmm.directoryEntry vmm.currentDirectory address
  let entry := vmm.tableEntry directory address
  (directory &&& pagePresent ≠ 0 ∧ directory &&& pageUser ≠ 0 ∧
    (write = true → directory &&& pageWrite ≠ 0)) ∧
  entry &&& pagePresent ≠ 0 ∧ entry &&& pageUser ≠ 0 ∧ (write = true → entry &&& pageWrite ≠ 0)

/-- Every byte of the range, taken without wrapping, is user memory that the
access is allowed to touch. -/
def RangeGranted (vmm : Vmm) (ptr len : Word) (write : Bool) : Prop :=
  ∀ address : Nat, ptr.toNat ≤ address → address < ptr.toNat + len.toNat →
    address ≤ userSpaceEnd.toNat ∧ vmm.Grants (BitVec.ofNat 32 address) write

/-- The last address as the code computes it, modulo `2 ^ 32`. -/
def lastAddress (ptr len : Word) : Word := ptr + len - 1

/-- The pages that the loop looks at. -/
def Scanned (ptr len page : Word) : Prop :=
  page.toNat % 4096 = 0 ∧ ptr &&& ~~~0xFFF ≤ page ∧ page ≤ lastAddress ptr len

private theorem aligned_down (address : Word) :
    (address &&& ~~~0xFFF).toNat = address.toNat / 4096 * 4096 := toNat_and_not_mask address 12

theorem checkPages_spec (vmm : Vmm) (pageDir : Word) (write : Bool) (fuel : Nat) {last page : Word}
    (aligned : page.toNat % 4096 = 0) (room : last.toNat + 4096 < 2 ^ 32)
    (enough : last.toNat < page.toNat + 4096 * fuel) :
    ∃ answer, vmm.checkPages pageDir last write (fuel + 1) page = some answer ∧
      (answer = true ↔ ∀ other : Word, other.toNat % 4096 = 0 → page ≤ other → other ≤ last →
        vmm.checkPage pageDir other write = true) := by
  induction fuel generalizing page with
  | zero =>
    have past : ¬ page ≤ last := by bv_omega
    refine ⟨true, by simp [checkPages, past], ?_⟩
    simp only [true_iff]
    intro other _ above below
    exact absurd (BitVec.le_trans above below) past
  | succ fuel ih =>
    rw [checkPages]
    by_cases inside : page ≤ last
    · simp only [inside, ↓reduceIte]
      have next : (page + pageSize).toNat = page.toNat + 4096 := by
        unfold pageSize
        bv_omega
      by_cases passes : vmm.checkPage pageDir page write = true
      · obtain ⟨answer, returned, exactly⟩ := @ih (page + pageSize) (by omega) (by omega)
        refine ⟨answer, by simp [passes, returned], exactly.trans ?_⟩
        constructor
        · intro later other multiple above below
          by_cases same : other = page
          · subst other
            exact passes
          · apply later other multiple _ below
            have strict : page.toNat < other.toNat := by
              have distinct : other.toNat ≠ page.toNat := fun equal => same (BitVec.eq_of_toNat_eq equal)
              have weak : page.toNat ≤ other.toNat := above
              omega
            rw [BitVec.le_def, next]
            omega
        · intro every other multiple above below
          rw [BitVec.le_def, next] at above
          exact every other multiple (BitVec.le_def.mpr (by omega)) below
      · refine ⟨false, by simp [passes], ?_⟩
        constructor
        · simp
        · intro every
          exact absurd (every page aligned (BitVec.le_refl page) inside) passes
    · simp only [inside, ↓reduceIte]
      refine ⟨true, rfl, ?_⟩
      simp only [true_iff]
      intro other _ above below
      exact absurd (BitVec.le_trans above below) inside

/-- `vmm_check_user_ptr` always answers, and accepts exactly the ranges whose
ends are user addresses and whose scanned pages pass. -/
theorem checkUserPtr_spec (vmm : Vmm) (ptr len : Word) (write : Bool) (sized : len ≠ 0) :
    ∃ answer, vmm.checkUserPtr ptr len write = some answer ∧
      (answer = true ↔ ptr ≠ 0 ∧ ptr ≤ userSpaceEnd ∧ lastAddress ptr len ≤ userSpaceEnd ∧
        vmm.currentDirectory ≠ 0 ∧
        ∀ page, Scanned ptr len page → vmm.checkPage vmm.currentDirectory page write = true) := by
  by_cases null : ptr = 0
  · exact ⟨false, by rw [checkUserPtr, if_pos null], by simp [null]⟩
  by_cases outside : userSpaceEnd < ptr ∨ userSpaceEnd < lastAddress ptr len
  · refine ⟨false, by rw [checkUserPtr, if_neg null, if_neg sized]; exact if_pos outside, ?_⟩
    simp only [Bool.false_eq_true, false_iff]
    rintro ⟨_, low, high, _⟩
    rcases outside with above | above
    · exact absurd low (BitVec.not_le.mpr above)
    · exact absurd high (BitVec.not_le.mpr above)
  by_cases unset : vmm.currentDirectory = 0
  · refine ⟨false, ?_, by simp [unset]⟩
    rw [checkUserPtr, if_neg null, if_neg sized]
    exact (if_neg outside).trans (if_pos unset)
  have inside : ptr ≤ userSpaceEnd ∧ lastAddress ptr len ≤ userSpaceEnd := by
    rw [not_or, BitVec.not_lt, BitVec.not_lt] at outside
    exact outside
  have first : (ptr &&& ~~~0xFFF).toNat % 4096 = 0 := by
    rw [aligned_down]
    omega
  have room : (lastAddress ptr len).toNat + 4096 < 2 ^ 32 := by
    have bound : (lastAddress ptr len).toNat ≤ 0xBFFFFFFF := inside.2
    omega
  obtain ⟨answer, returned, exactly⟩ := checkPages_spec vmm vmm.currentDirectory write
    (2 ^ 20) first room (by omega)
  refine ⟨answer, ?_, ?_⟩
  · rw [checkUserPtr, if_neg null, if_neg sized]
    exact (if_neg outside).trans ((if_neg unset).trans returned)
  · rw [exactly]
    constructor
    · intro passes
      exact ⟨null, inside.1, inside.2, unset,
        fun page scanned => passes page scanned.1 scanned.2.1 scanned.2.2⟩
    · rintro ⟨_, _, _, _, passes⟩ page multiple above below
      exact passes page ⟨multiple, above, below⟩

/-- The walk only depends on the page of an address. -/
theorem directoryEntry_page (vmm : Vmm) (pageDir address : Word) :
    vmm.directoryEntry pageDir (address &&& ~~~0xFFF) = vmm.directoryEntry pageDir address := by
  have index : (address &&& ~~~0xFFF) >>> 22 = address >>> 22 := by
    apply BitVec.eq_of_toNat_eq
    rw [BitVec.toNat_ushiftRight, BitVec.toNat_ushiftRight, aligned_down,
      Nat.shiftRight_eq_div_pow, Nat.shiftRight_eq_div_pow]
    omega
  rw [directoryEntry, directoryEntry, pageDirectoryIndex, pageDirectoryIndex, index]

theorem tableEntry_page (vmm : Vmm) (entry address : Word) :
    vmm.tableEntry entry (address &&& ~~~0xFFF) = vmm.tableEntry entry address := by
  have index : (address &&& ~~~0xFFF) >>> 12 = address >>> 12 := by
    apply BitVec.eq_of_toNat_eq
    rw [BitVec.toNat_ushiftRight, BitVec.toNat_ushiftRight, aligned_down,
      Nat.shiftRight_eq_div_pow, Nat.shiftRight_eq_div_pow]
    omega
  rw [tableEntry, tableEntry, pageTableIndex, pageTableIndex, index]

theorem grants_page (vmm : Vmm) (address : Word) (write : Bool) :
    vmm.Grants (address &&& ~~~0xFFF) write ↔ vmm.Grants address write := by
  simp only [Grants, directoryEntry_page, tableEntry_page]

/-- What the directory entry of a page adds to the test of its table entry. -/
def DirectoryGrants (vmm : Vmm) (page : Word) (write : Bool) : Prop :=
  let directory := vmm.directoryEntry vmm.currentDirectory page
  directory &&& pageUser ≠ 0 ∧ (write = true → directory &&& pageWrite ≠ 0)

theorem grants_of_checkPage {vmm : Vmm} {page : Word} {write : Bool}
    (passes : vmm.checkPage vmm.currentDirectory page write = true) :
    vmm.Grants page write ↔ vmm.DirectoryGrants page write := by
  simp only [checkPage] at passes
  split at passes
  · simp at passes
  split at passes
  · simp at passes
  split at passes
  · simp at passes
  split at passes
  · simp at passes
  rename_i directory entry user writable
  have allowed : write = true →
      vmm.tableEntry (vmm.directoryEntry vmm.currentDirectory page) page &&& pageWrite ≠ 0 := by
    intro wanted
    simpa [wanted] using writable
  constructor
  · intro granted
    exact ⟨granted.1.2.1, granted.1.2.2⟩
  · intro granted
    exact ⟨⟨directory, granted.1, granted.2⟩, entry, user, allowed⟩

/-- A page the loop looks at holds a byte of the range. -/
theorem Scanned.byte {ptr len page : Word} (scanned : Scanned ptr len page)
    (straight : ptr.toNat + len.toNat ≤ 2 ^ 32) (sized : len ≠ 0) :
    ∃ address : Word, ptr.toNat ≤ address.toNat ∧ address.toNat < ptr.toNat + len.toNat ∧
      address &&& ~~~0xFFF = page := by
  have positive : 0 < len.toNat := by
    have nonzero : len.toNat ≠ 0 := fun zero => sized (BitVec.eq_of_toNat_eq zero)
    omega
  have last : (lastAddress ptr len).toNat = ptr.toNat + len.toNat - 1 := by
    unfold lastAddress
    bv_omega
  obtain ⟨multiple, above, below⟩ := scanned
  rw [BitVec.le_def, aligned_down] at above
  rw [BitVec.le_def, last] at below
  by_cases early : page.toNat ≤ ptr.toNat
  · refine ⟨ptr, by omega, by omega, BitVec.eq_of_toNat_eq ?_⟩
    rw [aligned_down]
    omega
  · refine ⟨page, by omega, by omega, BitVec.eq_of_toNat_eq ?_⟩
    rw [aligned_down]
    omega

/-- Every byte of a range that does not wrap lies in a scanned page. -/
theorem scanned_of_byte {ptr len : Word} {address : Nat} (straight : ptr.toNat + len.toNat ≤ 2 ^ 32)
    (above : ptr.toNat ≤ address) (below : address < ptr.toNat + len.toNat) :
    Scanned ptr len (BitVec.ofNat 32 address &&& ~~~0xFFF) := by
  have value : (BitVec.ofNat 32 address).toNat = address := by
    rw [BitVec.toNat_ofNat]
    omega
  have last : (lastAddress ptr len).toNat = ptr.toNat + len.toNat - 1 := by
    unfold lastAddress
    bv_omega
  refine ⟨?_, ?_, ?_⟩
  · rw [aligned_down]
    omega
  · rw [BitVec.le_def, aligned_down, aligned_down, value]
    omega
  · rw [BitVec.le_def, aligned_down, value, last]
    omega

/-- When an accepted range is safe: the call is refused before or during the
scan, or the range does not wrap and the directory entries allow the access
that the loop only looks for in the table entries. -/
def CheckIsSound (vmm : Vmm) (ptr len : Word) (write : Bool) : Prop :=
  ptr = 0 ∨ userSpaceEnd < ptr ∨ userSpaceEnd < lastAddress ptr len ∨ vmm.currentDirectory = 0 ∨
    (∃ page, Scanned ptr len page ∧ vmm.checkPage vmm.currentDirectory page write = false) ∨
    (ptr.toNat + len.toNat ≤ 2 ^ 32 ∧
      ∀ page, Scanned ptr len page → vmm.DirectoryGrants page write)

/-- An accepted range is granted byte for byte exactly under `CheckIsSound`. -/
theorem user_ptr_check_sound_iff (vmm : Vmm) (ptr len : Word) (write : Bool) (sized : len ≠ 0) :
    (vmm.checkUserPtr ptr len write = some true → vmm.RangeGranted ptr len write) ↔
      vmm.CheckIsSound ptr len write := by
  obtain ⟨answer, returned, exactly⟩ := checkUserPtr_spec vmm ptr len write sized
  rw [returned]
  constructor
  · intro safe
    by_cases accepted : answer = true
    · obtain ⟨_, low, high, _, passes⟩ := exactly.mp accepted
      have granted := safe (by rw [accepted])
      have positive : 0 < len.toNat := by
        have nonzero : len.toNat ≠ 0 := fun zero => sized (BitVec.eq_of_toNat_eq zero)
        omega
      have straight : ptr.toNat + len.toNat ≤ 2 ^ 32 := by
        have final := (granted (ptr.toNat + len.toNat - 1) (by omega) (by omega)).1
        have top : userSpaceEnd.toNat < 2 ^ 32 := userSpaceEnd.isLt
        omega
      refine .inr (.inr (.inr (.inr (.inr ⟨straight, ?_⟩))))
      intro page scanned
      obtain ⟨address, above, below, same⟩ := scanned.byte straight sized
      have reached := (granted address.toNat above below).2
      rw [BitVec.ofNat_toNat, BitVec.setWidth_eq, ← grants_page, same] at reached
      exact (grants_of_checkPage (passes page scanned)).mp reached
    · have refused : ¬ (ptr ≠ 0 ∧ ptr ≤ userSpaceEnd ∧ lastAddress ptr len ≤ userSpaceEnd ∧
          vmm.currentDirectory ≠ 0 ∧ ∀ page, Scanned ptr len page →
            vmm.checkPage vmm.currentDirectory page write = true) := fun all => accepted (exactly.mpr all)
      by_contra unsound
      simp only [CheckIsSound, not_or, BitVec.not_lt] at unsound
      obtain ⟨null, low, high, unset, fails, _⟩ := unsound
      refine refused ⟨null, low, high, unset, ?_⟩
      intro page scanned
      by_contra failing
      exact fails ⟨page, scanned, by simpa using failing⟩
  · intro sound accepted address above below
    obtain ⟨null, low, high, unset, passes⟩ := exactly.mp (Option.some.inj accepted)
    rcases sound with zero | outside | outside | zero | ⟨page, scanned, fails⟩ | ⟨straight, grants⟩
    · exact absurd zero null
    · exact absurd low (BitVec.not_le.mpr outside)
    · exact absurd high (BitVec.not_le.mpr outside)
    · exact absurd zero unset
    · exact absurd (passes page scanned) (by simp [fails])
    · have scanned := scanned_of_byte straight above below
      constructor
      · have last : (lastAddress ptr len).toNat = ptr.toNat + len.toNat - 1 := by
          unfold lastAddress
          bv_omega
        rw [BitVec.le_def, last] at high
        omega
      · rw [← grants_page]
        exact (grants_of_checkPage (passes _ scanned)).mpr (grants _ scanned)

/-- One user page at `0x5000`: directory at `0x1000`, table at `0x2000`. -/
def onePage : Vmm where
  mem := storeWords (fun _ => 0) [(0x1000, 0x2007), (0x2014, 0x9007)]
  kernelDirectory := 0x1000
  currentDirectory := 0x1000
  kernelDirectoryPhys := 0x1000

theorem user_ptr_check_sound_onePage :
    onePage.checkUserPtr 0x5004 8 true = some true ∧ onePage.RangeGranted 0x5004 8 true := by
  have accepted : onePage.checkUserPtr 0x5004 8 true = some true := by decide +kernel
  refine ⟨accepted, (user_ptr_check_sound_iff onePage 0x5004 8 true (by decide)).mpr ?_ accepted⟩
  refine .inr (.inr (.inr (.inr (.inr ⟨by decide, ?_⟩))))
  intro page scanned
  have only : page = 0x5000 := by
    obtain ⟨multiple, above, below⟩ := scanned
    have first : ((0x5004 : Word) &&& ~~~0xFFF).toNat = 0x5000 := by decide
    have last : (lastAddress 0x5004 8).toNat = 0x500b := by decide
    rw [BitVec.le_def, first] at above
    rw [BitVec.le_def, last] at below
    bv_omega
  subst page
  constructor
  · decide +kernel
  · decide +kernel

/-- A length that wraps the end below the start leaves the loop nothing to
scan: the range is accepted although no page of it is mapped. -/
theorem user_ptr_check_accepts_wrapped_range :
    let unmapped : Vmm := { onePage with mem := fun _ => 0 }
    unmapped.checkUserPtr 0xBFFFF000 0xFFFFF000 true = some true ∧
      ¬ unmapped.RangeGranted 0xBFFFF000 0xFFFFF000 true := by
  refine ⟨by decide +kernel, ?_⟩
  intro granted
  have beyond := (granted 0xC0000000 (by decide) (by decide)).1
  exact absurd beyond (by decide)

end Vmm

end MexOS.Mm
