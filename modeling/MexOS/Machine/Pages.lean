import MexOS.Machine.Memory

/-! Pages of memory as arrays of 1024 words. -/

namespace MexOS.Machine

/-- The address of a page. -/
def Page (address : Word) : Prop := address.toNat % 4096 = 0

instance : Decidable (Page address) := inferInstanceAs (Decidable (_ = _))

/-- The page that holds an address. -/
def pageOf (address : Word) : Word := address &&& ~~~0xFFF

/-- Word `index` of a page. -/
def pageWord (memory : Memory) (page index : Word) : Word := loadWord memory (page + 4 * index)

/-- The word at `place` shares no byte with the page. -/
def Outside (page place : Word) : Prop := 4096 ≤ (place - page).toNat ∧ 4 ≤ (page - place).toNat

instance : Decidable (Outside page place) := inferInstanceAs (Decidable (_ ∧ _))

def memset (memory : Memory) (start : Word) (value : Byte) (count : Nat) : Memory := fun place =>
  if (place - start).toNat < count then value else memory place

/-- The two ranges are the same or share no byte. -/
def memcpy (memory : Memory) (target source : Word) (count : Nat) : Memory := fun place =>
  if (place - target).toNat < count then memory (source + (place - target)) else memory place

variable {memory : Memory} {page other place index : Word}

theorem toNat_pageOf (address : Word) : (pageOf address).toNat = address.toNat / 4096 * 4096 :=
  toNat_and_not_mask address 12

theorem page_pageOf (address : Word) : Page (pageOf address) := by
  rw [Page, toNat_pageOf]
  exact Nat.mul_mod_left _ _

theorem pageOf_of_page (aligned : Page page) : pageOf page = page := by
  apply BitVec.eq_of_toNat_eq
  rw [toNat_pageOf]
  unfold Page at aligned
  omega

theorem Page.eq_of_frame (first : Page page) (second : Page other) (same : page.toNat / 4096 = other.toNat / 4096) :
    page = other := by
  apply BitVec.eq_of_toNat_eq
  unfold Page at *
  omega

/-- The low bits of a word do not change the page in its high bits. -/
theorem pageOf_or (aligned : Page page) {flags : Word} (small : flags.toNat < 4096) : pageOf (page ||| flags) = page := by
  have low : flags &&& ~~~0xFFF = 0#32 := by
    apply BitVec.eq_of_toNat_eq
    have rounded := toNat_pageOf flags
    rw [pageOf] at rounded
    rw [rounded, Nat.div_eq_of_lt small]
    rfl
  have high := pageOf_of_page aligned
  unfold pageOf at *
  rw [BitVec.and_comm, BitVec.and_or_distrib_left, BitVec.and_comm, high, BitVec.and_comm, low, BitVec.or_zero]

theorem Outside.apart (outside : Outside page place) (small : index.toNat < 1024) : Apart place (page + 4 * index) := by
  obtain ⟨behind, before⟩ := outside
  constructor <;> bv_omega

theorem outside_of_ne (first : Page page) (second : Page other) (different : page ≠ other) (small : index.toNat < 1024) :
    Outside page (other + 4 * index) := by
  have unequal : page.toNat ≠ other.toNat := fun same => different (BitVec.eq_of_toNat_eq same)
  unfold Page at first second
  constructor <;> bv_omega

theorem apart_pageWords {first second : Word} (firstSmall : first.toNat < 1024) (secondSmall : second.toNat < 1024)
    (different : first ≠ second) : Apart (page + 4 * first) (page + 4 * second) := by
  have unequal : first.toNat ≠ second.toNat := fun same => different (BitVec.eq_of_toNat_eq same)
  constructor <;> bv_omega

/-- One store changes one word of one page. -/
theorem pageWord_storeWord {value first second : Word} (aligned : Page page) (otherAligned : Page other)
    (firstSmall : first.toNat < 1024) (secondSmall : second.toNat < 1024) :
    pageWord (storeWord memory (page + 4 * first) value) other second =
      if page = other ∧ first = second then value else pageWord memory other second := by
  by_cases samePage : page = other
  · subst samePage
    by_cases sameIndex : first = second
    · subst sameIndex
      rw [if_pos ⟨rfl, rfl⟩]
      exact loadWord_storeWord_self memory _ value
    · rw [if_neg fun same => sameIndex same.2]
      exact loadWord_storeWord_apart (apart_pageWords secondSmall firstSmall (Ne.symm sameIndex))
  · rw [if_neg fun same => samePage same.1]
    have outside := outside_of_ne aligned otherAligned samePage secondSmall
    exact loadWord_storeWord_apart (outside.apart firstSmall)

theorem Outside.loadWord_storeWord (outside : Outside page place) (small : index.toNat < 1024) (value : Word) :
    loadWord (storeWord memory (page + 4 * index) value) place = loadWord memory place :=
  loadWord_storeWord_apart (outside.apart small)

theorem Outside.pageWord_storeWord (outside : Outside page place) (small : index.toNat < 1024) (value : Word) :
    pageWord (storeWord memory place value) page index = pageWord memory page index :=
  loadWord_storeWord_apart (outside.apart small).symm

private theorem Outside.lane (outside : Outside page place) {lane : Word} (small : lane.toNat < 4) :
    4096 ≤ (place + lane - page).toNat := by
  obtain ⟨behind, before⟩ := outside
  bv_omega

theorem Outside.loadWord_memset (outside : Outside page place) (value : Byte) :
    loadWord (memset memory page value 4096) place = loadWord memory place := by
  apply loadWord_congr
  intro lane small
  have far := outside.lane small
  exact if_neg (Nat.not_lt.mpr far)

theorem Outside.loadWord_memcpy (outside : Outside page place) (source : Word) :
    loadWord (memcpy memory page source 4096) place = loadWord memory place := by
  apply loadWord_congr
  intro lane small
  have far := outside.lane small
  exact if_neg (Nat.not_lt.mpr far)

private theorem pageWord_lane {lane : Word} (small : index.toNat < 1024) (laneSmall : lane.toNat < 4) :
    (page + 4 * index + lane - page).toNat < 4096 := by
  bv_omega

theorem pageWord_memset_zero (small : index.toNat < 1024) : pageWord (memset memory page 0 4096) page index = 0 := by
  have bytes : loadWord (memset memory page 0 4096) (page + 4 * index) = loadWord (fun _ => 0) (page + 4 * index) := by
    apply loadWord_congr
    intro lane laneSmall
    exact if_pos (pageWord_lane small laneSmall)
  rw [pageWord, bytes]
  simp only [loadWord]
  decide

theorem pageWord_memcpy (small : index.toNat < 1024) :
    pageWord (memcpy memory page other 4096) page index = pageWord memory other index := by
  have byte (lane : Word) (laneSmall : lane.toNat < 4) :
      memcpy memory page other 4096 (page + 4 * index + lane) = memory (other + 4 * index + lane) := by
    have place : other + (page + 4 * index + lane - page) = other + 4 * index + lane := by bv_omega
    rw [memcpy, if_pos (pageWord_lane small laneSmall), place]
  have low := byte 0 (by decide)
  rw [show page + 4 * index + 0 = page + 4 * index from BitVec.add_zero _,
    show other + 4 * index + 0 = other + 4 * index from BitVec.add_zero _] at low
  rw [pageWord, pageWord, loadWord, loadWord, byte 1 (by decide), byte 2 (by decide), byte 3 (by decide), low]

/-- Pages with the same words have the same bytes. -/
theorem bytes_of_pageWords {first second : Memory}
    (same : ∀ index : Word, index.toNat < 1024 → pageWord first page index = pageWord second other index) {offset : Nat}
    (small : offset < 4096) : first (page + BitVec.ofNat 32 offset) = second (other + BitVec.ofNat 32 offset) := by
  have index : (BitVec.ofNat 32 (offset / 4)).toNat < 1024 := by
    rw [BitVec.toNat_ofNat]
    omega
  have lane : offset % 4 < 4 := Nat.mod_lt _ (by decide)
  have place (base : Word) : base + BitVec.ofNat 32 offset = base + 4 * BitVec.ofNat 32 (offset / 4) + BitVec.ofNat 32 (offset % 4) := by
    bv_omega
  have word := same _ index
  rw [pageWord, pageWord] at word
  rw [place, place, loadWord_lane first _ lane, loadWord_lane second _ lane, word]

end MexOS.Machine
