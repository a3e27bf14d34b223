import Mathlib.Data.Nat.Bitwise
import MexOS.Mm.HeapInvariant

/-! `kmalloc_aligned` hands out a pointer inside a block; a mark in front of it
leads `kfree` back to the block. -/

namespace MexOS.Mm

open MexOS.Machine

/-- The alignments that `kmalloc_aligned` takes. -/
def PowerOfTwo (align : Word) : Prop := align ≠ 0 ∧ align &&& (align - 1) = 0

instance (align : Word) : Decidable (PowerOfTwo align) := inferInstanceAs (Decidable (_ ∧ _))

section Alignment

variable {addr align : Word}

theorem PowerOfTwo.exists_bits (power : PowerOfTwo align) : ∃ bits, align.toNat = 2 ^ bits := by
  obtain ⟨nonzero, shared⟩ := power
  have positive : align.toNat ≠ 0 := fun zero => nonzero (BitVec.eq_of_toNat_eq zero)
  have low : (align - 1).toNat = align.toNat - 1 := by bv_omega
  have values := congrArg BitVec.toNat shared
  rw [BitVec.toNat_and, low] at values
  exact (Nat.and_sub_one_eq_zero_iff_isPowerOfTwo positive).mp values

theorem alignedPlace_toNat (power : PowerOfTwo align) :
    (Heap.alignedPlace addr align).toNat = (addr + 7 + align).toNat / align.toNat * align.toNat := by
  obtain ⟨bits, value⟩ := power.exists_bits
  have sum : addr + 4 + 4 + align - 1 = addr + 7 + align := by bv_omega
  have low : align - 1 = BitVec.ofNat 32 (2 ^ bits - 1) := by
    have positive := Nat.two_pow_pos bits
    have bound := align.isLt
    apply BitVec.eq_of_toNat_eq
    rw [BitVec.toNat_ofNat]
    bv_omega
  rw [Heap.alignedPlace, sum, low, toNat_and_not_mask, value]

theorem alignedPlace_dvd (power : PowerOfTwo align) : align.toNat ∣ (Heap.alignedPlace addr align).toNat := by
  rw [alignedPlace_toNat power]
  exact Nat.dvd_mul_left _ _

/-- Room for the mark stays below the aligned pointer. -/
theorem alignedPlace_bounds (power : PowerOfTwo align) (room : addr.toNat + 7 + align.toNat < 2 ^ 32) :
    addr.toNat + 8 ≤ (Heap.alignedPlace addr align).toNat ∧
      (Heap.alignedPlace addr align).toNat ≤ addr.toNat + 7 + align.toNat := by
  have sum : (addr + 7 + align).toNat = addr.toNat + 7 + align.toNat := by bv_omega
  have positive : 0 < align.toNat := by
    obtain ⟨nonzero, _⟩ := power
    bv_omega
  have split := Nat.div_add_mod (addr.toNat + 7 + align.toNat) align.toNat
  have rest := Nat.mod_lt (addr.toNat + 7 + align.toNat) positive
  rw [Nat.mul_comm] at split
  rw [alignedPlace_toNat power, sum]
  omega

theorem alignedTotal_toNat {size : Word} (small : size.toNat + align.toNat + 8 ≤ 0xFFFFFFFC) :
    Heap.rounded (Heap.alignedTotal size align) = (size.toNat + align.toNat + 8 + 3) / 4 * 4 := by
  have sum : (Heap.alignedTotal size align + 3).toNat = size.toNat + align.toNat + 8 + 3 := by
    rw [Heap.alignedTotal]
    bv_omega
  rw [Heap.rounded, sum]

/-- The mark and the room fit into a block that holds what `kmalloc_aligned` asks for. -/
theorem alignedPlace_inside {size : Word} {bytes : Nat} (power : PowerOfTwo align) (small : size.toNat + align.toNat + 8 ≤ 0xFFFFFFFC)
    (least : Heap.rounded (Heap.alignedTotal size align) ≤ bytes) (bounded : addr.toNat + bytes < 2 ^ 32) :
    addr.toNat + 8 ≤ (Heap.alignedPlace addr align).toNat ∧
      (Heap.alignedPlace addr align).toNat + size.toNat < addr.toNat + bytes := by
  rw [alignedTotal_toNat small] at least
  obtain ⟨above, below⟩ := @alignedPlace_bounds addr align power (by omega)
  exact ⟨above, by omega⟩

end Alignment

/-- The mark and the back pointer in front of an aligned pointer. -/
def Heap.mark (heap : Heap) (aligned ptr : Word) : Heap :=
  { heap with memory := storeWord (storeWord heap.memory (aligned - 4 - 4) alignedMagic) (aligned - 4) ptr }

theorem Heap.kmallocAligned_eq {heap inner : Heap} {size align ptr : Word} (power : PowerOfTwo align)
    (call : heap.kmalloc (alignedTotal size align) = some (ptr, inner)) :
    heap.kmallocAligned size align =
      some (if ptr = 0 then (0, inner) else (alignedPlace ptr align, inner.mark (alignedPlace ptr align) ptr)) := by
  have passes : ¬ (align = 0 ∨ align &&& (align - 1) ≠ 0) := by
    rintro (zero | shared)
    · exact power.1 zero
    · exact shared power.2
  rw [kmallocAligned, if_neg passes, call]
  simp only [Option.bind_eq_bind, Option.bind_some]
  split <;> rfl

theorem Heap.kmallocAligned_refused {heap : Heap} {size align : Word} (other : ¬ PowerOfTwo align) :
    heap.kmallocAligned size align = some (0, heap) := by
  apply if_pos
  by_cases zero : align = 0
  · exact .inl zero
  · exact .inr fun shared => other ⟨zero, shared⟩

/-- What a client has: the pointer, the pointer that `kmalloc` returned for it
and how many bytes it may use. -/
structure Loan where
  pointer : Word
  origin : Word
  room : Nat
deriving DecidableEq

/-- The heap and what its clients have from `kmalloc` and `kmalloc_aligned`. -/
structure HeapLoans where
  heap : Heap
  loans : List Loan

namespace HeapLoans

def stored (state : HeapLoans) (p : Word) (offset : Nat) (value : Byte) : Heap :=
  { state.heap with memory := storeByte state.heap.memory (p + BitVec.ofNat 32 offset) value }

/-- One call that returns, where `kmalloc_aligned` gets only arguments that are
admitted, or a store of a client. -/
inductive Step (admits : Heap → Word → Word → Prop) (state : HeapLoans) : HeapLoans → Prop
  | kmalloc (size : Word) : state.heap.kmalloc size = some (p, other) →
    Step admits state ⟨other, if p = 0 then state.loans else ⟨p, p, (other.size (p - 12)).toNat⟩ :: state.loans⟩
  | kmallocAligned (size align : Word) : admits state.heap size align → p ≠ 0 →
    state.heap.kmalloc (Heap.alignedTotal size align) = some (ptr, held) →
    state.heap.kmallocAligned size align = some (p, other) →
    Step admits state ⟨other, ⟨p, ptr, size.toNat⟩ :: state.loans⟩
  | kmallocAlignedNull (size align : Word) : admits state.heap size align →
    state.heap.kmallocAligned size align = some (0, other) → Step admits state ⟨other, state.loans⟩
  | kfree : loan ∈ state.loans → state.heap.kfree loan.pointer = some other →
    Step admits state ⟨other, state.loans.erase loan⟩
  | kfreeNull : state.heap.kfree 0 = some other → Step admits state ⟨other, state.loans⟩
  | defragment : state.heap.defragment = some other → Step admits state ⟨other, state.loans⟩
  | store (offset : Nat) (value : Byte) : loan ∈ state.loans → offset < loan.room →
    Step admits state ⟨state.stored loan.pointer offset value, state.loans⟩

def start (range : HeapRange) (memory : Memory) : HeapLoans := ⟨Heap.init memory range.start range.size, []⟩

/-- The same heap with the pointers that `kmalloc` returned. -/
def origins (state : HeapLoans) : HeapClients := ⟨state.heap, state.loans.map Loan.origin⟩

end HeapLoans

/-- The room of a loan in the block at `place` that holds so many bytes: the
payload itself, or what lies behind a mark. -/
inductive Loan.Placed (loan : Loan) (memory : Memory) (place bytes : Nat) : Prop
  | plain : loan.pointer = loan.origin → loan.room ≤ bytes → Placed loan memory place bytes
  | aligned : place + 20 ≤ loan.pointer.toNat → loan.pointer.toNat < place + 12 + bytes →
    loan.pointer.toNat + loan.room ≤ place + 12 + bytes →
    loadWord memory (loan.pointer - 4 - 4) = Heap.alignedMagic → loadWord memory (loan.pointer - 4) = loan.origin →
    Placed loan memory place bytes

/-- Stores that spare the bytes in front of the pointer keep the mark. -/
theorem Loan.Placed.keep {loan : Loan} {memory other : Memory} {place bytes : Nat} (placed : loan.Placed memory place bytes)
    (same : SameBytes memory other (place + 12) loan.pointer.toNat) : loan.Placed other place bytes := by
  cases placed with
  | plain equal fits => exact .plain equal fits
  | aligned above below inside magic back =>
    have bound := loan.pointer.isLt
    have mark : loan.pointer - 4 - 4 = BitVec.ofNat 32 (loan.pointer.toNat - 8) := by bv_omega
    have link : loan.pointer - 4 = BitVec.ofNat 32 (loan.pointer.toNat - 4) := by bv_omega
    refine .aligned above below inside ?_ ?_
    · rw [mark] at magic ⊢
      rw [← magic]
      exact loadWord_of_same fun byte lower upper => same byte (by omega) (by omega)
    · rw [link] at back ⊢
      rw [← back]
      exact loadWord_of_same fun byte lower upper => same byte (by omega) (by omega)

theorem Loan.Placed.keep_block {loan : Loan} {memory other : Memory} {place bytes : Nat} (placed : loan.Placed memory place bytes)
    (same : SameBytes memory other (place + 12) (place + 12 + bytes)) : loan.Placed other place bytes := by
  cases placed with
  | plain equal fits => exact .plain equal fits
  | aligned above below inside magic back =>
    apply keep (.aligned above below inside magic back)
    exact fun byte lower upper => same byte lower (by omega)

namespace HeapSound

open Heap

variable {range : HeapRange} {clients : HeapClients} {blocks : List Block}

/-- Where a block in use lies. -/
theorem usedBlock {place bytes : Nat} (sound : HeapSound range clients blocks)
    (member : (place, bytes) ∈ Block.usedBlocks 12 range.start.toNat blocks) :
    range.start.toNat ≤ place ∧ place + 12 < range.start.toNat + range.size.toNat ∧
      place + 12 + bytes ≤ range.start.toNat + range.size.toNat ∧ (payloadOf place).toNat = place + 12 := by
  obtain ⟨front, back, rfl, rfl⟩ := Block.mem_usedBlocks member
  have room := sound.holds.from_here.room
  have before := sound.holds.payload_lt sound.ends
  have value := sound.payload_toNat
  rw [stop, sound.start, sound.size] at room before
  simp only [extent] at *
  exact ⟨Nat.le_add_right _ _, before, by omega, value⟩

theorem payload_of_used {place bytes : Nat} (sound : HeapSound range clients blocks)
    (member : (place, bytes) ∈ Block.usedBlocks 12 range.start.toNat blocks) : clients.payload (payloadOf place) = bytes := by
  obtain ⟨front, back, rfl, rfl⟩ := Block.mem_usedBlocks member
  exact sound.payload_eq

/-- What `kmalloc` does, told by the blocks in use: nothing, or one more is in
use and the bytes of the others are the same. -/
theorem kmalloc_cases {size p : Word} {other : Heap} (fits : range.size.toNat ≤ 2 ^ 32 - 20) (sound : HeapSound range clients blocks)
    (call : clients.heap.kmalloc size = some (p, other)) :
    p = 0 ∧ other = clients.heap ∧ (size ≠ 0 → ∀ block ∈ blocks, ¬ block.Fits (rounded size)) ∨
      (∃ block ∈ blocks, block.Fits (rounded size)) ∧ ∃ place bytes new, p = payloadOf place ∧ rounded size ≤ bytes ∧ bytes < rounded size + 28 ∧
      HeapSound range ⟨other, p :: clients.live⟩ new ∧
      (Block.usedBlocks 12 range.start.toNat new).Perm ((place, bytes) :: Block.usedBlocks 12 range.start.toNat blocks) ∧
      ∀ entry ∈ Block.usedBlocks 12 range.start.toNat blocks, clients.heap.Same other (entry.1 + 12) (entry.1 + 12 + entry.2) := by
  by_cases zero : size = 0
  · rw [kmalloc, if_pos zero, Option.some.injEq, Prod.mk.injEq] at call
    exact .inl ⟨call.1.symm, call.2.symm, fun positive => absurd zero positive⟩
  rw [kmalloc, if_neg zero] at call
  have amount : ((size + 3) &&& ~~~3).toNat = rounded size := round_toNat size
  rcases kmallocRounded_eq sound.holds sound.separated ((size + 3) &&& ~~~3) with ⟨none, result⟩ | ⟨front, old, back, best, result⟩
  · obtain ⟨null, same⟩ := Prod.mk.inj (Option.some.inj (call.symm.trans result))
    rw [amount] at none
    exact .inl ⟨null, same, fun _ => none⟩
  · right
    have splittable := sound.small fits ((size + 3) &&& ~~~3).toNat
    have found := best.found
    have enough := best.enough
    obtain ⟨frame, allocated⟩ := take_allocates sound.holds splittable found enough
    rw [← Option.some.inj (call.symm.trans result)] at frame allocated
    have whole := sound.holds.extent_eq
    subst found
    rw [extent, Block.extent_append, Block.extent_cons] at whole
    dsimp only at whole
    have splits : ((size + 3) &&& ~~~3).toNat + 28 < 2 ^ 32 := splittable (by omega)
    rw [amount] at allocated enough
    obtain ⟨_, next⟩ := sound.step_allocate frame (Nat.dvd_mul_left 4 _) allocated
    obtain ⟨bytes, least, most, first⟩ := usedBlocks_carve (range.start.toNat + Block.extent 12 front) enough
    have pointer := allocated.pointer
    rw [sound.start] at pointer
    refine ⟨⟨_, List.mem_append_right front List.mem_cons_self, rfl, enough⟩, _, bytes, _, pointer, least, most, next, Block.usedBlocks_allocate (extent_carve _ old) first, ?_⟩
    intro entry member byte lower upper
    obtain ⟨_, _, inside, _⟩ := sound.usedBlock member
    have end_ := range.inside
    obtain ⟨front', back', found, place⟩ := Block.mem_usedBlocks member
    have apart := @Block.split_cases 12 _ _ _ _ _ _ found
    have taken := (Prod.mk.inj (Option.some.inj (call.symm.trans result))).2
    rw [taken]
    refine take_keeps sound.holds splits (by omega) ?_
    rw [sound.start]
    simp only [extent]
    rcases apart with ⟨_, same⟩ | before | behind
    · cases same
    · simp only at before
      exact .inr (by omega)
    · simp only at behind
      exact .inl (by omega)

/-- What `kfree` does where it is sent to the block at `place`. -/
theorem kfree_cases {p : Word} {other : Heap} {place bytes : Nat} (sound : HeapSound range clients blocks)
    (member : (place, bytes) ∈ Block.usedBlocks 12 range.start.toNat blocks)
    (target : clients.heap.kfreeBlock p = some (BitVec.ofNat 32 place)) (call : clients.heap.kfree p = some other) :
    ∃ new, HeapSound range ⟨other, clients.live.erase (payloadOf place)⟩ new ∧
      (Block.usedBlocks 12 range.start.toNat blocks).Perm ((place, bytes) :: Block.usedBlocks 12 range.start.toNat new) ∧
      ∀ entry ∈ Block.usedBlocks 12 range.start.toNat blocks, clients.heap.Same other (entry.1 + 12) (entry.1 + 12 + entry.2) := by
  obtain ⟨front, back, rfl, rfl⟩ := Block.mem_usedBlocks member
  rw [← sound.start] at target
  obtain ⟨result, freed, frame, _, holds, kept⟩ := kfree_of_target sound.holds target
  obtain rfl := Option.some.inj (call.symm.trans freed)
  refine ⟨_, sound.step_free frame holds, ?_, ?_⟩
  · rw [Block.usedBlocks_coalesce]
    exact Block.usedBlocks_free
  · intro entry inside byte lower upper
    obtain ⟨_, _, bound, _⟩ := sound.usedBlock inside
    have end_ := range.inside
    obtain ⟨front', back', found, place⟩ := Block.mem_usedBlocks inside
    rw [sound.start] at kept
    exact kept byte (by omega) (Block.offHeaders_payload found (by omega) (by simp only; omega))

end HeapSound

/-- The runs keep a sound heap, and every loan in its block. -/
structure LoanSound (range : HeapRange) (state : HeapLoans) (blocks : List Block) : Prop where
  sound : HeapSound range state.origins blocks
  placed : ∀ loan ∈ state.loans, ∃ place bytes, (place, bytes) ∈ Block.usedBlocks 12 range.start.toNat blocks ∧
    loan.origin = payloadOf place ∧ loan.Placed state.heap.memory place bytes

namespace LoanSound

open Heap

variable {range : HeapRange} {state : HeapLoans} {blocks : List Block} {loan : Loan}

theorem initial (range : HeapRange) (memory : Memory) :
    LoanSound range (HeapLoans.start range memory) [⟨range.size.toNat - 12, false⟩] :=
  ⟨HeapSound.initial range memory, fun _ member => nomatch member⟩

/-- The probe of `kfree` finds the block of a loan, through the mark or because
there is none. -/
theorem traced {place bytes : Nat} (lent : LoanSound range state blocks)
    (member : (place, bytes) ∈ Block.usedBlocks 12 range.start.toNat blocks) (origin : loan.origin = payloadOf place)
    (placed : loan.Placed state.heap.memory place bytes) : state.heap.kfreeBlock loan.pointer = some (BitVec.ofNat 32 place) := by
  obtain ⟨lower, before, inside, value⟩ := lent.sound.usedBlock member
  have end_ := range.inside
  have located : state.heap.heapStart = range.start := lent.sound.start
  have sized : state.heap.heapSize = range.size := lent.sound.size
  cases placed with
  | plain equal fits =>
    obtain ⟨front, back, rfl, rfl⟩ := Block.mem_usedBlocks member
    have target := kfreeBlock_spec lent.sound.holds lent.sound.ends
    rw [lent.sound.start] at target
    rw [equal, origin]
    exact target
  | aligned above below room magic back =>
    have stop : state.heap.heapEnd.toNat = range.start.toNat + range.size.toNat := by
      rw [heapEnd, located, sized]
      bv_omega
    have nonnull : loan.pointer ≠ 0 := by bv_omega
    have within : ¬ (loan.pointer < state.heap.heapStart ∨ loan.pointer ≥ state.heap.heapEnd) := by
      rw [BitVec.lt_def, ge_iff_le, BitVec.le_def, stop, located]
      omega
    have back_within : ¬ (loan.origin < state.heap.heapStart ∨ loan.origin ≥ state.heap.heapEnd) := by
      rw [BitVec.lt_def, ge_iff_le, BitVec.le_def, stop, located, origin, value]
      omega
    have target : loan.origin - 12 = BitVec.ofNat 32 place := by
      rw [origin, payloadOf]
      bv_omega
    rw [kfreeBlock, if_neg nonnull, if_neg within, if_pos magic]
    dsimp only
    rw [back, if_neg back_within, target]

/-- The loans so far, after an allocation. -/
theorem kept_by_kmalloc {place bytes : Nat} {other : Heap} {new : List Block} (lent : LoanSound range state blocks)
    (more : (Block.usedBlocks 12 range.start.toNat new).Perm ((place, bytes) :: Block.usedBlocks 12 range.start.toNat blocks))
    (same : ∀ entry ∈ Block.usedBlocks 12 range.start.toNat blocks, state.heap.Same other (entry.1 + 12) (entry.1 + 12 + entry.2))
    (member : loan ∈ state.loans) : ∃ place bytes, (place, bytes) ∈ Block.usedBlocks 12 range.start.toNat new ∧
      loan.origin = payloadOf place ∧ loan.Placed other.memory place bytes := by
  obtain ⟨place, bytes, used, origin, placed⟩ := lent.placed loan member
  exact ⟨place, bytes, more.mem_iff.mpr (List.mem_cons_of_mem _ used), origin, placed.keep_block (same _ used)⟩

theorem kmalloc {size p : Word} {other : Heap} (fits : range.size.toNat ≤ 2 ^ 32 - 20) (lent : LoanSound range state blocks)
    (call : state.heap.kmalloc size = some (p, other)) :
    ∃ new, LoanSound range ⟨other, if p = 0 then state.loans else ⟨p, p, (other.size (p - 12)).toNat⟩ :: state.loans⟩ new := by
  rcases lent.sound.kmalloc_cases fits call with ⟨rfl, rfl, _⟩ | ⟨_, place, bytes, new, pointer, _, _, sound, more, same⟩
  · exact ⟨blocks, lent⟩
  · have used : (place, bytes) ∈ Block.usedBlocks 12 range.start.toNat new := more.mem_iff.mpr List.mem_cons_self
    have nonnull : p ≠ 0 := by
      have value := (sound.usedBlock used).2.2.2
      intro null
      rw [← pointer, null] at value
      have zero : (0 : Word).toNat = 0 := rfl
      omega
    have payload := sound.payload_of_used used
    rw [← pointer] at payload
    refine ⟨new, ?_⟩
    rw [if_neg nonnull]
    refine ⟨sound, fun loan member => ?_⟩
    rcases List.mem_cons.mp member with rfl | older
    · exact ⟨place, bytes, used, pointer, .plain rfl (Nat.le_of_eq payload)⟩
    · exact lent.kept_by_kmalloc more same older

/-- The mark fits in front of an aligned pointer, and the room behind it. -/
theorem kmallocAligned {size align p ptr : Word} {inner other : Heap} (fits : range.size.toNat ≤ 2 ^ 32 - 20)
    (lent : LoanSound range state blocks) (small : size.toNat + align.toNat + 8 ≤ 0xFFFFFFFC) (nonnull : p ≠ 0)
    (call : state.heap.kmalloc (alignedTotal size align) = some (ptr, inner))
    (result : state.heap.kmallocAligned size align = some (p, other)) :
    ∃ place bytes new, LoanSound range ⟨other, ⟨p, ptr, size.toNat⟩ :: state.loans⟩ new ∧ ptr = payloadOf place ∧
      align.toNat ∣ p.toNat ∧ place + 20 ≤ p.toNat ∧ p.toNat + size.toNat ≤ place + 12 + bytes ∧
      (Block.usedBlocks 12 range.start.toNat new).Perm ((place, bytes) :: Block.usedBlocks 12 range.start.toNat blocks) := by
  by_cases power : PowerOfTwo align
  swap
  · rw [kmallocAligned_refused power] at result
    exact absurd (Prod.mk.inj (Option.some.inj result)).1.symm nonnull
  rw [kmallocAligned_eq power call] at result
  rcases lent.sound.kmalloc_cases fits call with ⟨rfl, rfl, _⟩ | ⟨_, place, bytes, new, pointer, least, _, sound, more, same⟩
  · exact absurd (Prod.mk.inj (Option.some.inj result)).1.symm nonnull
  have used : (place, bytes) ∈ Block.usedBlocks 12 range.start.toNat new := more.mem_iff.mpr List.mem_cons_self
  obtain ⟨_, _, inside, value⟩ := sound.usedBlock used
  rw [← pointer] at value
  have given : ptr ≠ 0 := by bv_omega
  rw [if_neg given, Option.some.injEq, Prod.mk.injEq] at result
  obtain ⟨rfl, rfl⟩ := result
  have end_ := range.inside
  obtain ⟨above, below⟩ := @alignedPlace_inside ptr align size bytes power small least (by omega)
  generalize aligned : alignedPlace ptr align = p at above below nonnull ⊢
  have divides : align.toNat ∣ p.toNat := by
    rw [← aligned]
    exact alignedPlace_dvd power
  have mark : p - 4 - 4 = BitVec.ofNat 32 (p.toNat - 8) := by bv_omega
  have link : p - 4 = BitVec.ofNat 32 (p.toNat - 4) := by bv_omega
  -- The two words lie in the block, so that no header and no other block changes.
  have outside (byte : Nat) (limit : byte < 2 ^ 32) (apart : byte < p.toNat - 8 ∨ p.toNat ≤ byte) :
      (inner.mark p ptr).memory (BitVec.ofNat 32 byte) = inner.memory (BitVec.ofNat 32 byte) := by
    rw [Heap.mark, mark, link]
    dsimp only
    rw [storeWord_outside limit (by omega) (by omega), storeWord_outside limit (by omega) (by omega)]
  obtain ⟨front, back, found, here⟩ := Block.mem_usedBlocks used
  have marked : HeapSound range ⟨inner.mark p ptr, ptr :: state.origins.live⟩ new := by
    rw [found] at sound ⊢
    refine sound.step_payload ⟨rfl, rfl⟩ fun byte limit apart => outside byte limit ?_
    simp only [extent] at apart
    omega
  refine ⟨place, bytes, new, ⟨marked, fun loan member => ?_⟩, pointer, divides, by omega, by omega, more⟩
  rcases List.mem_cons.mp member with rfl | older
  · refine ⟨place, bytes, used, pointer, .aligned (by simp only; omega) (by simp only; omega) (by simp only; omega) ?_ ?_⟩
    · simp only [Heap.mark]
      rw [loadWord_storeWord_apart, loadWord_storeWord_self]
      constructor <;> bv_omega
    · exact loadWord_storeWord_self _ _ _
  · obtain ⟨place', bytes', used', origin, placed⟩ := lent.kept_by_kmalloc more same older
    refine ⟨place', bytes', used', origin, placed.keep_block fun byte lower upper => outside byte ?_ ?_⟩
    · have bound := (sound.usedBlock used').2.2.1
      omega
    · have fresh : ptr ∉ state.loans.map Loan.origin := (List.nodup_cons.mp sound.distinct).1
      rcases Block.usedBlocks_apart used used' with equal | before | behind
      · rw [Prod.mk.injEq] at equal
        rw [← equal.1, ← pointer] at origin
        exact absurd (origin ▸ List.mem_map_of_mem older) fresh
      · simp only at before
        exact .inr (by omega)
      · simp only at behind
        exact .inl (by omega)

/-- `kmalloc_aligned` returns NULL only if it changed nothing. -/
theorem kmallocAligned_null {size align : Word} {other : Heap} (fits : range.size.toNat ≤ 2 ^ 32 - 20)
    (lent : LoanSound range state blocks) (small : size.toNat + align.toNat + 8 ≤ 0xFFFFFFFC)
    (result : state.heap.kmallocAligned size align = some (0, other)) : other = state.heap := by
  by_cases power : PowerOfTwo align
  · obtain ⟨ptr, inner, call, _⟩ := kmalloc_spec lent.sound.holds lent.sound.separated (alignedTotal size align)
      (lent.sound.small fits _)
    change state.heap.kmalloc (alignedTotal size align) = some (ptr, inner) at call
    rw [kmallocAligned_eq power call] at result
    rcases lent.sound.kmalloc_cases fits call with ⟨null, same, _⟩ | ⟨_, place, bytes, new, pointer, least, _, sound, more, _⟩
    · rw [if_pos null, Option.some.injEq, Prod.mk.injEq] at result
      exact result.2.symm.trans same
    · obtain ⟨_, _, inside, value⟩ := sound.usedBlock (more.mem_iff.mpr List.mem_cons_self)
      have end_ := range.inside
      rw [← pointer] at value
      have given : ptr ≠ 0 := by bv_omega
      obtain ⟨above, _⟩ := @alignedPlace_inside ptr align size bytes power small least (by omega)
      rw [if_neg given, Option.some.injEq, Prod.mk.injEq] at result
      have zero : (0 : Word).toNat = 0 := rfl
      rw [result.1, zero] at above
      omega
  · rw [kmallocAligned_refused power, Option.some.injEq, Prod.mk.injEq] at result
    exact result.2.symm

/-- Nothing but the block of the loan is freed. -/
theorem kfree {other : Heap} (lent : LoanSound range state blocks) (member : loan ∈ state.loans)
    (call : state.heap.kfree loan.pointer = some other) : ∃ new, LoanSound range ⟨other, state.loans.erase loan⟩ new := by
  obtain ⟨place, bytes, used, origin, placed⟩ := lent.placed loan member
  obtain ⟨new, sound, fewer, same⟩ := lent.sound.kfree_cases used (lent.traced used origin placed) call
  have parts := List.perm_cons_erase member
  have listed := parts.map Loan.origin
  refine ⟨new, ⟨sound.start, sound.size, sound.holds, sound.separated, sound.grained, sound.ends, ?_⟩, fun left inside => ?_⟩
  · have erased := listed.erase (payloadOf place)
    rw [List.map_cons, origin, List.erase_cons_head] at erased
    exact erased.symm.trans sound.live
  · obtain ⟨place', bytes', used', origin', placed'⟩ := lent.placed left (List.mem_of_mem_erase inside)
    have differ : left.origin ≠ loan.origin := by
      have distinct := listed.nodup_iff.mp lent.sound.distinct
      rw [List.map_cons, List.nodup_cons] at distinct
      intro equal
      exact distinct.1 (equal ▸ List.mem_map_of_mem inside)
    refine ⟨place', bytes', ?_, origin', placed'.keep_block (same _ used')⟩
    rcases List.mem_cons.mp (fewer.mem_iff.mp used') with equal | still
    · rw [Prod.mk.injEq] at equal
      rw [origin', origin, equal.1] at differ
      exact absurd rfl differ
    · exact still

theorem store {offset : Nat} (lent : LoanSound range state blocks) (member : loan ∈ state.loans) (inside : offset < loan.room)
    (value : Byte) : LoanSound range ⟨state.stored loan.pointer offset value, state.loans⟩ blocks := by
  obtain ⟨place, bytes, used, origin, placed⟩ := lent.placed loan member
  obtain ⟨_, _, bound, first⟩ := lent.sound.usedBlock used
  have end_ := range.inside
  -- The store is behind the pointer, which is behind the header of the block.
  have reach : place + 12 ≤ loan.pointer.toNat ∧ loan.pointer.toNat + loan.room ≤ place + 12 + bytes := by
    cases placed with
    | plain equal fits =>
      rw [equal, origin, first]
      omega
    | aligned above below room magic back => omega
  have target : loan.pointer + BitVec.ofNat 32 offset = BitVec.ofNat 32 (loan.pointer.toNat + offset) := by bv_omega
  have outside (byte : Nat) (limit : byte < 2 ^ 32) (apart : byte ≠ loan.pointer.toNat + offset) :
      (state.stored loan.pointer offset value).memory (BitVec.ofNat 32 byte) = state.heap.memory (BitVec.ofNat 32 byte) := by
    rw [HeapLoans.stored, target]
    exact storeByte_outside limit (by omega) apart
  constructor
  · obtain ⟨front, back, found, here⟩ := Block.mem_usedBlocks used
    have sound := lent.sound
    rw [found] at sound ⊢
    refine sound.step_payload ⟨rfl, rfl⟩ fun byte limit apart => outside byte limit ?_
    simp only [extent] at apart
    omega
  · intro other among
    obtain ⟨place', bytes', used', origin', placed'⟩ := lent.placed other among
    obtain ⟨_, _, bound', first'⟩ := lent.sound.usedBlock used'
    refine ⟨place', bytes', used', origin', ?_⟩
    rcases Block.usedBlocks_apart used used' with equal | before | behind
    · have same : other = loan := by
        apply List.inj_on_of_nodup_map lent.sound.distinct among member
        rw [origin, origin', (Prod.mk.inj equal).1]
      rw [same] at placed' ⊢
      exact placed'.keep fun byte lower upper => outside byte (by omega) (by omega)
    · simp only at before
      exact placed'.keep_block fun byte lower upper => outside byte (by omega) (by omega)
    · simp only at behind
      exact placed'.keep_block fun byte lower upper => outside byte (by omega) (by omega)

/-- Arguments that are admitted are summed up without overflow. -/
def Admissible (range : HeapRange) (admits : Heap → Word → Word → Prop) : Prop :=
  ∀ heap size align, heap.heapSize = range.size → admits heap size align → size.toNat + align.toNat + 8 ≤ 0xFFFFFFFC

theorem step {admits : Heap → Word → Word → Prop} (fits : range.size.toNat ≤ 2 ^ 32 - 20) (admissible : Admissible range admits)
    {after : HeapLoans} (lent : LoanSound range state blocks) (step : HeapLoans.Step admits state after) :
    ∃ new, LoanSound range after new := by
  cases step with
  | kmalloc size call => exact lent.kmalloc fits call
  | kmallocAligned size align admitted nonnull call result =>
    have small := admissible _ size align lent.sound.size admitted
    obtain ⟨_, _, new, sound, _⟩ := lent.kmallocAligned fits small nonnull call result
    exact ⟨new, sound⟩
  | kmallocAlignedNull size align admitted result =>
    obtain rfl := lent.kmallocAligned_null fits (admissible _ size align lent.sound.size admitted) result
    exact ⟨blocks, lent⟩
  | kfree member call => exact lent.kfree member call
  | kfreeNull call =>
    rw [Heap.kfree, kfreeBlock, if_pos rfl, Option.some.injEq] at call
    subst call
    exact ⟨blocks, lent⟩
  | defragment call =>
    have same := mergeFreeBlocks_separated lent.sound.holds lent.sound.separated
    obtain rfl := Option.some.inj (same.symm.trans call)
    exact ⟨blocks, lent⟩
  | store offset value member inside => exact ⟨blocks, lent.store member inside value⟩

theorem run {admits : Heap → Word → Word → Prop} (fits : range.size.toNat ≤ 2 ^ 32 - 20) (admissible : Admissible range admits)
    {memory : Memory} (reach : Reachable (HeapLoans.Step admits) (HeapLoans.start range memory) state) :
    ∃ blocks, LoanSound range state blocks := by
  apply reach.invariant
  · exact ⟨_, initial range memory⟩
  · intro before after ⟨blocks, lent⟩ last
    exact lent.step fits admissible last

end LoanSound

/-- The requests that the heap could hold as a whole. -/
def WithinHeap (heap : Heap) (size align : Word) : Prop := size.toNat + align.toNat + 8 ≤ heap.heapSize.toNat

/-- `kfree` of `p` frees the block of the pointer `origin` and no other. -/
def Heap.FreesBlock (heap : Heap) (p origin : Word) : Prop :=
  heap.kfreeBlock p = some (origin - 12) ∧ ∃ front bytes back other, heap.Holds (front ++ ⟨bytes, true⟩ :: back) ∧
    origin = payloadOf (heap.heapStart.toNat + extent front) ∧ heap.kfree p = some other ∧
    other.Holds (Block.coalesce 12 (front ++ ⟨bytes, false⟩ :: back))

/-- However long the client keeps it, a pointer from `kmalloc_aligned` is freed
through the block that `kmalloc` gave; freed at once, it restores the list. -/
def FreedThroughBlock (state : HeapLoans) (size align p : Word) (other : Heap) : Prop :=
  ∃ ptr inner, state.heap.kmalloc (Heap.alignedTotal size align) = some (ptr, inner) ∧
    (∀ later, Reachable (HeapLoans.Step WithinHeap) ⟨other, ⟨p, ptr, size.toNat⟩ :: state.loans⟩ later →
      ⟨p, ptr, size.toNat⟩ ∈ later.loans → later.heap.FreesBlock p ptr) ∧
    ∃ blocks freed, state.heap.Holds blocks ∧ other.kfree p = some freed ∧ freed.Holds blocks

namespace LoanSound

open Heap

variable {range : HeapRange} {state : HeapLoans} {blocks : List Block} {loan : Loan}

theorem freesBlock (lent : LoanSound range state blocks) (member : loan ∈ state.loans) :
    state.heap.FreesBlock loan.pointer loan.origin := by
  obtain ⟨place, bytes, used, origin, placed⟩ := lent.placed loan member
  have target := lent.traced used origin placed
  have located : state.heap.heapStart = range.start := lent.sound.start
  have place_eq : loan.origin - 12 = BitVec.ofNat 32 place := by
    rw [origin, payloadOf]
    bv_omega
  obtain ⟨front, back, rfl, rfl⟩ := Block.mem_usedBlocks used
  refine ⟨by rw [target, place_eq], front, bytes, back, ?_⟩
  rw [← located] at target
  obtain ⟨other, result, _, _, freed, _⟩ := kfree_of_target lent.sound.holds target
  exact ⟨other, lent.sound.holds, by rw [origin, located], result, freed⟩

/-- Allocating and freeing leaves the list that was there. -/
theorem kfree_restores {size align p ptr : Word} {inner other : Heap} (fits : range.size.toNat ≤ 2 ^ 32 - 20)
    (lent : LoanSound range state blocks) (small : size.toNat + align.toNat + 8 ≤ 0xFFFFFFFC) (nonnull : p ≠ 0)
    (call : state.heap.kmalloc (alignedTotal size align) = some (ptr, inner))
    (result : state.heap.kmallocAligned size align = some (p, other)) :
    ∃ freed, other.kfree p = some freed ∧ freed.Holds blocks := by
  obtain ⟨place, bytes, new, after, pointer, _, _, _, more⟩ := lent.kmallocAligned fits small nonnull call result
  have used : (place, bytes) ∈ Block.usedBlocks 12 range.start.toNat new := more.mem_iff.mpr List.mem_cons_self
  obtain ⟨target, _, _, _, freed, _, _, returns, _⟩ := after.freesBlock List.mem_cons_self
  have place_eq : ptr - 12 = BitVec.ofNat 32 place := by
    rw [pointer, payloadOf]
    bv_omega
  rw [place_eq] at target
  obtain ⟨last, sound, fewer, _⟩ := after.sound.kfree_cases used target returns
  have same : (Block.usedBlocks 12 range.start.toNat blocks).Perm (Block.usedBlocks 12 range.start.toNat last) :=
    (more.symm.trans fewer).cons_inv
  have whole := lent.sound.holds.extent_eq
  have whole' := sound.holds.extent_eq
  rw [lent.sound.size, extent] at whole
  rw [sound.size, extent] at whole'
  have restored := Block.eq_of_perm_usedBlocks (by decide) lent.sound.separated sound.separated (whole.trans whole'.symm) same
  rw [← restored] at sound
  exact ⟨freed, returns, sound.holds⟩

theorem admissible_within (fits : range.size.toNat ≤ 2 ^ 32 - 20) : Admissible range WithinHeap := by
  intro heap size align sized within
  rw [WithinHeap, sized] at within
  omega

theorem freedThroughBlock {size align p : Word} {other : Heap} (fits : range.size.toNat ≤ 2 ^ 32 - 20)
    (lent : LoanSound range state blocks) (within : WithinHeap state.heap size align) (nonnull : p ≠ 0)
    (result : state.heap.kmallocAligned size align = some (p, other)) : FreedThroughBlock state size align p other := by
  have admissible := admissible_within fits
  have small := admissible _ size align lent.sound.size within
  obtain ⟨ptr, inner, call, _⟩ := kmalloc_spec lent.sound.holds lent.sound.separated (alignedTotal size align)
    (lent.sound.small fits _)
  change state.heap.kmalloc (alignedTotal size align) = some (ptr, inner) at call
  obtain ⟨_, _, new, after, _⟩ := lent.kmallocAligned fits small nonnull call result
  refine ⟨ptr, inner, call, fun later reach live => ?_, blocks, ?_⟩
  · obtain ⟨last, sound⟩ : ∃ last, LoanSound range later last := by
      apply reach.invariant
      · exact ⟨new, after⟩
      · intro before next ⟨between, sound⟩ step
        exact sound.step fits admissible step
    exact sound.freesBlock live
  · obtain ⟨freed, returns, restored⟩ := lent.kfree_restores fits small nonnull call result
    exact ⟨freed, lent.sound.holds, returns, restored⟩

end LoanSound

section Overflow

open Heap

variable {range : HeapRange}

/-- `kfree` of the first block, when `next` leads out of the heap, does not
touch `next`. -/
theorem Heap.kfree_before_end {heap : Heap} {p : Word} (target : heap.kfreeBlock p = some heap.heapStart)
    (used : heap.used heap.heapStart ≠ 0) (nonnull : heap.heapStart ≠ 0) (bounded : heap.heapStart.toNat + 12 ≤ 2 ^ 32)
    (inside : heap.outside heap.heapStart = false) (amount : heap.size heap.heapStart ≠ 0) (more : heap.next heap.heapStart ≠ 0)
    (beyond : heap.outside (heap.next heap.heapStart) = true) :
    ∃ freed, heap.kfree p = some freed ∧ Frame heap freed ∧ freed.size heap.heapStart = heap.size heap.heapStart ∧
      freed.next heap.heapStart = heap.next heap.heapStart := by
  generalize cleared : Heap.setUsed { heap with heapUsed := heap.heapUsed - (heap.size heap.heapStart + 12) } heap.heapStart 0 = freed
  have place : BitVec.ofNat 32 heap.heapStart.toNat = heap.heapStart := by simp
  have cell : heap.heapStart + 8 = BitVec.ofNat 32 (heap.heapStart.toNat + 8) := by
    rw [← ofNat_offset, place]
    rfl
  have kept (first last : Nat) (limit : last ≤ 2 ^ 32) (apart : last ≤ heap.heapStart.toNat + 4 ∨ heap.heapStart.toNat + 5 ≤ first) :
      heap.Same freed first last := by
    rw [← cleared, ← place]
    exact setUsed_same _ bounded limit apart
  have size : freed.size heap.heapStart = heap.size heap.heapStart := by
    rw [Heap.size, Heap.size, ← place]
    exact loadWord_of_same (kept _ _ (by omega) (by omega))
  have next : freed.next heap.heapStart = heap.next heap.heapStart := by
    rw [Heap.next, Heap.next, cell]
    exact loadWord_of_same (kept _ _ (by omega) (by omega))
  have located : freed.heapStart = heap.heapStart := by rw [← cleared]; rfl
  have same (block : Word) : freed.outside block = heap.outside block := by rw [← cleared]; rfl
  have frame : Frame heap freed := by rw [← cleared]; exact ⟨rfl, rfl⟩
  have turns : maxTurns = (2 ^ 32 - 2) + 1 + 1 := rfl
  have merged : freed.mergeFreeBlocks = some freed := by
    rw [mergeFreeBlocks, located, turns, mergeLoop, next, if_neg (not_or.mpr ⟨nonnull, more⟩), same, same, inside, beyond]
    rfl
  have validated : freed.heapValidate = some freed := by
    have busy : ¬ (freed.used heap.heapStart = 0 ∧ heap.size heap.heapStart = 0 ∧ heap.next heap.heapStart ≠ 0) :=
      fun empty => amount empty.2.1
    rw [heapValidate, located, turns, validateLoop, if_neg nonnull, same, inside, size, next, if_neg busy, validateLoop,
      if_neg more, same, beyond]
    rfl
  refine ⟨freed, ?_, frame, size, next⟩
  rw [Heap.kfree, target]
  simp only [used, ne_eq, not_false_eq_true, ↓reduceIte, cleared]
  rw [merged]
  exact validated

/-- In a heap this large the pointer of an aligned allocation is found, and the
list is not what it was. -/
theorem aligned_overflow (memory : Memory) (large : 2 ^ 32 - 20 < range.size.toNat) :
    ∃ other freed, (HeapLoans.start range memory).heap.kmallocAligned (range.size - 24) 4 = some (range.start + 20, other) ∧
      other.kfree (range.start + 20) = some freed ∧ ∀ blocks, ¬ freed.Holds blocks := by
  have inside := range.inside
  have positive := range.positive
  have startAligned := range.startAligned
  have sizeAligned := range.sizeAligned
  obtain ⟨inner, call, frame, first, second, used⟩ := kmalloc_whole memory large
  have power : PowerOfTwo 4 := by decide
  have total : alignedTotal (range.size - 24) 4 = range.size - 12 := by
    rw [alignedTotal]
    bv_omega
  have placed : alignedPlace (range.start + 12) 4 = range.start + 20 := by
    apply BitVec.eq_of_toNat_eq
    rw [alignedPlace_toNat power]
    have four : (4 : Word).toNat = 4 := rfl
    rw [four]
    bv_omega
  have given : range.start + 12 ≠ 0 := by bv_omega
  rw [← total] at call
  have result := kmallocAligned_eq power call
  rw [if_neg given, placed] at result
  change (HeapLoans.start range memory).heap.kmallocAligned (range.size - 24) 4 = _ at result
  generalize marked : inner.mark (range.start + 20) (range.start + 12) = other at result
  -- The mark is behind the header of the block.
  have mark : range.start + 20 - 4 - 4 = BitVec.ofNat 32 (range.start.toNat + 12) := by bv_omega
  have link : range.start + 20 - 4 = BitVec.ofNat 32 (range.start.toNat + 16) := by bv_omega
  have start : BitVec.ofNat 32 range.start.toNat = range.start := by simp
  have kept : inner.Same other 0 (range.start.toNat + 12) := by
    intro byte lower upper
    rw [← marked, Heap.mark, mark, link]
    dsimp only
    rw [storeWord_outside (by omega) (by omega) (by omega), storeWord_outside (by omega) (by omega) (by omega)]
  have located : other.heapStart = range.start := by
    rw [← marked]
    exact frame.heapStart
  have sized : other.heapSize = range.size := by
    rw [← marked]
    exact frame.heapSize
  have amount : other.size range.start = range.size - 12 := by
    rw [← first, Heap.size, Heap.size, ← start]
    exact loadWord_of_same fun byte lower upper => kept byte (Nat.zero_le _) (by omega)
  have follower : other.next range.start = range.start + range.size := by
    have cell : range.start + 8 = BitVec.ofNat 32 (range.start.toNat + 8) := by bv_omega
    rw [← second, Heap.next, Heap.next, cell]
    exact loadWord_of_same fun byte lower upper => kept byte (Nat.zero_le _) (by omega)
  have busy : other.used range.start = 1 := by
    have cell : range.start + 4 = BitVec.ofNat 32 (range.start.toNat + 4) := by bv_omega
    rw [← used, Heap.used, Heap.used, cell]
    exact kept _ (Nat.zero_le _) (by omega)
  have stop : other.heapEnd.toNat = range.start.toNat + range.size.toNat := by
    rw [heapEnd, located, sized]
    bv_omega
  have within (p : Word) (lower : range.start.toNat ≤ p.toNat) (upper : p.toNat < range.start.toNat + range.size.toNat) :
      ¬ (p < other.heapStart ∨ p ≥ other.heapEnd) := by
    rw [BitVec.lt_def, ge_iff_le, BitVec.le_def, stop, located]
    omega
  have magic : loadWord other.memory (range.start + 20 - 4 - 4) = alignedMagic := by
    rw [← marked, Heap.mark]
    dsimp only
    rw [loadWord_storeWord_apart, loadWord_storeWord_self]
    constructor <;> bv_omega
  have back : loadWord other.memory (range.start + 20 - 4) = range.start + 12 := by
    rw [← marked, Heap.mark]
    exact loadWord_storeWord_self _ _ _
  have target : other.kfreeBlock (range.start + 20) = some other.heapStart := by
    rw [kfreeBlock, if_neg (by bv_omega), if_neg (within _ (by bv_omega) (by bv_omega)), if_pos magic, back]
    dsimp only
    rw [if_neg (within _ (by bv_omega) (by bv_omega)), located]
    congr 1
    bv_omega
  have entered : other.outside other.heapStart = false := by
    rw [located]
    simpa [Heap.outside] using within range.start (by omega) (by omega)
  have beyond : other.outside (other.next other.heapStart) = true := by
    rw [located, follower]
    have high : range.start + range.size ≥ other.heapEnd := by
      rw [ge_iff_le, BitVec.le_def, stop]
      bv_omega
    simp [Heap.outside, high]
  rw [← located] at amount follower busy
  obtain ⟨freed, returns, after, keptSize, keptNext⟩ := other.kfree_before_end target (by rw [busy]; decide)
    (by rw [located]; bv_omega) (by rw [located]; omega) entered (by rw [amount]; bv_omega)
    (by rw [follower, located]; bv_omega) beyond
  refine ⟨other, freed, result, returns, fun blocks => ?_⟩
  rw [amount, located] at keptSize
  rw [follower, located] at keptNext
  exact not_holds_overflow (after.heapStart.trans located) (after.heapSize.trans sized) keptSize keptNext

end Overflow

/-- In every run every pointer from `kmalloc_aligned` is freed through its block
exactly when the heap has at most 2^32 - 20 bytes. -/
theorem kmalloc_aligned_freed_iff (range : HeapRange) :
    (∀ memory state, Reachable (HeapLoans.Step WithinHeap) (HeapLoans.start range memory) state →
      ∀ size align p other, PowerOfTwo align → WithinHeap state.heap size align →
        state.heap.kmallocAligned size align = some (p, other) → p ≠ 0 → FreedThroughBlock state size align p other) ↔
    range.size.toNat ≤ 2 ^ 32 - 20 := by
  constructor
  · intro traced
    apply Nat.le_of_not_lt
    intro large
    have inside := range.inside
    have within : WithinHeap (HeapLoans.start range fun _ => 0).heap (range.size - 24) 4 := by
      change (range.size - 24).toNat + 4 + 8 ≤ range.size.toNat
      bv_omega
    obtain ⟨other, freed, result, returns, broken⟩ := aligned_overflow (fun _ => 0) large
    obtain ⟨_, _, _, _, blocks, last, _, again, restored⟩ :=
      traced (fun _ => 0) _ .refl (range.size - 24) 4 _ _ (by decide) within result (by bv_omega)
    obtain rfl := Option.some.inj (returns.symm.trans again)
    exact broken blocks restored
  · intro fits memory state reach size align p other _ within result nonnull
    obtain ⟨blocks, lent⟩ := LoanSound.run fits (LoanSound.admissible_within fits) reach
    exact lent.freedThroughBlock fits within nonnull result

/-- The one block of a heap over nearly all of the address space is not put
back as it was. -/
theorem aligned_block_not_restored :
    ∃ other, (HeapLoans.start wideRange fun _ => 0).heap.kmallocAligned 0xFFFFFFD8 4 = some (24, other) ∧
      WithinHeap (HeapLoans.start wideRange fun _ => 0).heap 0xFFFFFFD8 4 ∧
      ¬ FreedThroughBlock (HeapLoans.start wideRange fun _ => 0) 0xFFFFFFD8 4 24 other := by
  obtain ⟨other, freed, result, returns, broken⟩ := @aligned_overflow wideRange (fun _ => 0) (by decide)
  refine ⟨other, result, ?_, ?_⟩
  · rw [WithinHeap]
    decide
  · rintro ⟨_, _, _, _, blocks, last, _, again, restored⟩
    obtain rfl := Option.some.inj (returns.symm.trans again)
    exact broken blocks restored

end MexOS.Mm
