import MexOS.Machine.Memory

/-! Regions of memory that follow each other. -/

namespace MexOS.Machine

/-- The regions cover the `length` bytes from `start` on, in order, with no gap
and no overlap. -/
def Tiles : List (Word × Nat) → Word → Nat → Prop
  | [], _, length => length = 0
  | (base, size) :: rest, start, length =>
    base = start ∧ size ≤ length ∧ Tiles rest (start + BitVec.ofNat 32 size) (length - size)

theorem tiles_append {front back : List (Word × Nat)} {start : Word} {first second : Nat} (before : Tiles front start first)
    (after : Tiles back (start + BitVec.ofNat 32 first) second) : Tiles (front ++ back) start (first + second) := by
  induction front generalizing start first with
  | nil =>
    obtain rfl : first = 0 := before
    rw [BitVec.add_zero] at after
    rwa [List.nil_append, Nat.zero_add]
  | cons region front ih =>
    obtain ⟨base, size⟩ := region
    obtain ⟨here, fits, rest⟩ := before
    refine ⟨here, by omega, ?_⟩
    have next : start + BitVec.ofNat 32 size + BitVec.ofNat 32 (first - size) = start + BitVec.ofNat 32 first := by
      rw [BitVec.add_assoc, ← BitVec.ofNat_add, Nat.add_sub_cancel' fits]
    have shape : first + second - size = first - size + second := by omega
    rw [List.append_eq, shape]
    exact ih rest (next ▸ after)

theorem tiles_single {start : Word} {length : Nat} : Tiles [(start, length)] start length :=
  ⟨rfl, Nat.le_refl _, Nat.sub_self _⟩

/-- Blocks of one size. -/
theorem tiles_blocks (start : Word) (size count : Nat) :
    Tiles ((List.range count).map fun block => (start + BitVec.ofNat 32 (size * block), size)) start (size * count) := by
  induction count with
  | zero => rfl
  | succ count ih =>
    rw [List.range_succ, List.map_append, List.map_singleton, Nat.mul_succ]
    exact tiles_append ih tiles_single

end MexOS.Machine
