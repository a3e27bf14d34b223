import MexOS.Machine.Bitmap
import MexOS.Machine.Transition

/-! A pool of numbers of which the lowest free one is handed out. -/

namespace MexOS.Machine

/-- What the clients of a pool see. -/
inductive PoolEvent
  | took (number : Nat)
  | gave (number : Nat)
  | refused

/-- One request to a pool of `total` numbers; what is given back is in use. -/
inductive PoolStep (total : Nat) : Finset Nat → PoolEvent → Finset Nat → Prop
  | took (inside : number < total) (fresh : number ∉ inUse) (lowest : ∀ earlier < number, earlier ∈ inUse) :
    PoolStep total inUse (.took number) (insert number inUse)
  | gave (held : number ∈ inUse) : PoolStep total inUse (.gave number) (inUse.erase number)
  | refused (full : ∀ number < total, number ∈ inUse) : PoolStep total inUse .refused inUse

variable {total number : Nat} {inUse after : Finset Nat} {events middle front back : List PoolEvent}

theorem PoolStep.keeps {event : PoolEvent} (step : PoolStep total inUse event after) (other : event ≠ .gave number)
    (held : number ∈ inUse) : number ∈ after := by
  cases step with
  | took _ _ _ => exact Finset.mem_insert_of_mem held
  | gave _ =>
    refine Finset.mem_erase.mpr ⟨?_, held⟩
    intro same
    exact other (by rw [same])
  | refused _ => exact held

theorem PoolStep.took_inv (step : PoolStep total inUse (.took number) after) :
    number ∉ inUse ∧ after = insert number inUse := by
  cases step with
  | took _ fresh _ => exact ⟨fresh, rfl⟩

/-- A number in use stays so until it is given back. -/
theorem pool_keeps (run : Trace (PoolStep total) inUse events after) (unreturned : .gave number ∉ events)
    (held : number ∈ inUse) : number ∈ after := by
  induction run with
  | nil => exact held
  | @snoc earlier before last after run step ih =>
    refine step.keeps ?_ (ih fun member => unreturned (List.mem_append_left _ member))
    intro same
    exact unreturned (List.mem_append_right _ (List.mem_singleton.mpr same.symm))

/-- What is handed out a second time was given back in between. -/
theorem pool_took_twice
    (run : Trace (PoolStep total) inUse (front ++ [.took number] ++ middle ++ [.took number] ++ back) after) :
    .gave number ∈ middle := by
  obtain ⟨_, run, _⟩ := run.split
  obtain ⟨_, run, again⟩ := run.unsnoc
  obtain ⟨held, run, between⟩ := run.split
  obtain ⟨_, _, once⟩ := run.unsnoc
  have taken : number ∈ held := by
    rw [once.took_inv.2]
    exact Finset.mem_insert_self _ _
  by_contra unreturned
  exact again.took_inv.1 (pool_keeps between unreturned taken)

/-! The set bits of a bitmap as a pool. -/

namespace Bitmap

variable {width bit : Nat} {bitmap : Bitmap width}

theorem pool_took (positive : 0 < width) (inside : bit < total) (free : bitmap.test bit = false)
    (lowest : ∀ earlier < bit, bitmap.test earlier = true) :
    PoolStep total (bitmap.marked total) (.took bit) ((bitmap.set bit).marked total) := by
  rw [marked_set positive inside]
  exact .took inside (by simp [free]) fun earlier before => mem_marked.mpr ⟨by omega, lowest earlier before⟩

theorem pool_gave (positive : 0 < width) (inside : bit < total) (held : bitmap.test bit = true) :
    PoolStep total (bitmap.marked total) (.gave bit) ((bitmap.clear bit).marked total) := by
  rw [marked_clear positive]
  exact .gave (mem_marked.mpr ⟨inside, held⟩)

theorem pool_refused (full : ∀ bit < total, bitmap.test bit = true) :
    PoolStep total (bitmap.marked total) .refused (bitmap.marked total) :=
  .refused fun bit inside => mem_marked.mpr ⟨inside, full bit inside⟩

end Bitmap

end MexOS.Machine
