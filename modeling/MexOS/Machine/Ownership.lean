import Mathlib.Logic.Function.Basic

/-! Slots that hold things out of a pool, no thing twice. -/

namespace MexOS.Machine

/-- What a slot holds is taken, and no other slot holds it. -/
structure Exclusive (holds : σ → Option β) (taken : β → Prop) : Prop where
  taken : ∀ {slot thing}, holds slot = some thing → taken thing
  once : ∀ {slot other thing}, holds slot = some thing → holds other = some thing → slot = other

namespace Exclusive

variable {holds fewer : σ → Option β} {taken rest : β → Prop}

/-- Giving a thing that is not taken to a slot. -/
theorem assign [DecidableEq σ] (exclusive : Exclusive holds taken) (slot : σ) {thing : β} (fresh : ¬ taken thing) :
    Exclusive (Function.update holds slot (some thing)) (fun other => other = thing ∨ taken other) := by
  constructor
  · intro place other here
    by_cases same : place = slot
    · subst same
      rw [Function.update_self, Option.some.injEq] at here
      exact .inl here.symm
    · rw [Function.update_of_ne same] at here
      exact .inr (exclusive.taken here)
  · intro first second other left right
    by_cases firstSame : first = slot
    · by_cases secondSame : second = slot
      · rw [firstSame, secondSame]
      · subst firstSame
        rw [Function.update_self, Option.some.injEq] at left
        rw [Function.update_of_ne secondSame, ← left] at right
        exact absurd (exclusive.taken right) fresh
    · by_cases secondSame : second = slot
      · subst secondSame
        rw [Function.update_self, Option.some.injEq] at right
        rw [Function.update_of_ne firstSame, ← right] at left
        exact absurd (exclusive.taken left) fresh
      · rw [Function.update_of_ne firstSame] at left
        rw [Function.update_of_ne secondSame] at right
        exact exclusive.once left right

/-- Slots may let go, and what nobody holds may become free. -/
theorem restrict (exclusive : Exclusive holds taken)
    (kept : ∀ slot thing, fewer slot = some thing → holds slot = some thing)
    (still : ∀ slot thing, fewer slot = some thing → rest thing) : Exclusive fewer rest := by
  constructor
  · intro slot thing here
    exact still slot thing here
  · intro slot other thing left right
    exact exclusive.once (kept _ _ left) (kept _ _ right)

end Exclusive

end MexOS.Machine
