import Mathlib.Data.List.Nodup
import Mathlib.Data.List.Pairwise
import Mathlib.Data.List.Perm.Basic

/-! Things that are taken from a pool and given back: the ledger of the calls,
and holdings that are gathered from slots. -/

namespace MexOS.Machine

inductive Ledger (α : Type) where
  | taken (thing : α)
  | returned (thing : α)
deriving DecidableEq

namespace Ledger

variable {α : Type} [DecidableEq α] {ledger : List (Ledger α)} {things : List α}

/-- What the calls, newest first, leave in the hands of the callers. -/
def held : List (Ledger α) → List α
  | [] => []
  | .taken thing :: earlier => thing :: held earlier
  | .returned thing :: earlier => (held earlier).erase thing

/-- Whatever is returned was taken by one of these calls and not returned
since. -/
def Honest : List (Ledger α) → Prop
  | [] => True
  | .taken _ :: earlier => Honest earlier
  | .returned thing :: earlier => thing ∈ held earlier ∧ Honest earlier

end Ledger

section Slots

variable {σ β : Type} {slots : List σ} {before after : σ → List β} {slot other : σ} {extra : List β}

/-- When one slot gets more, so do the holdings. -/
theorem flatMap_perm_of_slot (distinct : slots.Nodup) (member : slot ∈ slots)
    (others : ∀ other ∈ slots, other ≠ slot → after other = before other)
    (more : (after slot).Perm (extra ++ before slot)) :
    (slots.flatMap after).Perm (extra ++ slots.flatMap before) := by
  induction slots with
  | nil => cases member
  | cons first rest ih =>
    obtain ⟨absent, distinctRest⟩ := List.nodup_cons.mp distinct
    rw [List.flatMap_cons, List.flatMap_cons]
    by_cases here : first = slot
    · subst here
      have same : rest.flatMap after = rest.flatMap before := by
        apply List.flatMap_congr
        intro other present
        exact others other (List.mem_cons_of_mem _ present) (fun same => absent (same ▸ present))
      rw [same, ← List.append_assoc]
      exact more.append_right _
    · have later : slot ∈ rest := (List.mem_cons.mp member).resolve_left (Ne.symm here)
      have moved := ih distinctRest later fun other present => others other (List.mem_cons_of_mem _ present)
      rw [others first List.mem_cons_self here]
      refine (moved.append_left _).trans ?_
      rw [← List.append_assoc, ← List.append_assoc]
      exact List.perm_append_comm.append_right _

/-- Different slots hold different things. -/
theorem eq_of_mem_flatMap_nodup (distinct : (slots.flatMap before).Nodup) (first : slot ∈ slots) (second : other ∈ slots)
    {thing : β} (here : thing ∈ before slot) (there : thing ∈ before other) : slot = other := by
  by_contra different
  have symmetric : Std.Symm (Function.onFun List.Disjoint before) := ⟨fun _ _ disjoint _ right left => disjoint left right⟩
  have disjoint := (List.nodup_flatMap.mp distinct).2.forall first second different
  exact disjoint here there

end Slots

end MexOS.Machine
