import Mathlib.Logic.Relation

/-! Runs of a transition system and the invariant rules for them. -/

namespace MexOS.Machine

/-- The states that some run from `start` gets to. -/
abbrev Reachable (step : α → α → Prop) (start : α) : α → Prop := Relation.ReflTransGen step start

theorem Reachable.invariant {step : α → α → Prop} {start state : α} {holds : α → Prop}
    (reach : Reachable step start state) (initial : holds start)
    (preserved : ∀ before after, holds before → step before after → holds after) : holds state := by
  induction reach with
  | refl => exact initial
  | tail _ last ih => exact preserved _ _ ih last

/-- Runs that remember what each step showed to the outside, oldest first. -/
inductive Trace (step : α → ε → α → Prop) (start : α) : List ε → α → Prop
  | nil : Trace step start [] start
  | snoc : Trace step start events before → step before event after →
    Trace step start (events ++ [event]) after

theorem Trace.invariant {step : α → ε → α → Prop} {start state : α}
    (trace : Trace step start events state) (holds : List ε → α → Prop) (initial : holds [] start)
    (preserved : ∀ events before event after, holds events before → step before event after →
      holds (events ++ [event]) after) : holds events state := by
  induction trace with
  | nil => exact initial
  | snoc _ last ih => exact preserved _ _ _ _ ih last

/-- One run after the other. -/
theorem Trace.append {step : α → ε → α → Prop} {start middle state : α} (first : Trace step start events middle)
    (second : Trace step middle later state) : Trace step start (events ++ later) state := by
  induction second with
  | nil => simpa using first
  | snoc _ last ih =>
    rw [← List.append_assoc]
    exact ih.snoc last

/-- A run of some length, cut in two. -/
theorem Trace.split {step : α → ε → α → Prop} {start state : α} (trace : Trace step start (events ++ later) state) :
    ∃ middle, Trace step start events middle ∧ Trace step middle later state := by
  generalize shape : events ++ later = whole at trace
  induction trace generalizing later with
  | nil =>
    obtain ⟨rfl, rfl⟩ := List.append_eq_nil_iff.mp shape
    exact ⟨start, .nil, .nil⟩
  | @snoc earlier before last after run step ih =>
    rcases later.eq_nil_or_concat with rfl | ⟨rest, event, rfl⟩
    · rw [List.append_nil] at shape
      subst shape
      exact ⟨after, run.snoc step, .nil⟩
    · rw [List.concat_eq_append, ← List.append_assoc] at shape
      obtain ⟨same, final⟩ := List.append_inj' shape rfl
      obtain rfl := List.singleton_inj.mp final
      obtain ⟨middle, first, second⟩ := ih same
      rw [List.concat_eq_append]
      exact ⟨middle, first, second.snoc step⟩

/-- The last step of a run. -/
theorem Trace.unsnoc {step : α → ε → α → Prop} {start state : α} (trace : Trace step start (events ++ [event]) state) :
    ∃ before, Trace step start events before ∧ step before event state := by
  generalize shape : events ++ [event] = whole at trace
  cases trace with
  | nil => cases List.append_ne_nil_of_right_ne_nil _ (List.cons_ne_nil _ _) shape
  | @snoc earlier before last after run taken =>
    obtain ⟨rfl, final⟩ := List.append_inj' shape rfl
    obtain rfl := List.singleton_inj.mp final
    exact ⟨before, run, taken⟩

/-- A run seen through `view`, where some steps do not show. -/
theorem Trace.simulates {step : α → ε → α → Prop} {coarse : β → δ → β → Prop} {start state : α}
    (trace : Trace step start events state) (view : α → β) (label : ε → Option δ) (holds : α → Prop)
    (initial : holds start)
    (matched : ∀ before event after, holds before → step before event after → holds after ∧
      ((label event = none ∧ view after = view before) ∨
        ∃ seen, label event = some seen ∧ coarse (view before) seen (view after))) :
    holds state ∧ Trace coarse (view start) (events.filterMap label) (view state) := by
  induction trace with
  | nil => exact ⟨initial, .nil⟩
  | snoc run taken ih =>
    obtain ⟨kept, coarser⟩ := ih
    obtain ⟨holding, ⟨silent, same⟩ | ⟨seen, label, next⟩⟩ := matched _ _ _ kept taken
    · simpa [silent, same] using And.intro holding coarser
    · refine ⟨holding, ?_⟩
      rw [List.filterMap_append, List.filterMap_cons_some label]
      exact coarser.snoc next

/-- Whatever a run showed, it showed in some step. -/
theorem Trace.mem {step : α → ε → α → Prop} {start state : α} (trace : Trace step start events state)
    (member : event ∈ events) : ∃ front back before after, events = front ++ event :: back ∧
      Trace step start front before ∧ step before event after := by
  induction trace with
  | nil => cases member
  | @snoc events before last after earlier step ih =>
    rcases List.mem_append.mp member with early | late
    · obtain ⟨front, back, between, next, shape, run, taken⟩ := ih early
      refine ⟨front, back ++ [last], between, next, ?_, run, taken⟩
      rw [shape, List.append_assoc, List.cons_append]
    · obtain rfl := List.mem_singleton.mp late
      exact ⟨events, [], before, after, rfl, earlier, step⟩

end MexOS.Machine
