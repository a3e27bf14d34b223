import Mathlib.Logic.Relation

/-! Two runs that go in step: whatever is called, both answer the same and the
states stay related. -/

namespace MexOS.Machine

/-- Related results are carried on by continuations that keep them related. -/
theorem rel_bind {before : α → β → Prop} {after : γ → δ → Prop} {left : Option α} {right : Option β}
    {leftRest : α → Option γ} {rightRest : β → Option δ} (first : Option.Rel before left right)
    (rest : ∀ a b, before a b → Option.Rel after (leftRest a) (rightRest b)) :
    Option.Rel after (left.bind leftRest) (right.bind rightRest) := by
  cases first with
  | none => exact .none
  | some related => exact rest _ _ related

theorem rel_imp {before after : α → β → Prop} {left : Option α} {right : Option β} (both : Option.Rel before left right)
    (step : ∀ a b, before a b → after a b) : Option.Rel after left right := by
  cases both with
  | none => exact .none
  | some related => exact .some (step _ _ related)

theorem rel_cases {related : α → β → Prop} {left : Option α} {right : Option β} (both : Option.Rel related left right) :
    left = none ∧ right = none ∨ ∃ a b, left = some a ∧ right = some b ∧ related a b := by
  cases both with
  | none => exact .inl ⟨rfl, rfl⟩
  | some facts => exact .inr ⟨_, _, rfl, rfl, facts⟩

/-- Both computations get stuck, or both give the same answer and lead to
related states. -/
abbrev Lockstep (related : σ → τ → Prop) : Option (ρ × σ) → Option (ρ × τ) → Prop :=
  Option.Rel fun left right => right.1 = left.1 ∧ related left.2 right.2

namespace Lockstep

variable {related : σ → τ → Prop}

theorem answered {left : σ} {right : τ} (answer : ρ) (states : related left right) :
    Lockstep related (some (answer, left)) (some (answer, right)) := .some ⟨rfl, states⟩

theorem bind {after : σ → τ → Prop} {left : Option (ρ × σ)} {right : Option (ρ × τ)}
    {leftRest : ρ × σ → Option (κ × σ)} {rightRest : ρ × τ → Option (κ × τ)} (first : Lockstep related left right)
    (rest : ∀ answer s t, related s t → Lockstep after (leftRest (answer, s)) (rightRest (answer, t))) :
    Lockstep after (left.bind leftRest) (right.bind rightRest) := by
  apply rel_bind first
  rintro ⟨answer, s⟩ ⟨other, t⟩ ⟨same, states⟩
  simp only at same
  subst same
  exact rest _ _ _ states

theorem map (view : ρ → κ) {left : Option (ρ × σ)} {right : Option (ρ × τ)} (both : Lockstep related left right) :
    Lockstep related (left.map fun result => (view result.1, result.2))
      (right.map fun result => (view result.1, result.2)) := by
  cases both with
  | none => exact .none
  | some results => exact .some ⟨congrArg view results.1, results.2⟩

end Lockstep

section Runs

variable {step : ι → σ → Option (ρ × σ)} {fits : ι → σ → Prop} {related : σ → σ → Prop}

/-- The answers to a list of calls; nothing comes after a call that gets stuck. -/
def replies (step : ι → σ → Option (ρ × σ)) : List ι → σ → List (Option ρ)
  | [], _ => []
  | call :: rest, state =>
    match step call state with
    | none => [none]
    | some (reply, after) => some reply :: replies step rest after

/-- Every call of the list fits the state that it finds. -/
def Throughout (step : ι → σ → Option (ρ × σ)) (fits : ι → σ → Prop) : List ι → σ → Prop
  | [], _ => True
  | call :: rest, state =>
    fits call state ∧ ∀ reply after, step call state = some (reply, after) → Throughout step fits rest after

/-- If each call that fits keeps the relation, no list of calls can tell related
states apart. -/
theorem replies_eq
    (inStep : ∀ call left right, related left right → fits call left → fits call right →
      Lockstep related (step call left) (step call right))
    (calls : List ι) {left right : σ} (start : related left right) (leftFits : Throughout step fits calls left)
    (rightFits : Throughout step fits calls right) : replies step calls right = replies step calls left := by
  induction calls generalizing left right with
  | nil => rfl
  | cons call rest ih =>
    have both := inStep call left right start leftFits.1 rightFits.1
    rw [replies, replies]
    cases leftStep : step call left with
    | none =>
      rw [leftStep] at both
      cases rightStep : step call right with
      | none => rfl
      | some result =>
        rw [rightStep] at both
        cases both
    | some result =>
      obtain ⟨reply, after⟩ := result
      rw [leftStep] at both
      cases rightStep : step call right with
      | none =>
        rw [rightStep] at both
        cases both
      | some other =>
        obtain ⟨answer, later⟩ := other
        rw [rightStep] at both
        obtain ⟨same, states⟩ : answer = reply ∧ related after later := by
          cases both with
          | some facts => exact facts
        simp only
        rw [same, ih states (leftFits.2 reply after leftStep) (rightFits.2 answer later rightStep)]

end Runs

end MexOS.Machine
