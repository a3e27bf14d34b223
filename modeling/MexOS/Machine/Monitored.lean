import Mathlib.Data.List.Basic

/-! Computations that show what they do, and rules for properties of what they
have shown. -/

namespace MexOS.Machine

/-- A computation with its events, oldest first; without a value it has stopped
before it returned. -/
structure Monitored (ε α : Type) where
  value : Option α
  trace : List ε

namespace Monitored

variable {ε α β : Type}

instance : Monad (Monitored ε) where
  pure a := ⟨some a, []⟩
  bind m f :=
    match m.value with
    | none => ⟨none, m.trace⟩
    | some a => ⟨(f a).value, m.trace ++ (f a).trace⟩

def stop : Monitored ε α := ⟨none, []⟩

/-- What an `Option` has, or the end of the computation. -/
def ofOption (value : Option α) : Monitored ε α := ⟨value, []⟩

def tell (event : ε) : Monitored ε Unit := ⟨some (), [event]⟩

theorem bind_stopped {m : Monitored ε α} {f : α → Monitored ε β} (stopped : m.value = none) :
    (m >>= f).value = none ∧ (m >>= f).trace = m.trace := by
  change (match m.value with | none => _ | some a => _ : Monitored ε β).value = _ ∧
    (match m.value with | none => _ | some a => _ : Monitored ε β).trace = _
  rw [stopped]
  exact ⟨rfl, rfl⟩

theorem bind_returned {m : Monitored ε α} {f : α → Monitored ε β} {a : α} (returned : m.value = some a) :
    (m >>= f).value = (f a).value ∧ (m >>= f).trace = m.trace ++ (f a).trace := by
  change (match m.value with | none => _ | some a => _ : Monitored ε β).value = _ ∧
    (match m.value with | none => _ | some a => _ : Monitored ε β).trace = _
  rw [returned]
  exact ⟨rfl, rfl⟩

/-- Without its events a computation is one in `Option`. -/
theorem value_bind (m : Monitored ε α) (f : α → Monitored ε β) : (m >>= f).value = m.value.bind fun a => (f a).value := by
  cases returned : m.value with
  | none => exact (bind_stopped returned).1
  | some a => exact (bind_returned returned).1

@[simp] theorem value_pure (a : α) : (pure a : Monitored ε α).value = some a := rfl

@[simp] theorem value_ofOption (value : Option α) : (ofOption value : Monitored ε α).value = value := rfl

@[simp] theorem value_tell (event : ε) : (tell event).value = some () := rfl

/-- What the computation shows, the computation shows that starts with it. -/
theorem mem_bind_left {m : Monitored ε α} {f : α → Monitored ε β} {event : ε} (shown : event ∈ m.trace) :
    event ∈ (m >>= f).trace := by
  cases returned : m.value with
  | none =>
    rw [(bind_stopped returned).2]
    exact shown
  | some a =>
    rw [(bind_returned returned).2]
    exact List.mem_append_left _ shown

theorem mem_bind_right {m : Monitored ε α} {f : α → Monitored ε β} {event : ε} {a : α} (returned : m.value = some a)
    (shown : event ∈ (f a).trace) : event ∈ (m >>= f).trace := by
  rw [(bind_returned returned).2]
  exact List.mem_append_right _ shown

/-- All events of the computation have the property. -/
def Shows (m : Monitored ε α) (holds : ε → Prop) : Prop := ∀ event ∈ m.trace, holds event

theorem Shows.pure (a : α) (holds : ε → Prop) : (Pure.pure a : Monitored ε α).Shows holds := by
  intro event shown
  cases shown

theorem Shows.bind {m : Monitored ε α} {f : α → Monitored ε β} {holds : ε → Prop} (first : m.Shows holds)
    (later : ∀ a, m.value = some a → (f a).Shows holds) : (m >>= f).Shows holds := by
  intro event shown
  cases returned : m.value with
  | none =>
    rw [(bind_stopped returned).2] at shown
    exact first event shown
  | some a =>
    rw [(bind_returned returned).2, List.mem_append] at shown
    rcases shown with early | late
    · exact first event early
    · exact later a returned event late

/-- All events have a property, and the value, if there is one, has another. -/
structure Meets (m : Monitored ε α) (holds : ε → Prop) (post : α → Prop) : Prop where
  shows_ : m.Shows holds
  returns : ∀ a, m.value = some a → post a

namespace Meets

variable {m : Monitored ε α} {f : α → Monitored ε β} {holds : ε → Prop} {middle post other : α → Prop}
  {last : β → Prop}

theorem pure {a : α} (spec : post a) : Meets (Pure.pure a : Monitored ε α) holds post :=
  ⟨.pure a holds, fun _ same => Option.some.inj same ▸ spec⟩

theorem stop : Meets (Monitored.stop : Monitored ε α) holds post :=
  ⟨fun _ shown => absurd shown List.not_mem_nil, fun _ stopped => by cases stopped⟩

theorem tell {event : ε} (shown : holds event) : Meets (Monitored.tell event) holds fun _ => True :=
  ⟨fun _ only => List.mem_singleton.mp only ▸ shown, fun _ _ => trivial⟩

theorem ofOption {value : Option α} (spec : ∀ a, value = some a → post a) :
    Meets (Monitored.ofOption value : Monitored ε α) holds post :=
  ⟨fun _ shown => absurd shown List.not_mem_nil, spec⟩

theorem bind (first : Meets m holds middle) (later : ∀ a, middle a → Meets (f a) holds last) :
    Meets (m >>= f) holds last := by
  refine ⟨first.shows_.bind fun a returned => (later a (first.returns a returned)).shows_, ?_⟩
  intro b returned
  rw [value_bind] at returned
  obtain ⟨a, fromM, fromF⟩ := Option.bind_eq_some_iff.mp returned
  exact (later a (first.returns a fromM)).returns b fromF

theorem imp (first : Meets m holds middle) (weaker : ∀ a, middle a → other a) : Meets m holds other :=
  ⟨first.shows_, fun a returned => weaker a (first.returns a returned)⟩

end Meets

/-- Every event is permitted by those before it, among them the `earlier`
ones. -/
def Permitted (permits : List ε → ε → Prop) (earlier trace : List ε) : Prop :=
  ∀ front event back, trace = front ++ event :: back → permits (earlier ++ front) event

section Permitted

variable {permits : List ε → ε → Prop} {earlier : List ε}

theorem Permitted.append {trace later : List ε} (first : Permitted permits earlier trace)
    (second : Permitted permits (earlier ++ trace) later) : Permitted permits earlier (trace ++ later) := by
  intro front event back split
  rcases List.append_eq_append_iff.mp split with ⟨middle, outer, inner⟩ | ⟨middle, outer, inner⟩
  · rw [outer, ← List.append_assoc]
    exact second middle event back inner
  · cases middle with
    | nil =>
      rw [List.append_nil] at outer
      rw [← outer, ← List.append_nil (earlier ++ trace)]
      exact second [] event back inner.symm
    | cons head middle =>
      obtain ⟨rfl, _⟩ := List.cons.inj inner
      exact first front event middle outer

/-- The computation keeps to what is permitted. -/
def Guarded (permits : List ε → ε → Prop) (earlier : List ε) (m : Monitored ε α) : Prop :=
  Permitted permits earlier m.trace

theorem Guarded.silent {m : Monitored ε α} (silent : m.trace = []) : Guarded permits earlier m := by
  intro front event back split
  rw [silent] at split
  exact absurd split.symm (by simp)

theorem Guarded.pure (a : α) : Guarded permits earlier (Pure.pure a : Monitored ε α) := .silent rfl

theorem Guarded.single {m : Monitored ε α} {event : ε} (shows_one : m.trace = [event])
    (permitted : permits earlier event) : Guarded permits earlier m := by
  intro front other back split
  rw [shows_one, List.singleton_eq_append_iff] at split
  rcases split with ⟨rfl, same⟩ | ⟨_, nothing⟩
  · obtain ⟨rfl, _⟩ := List.cons.inj same
    rw [List.append_nil]
    exact permitted
  · cases nothing

theorem Guarded.bind {m : Monitored ε α} {f : α → Monitored ε β} (first : Guarded permits earlier m)
    (later : ∀ a, m.value = some a → Guarded permits (earlier ++ m.trace) (f a)) :
    Guarded permits earlier (m >>= f) := by
  cases returned : m.value with
  | none =>
    rw [Guarded, (bind_stopped returned).2]
    exact first
  | some a =>
    rw [Guarded, (bind_returned returned).2]
    exact Permitted.append first (later a returned)

/-- Events that are permitted whatever else comes before them. -/
theorem Shows.guarded {m : Monitored ε α} {holds : ε → Prop} (shown : m.Shows holds)
    (permitted : ∀ event, holds event → ∀ more, permits (earlier ++ more) event) : Guarded permits earlier m := by
  intro front event back split
  apply permitted
  apply shown
  rw [split]
  exact List.mem_append_right _ List.mem_cons_self

/-- A computation that keeps to what is permitted shows no event that the
earlier events and its own do not permit. -/
theorem Guarded.permits_mem {m : Monitored ε α} {event : ε} (guarded : Guarded permits earlier m)
    (shown : event ∈ m.trace) : ∃ front, (∀ other ∈ front, other ∈ m.trace) ∧ permits (earlier ++ front) event := by
  obtain ⟨front, back, split⟩ := List.append_of_mem shown
  refine ⟨front, ?_, guarded front event back split⟩
  intro other before
  rw [split]
  exact List.mem_append_left _ before

end Permitted

end Monitored

end MexOS.Machine
