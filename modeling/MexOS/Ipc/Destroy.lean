import MexOS.Ipc.Wakeup

/-! What becomes of a task that waits on a port while it is destroyed. -/

namespace MexOS.Ipc

open MexOS.Machine MexOS.Sched

def Request.flags : Request → Word
  | .send _ flags => flags
  | .receive flags => flags

/-- Only calls without `IPC_NONBLOCK` stay inside their loop. -/
def System.Patient (system : System) : Prop :=
  ∀ task port request, system.inside task = some (port, request) → request.flags &&& ipcNonblock = 0

theorem Port.turn_blocks_flags {p p' : Port} (result : p.turn request current = .blocks p') :
    request.flags &&& ipcNonblock = 0 := by
  cases request with
  | send msg flags =>
    simp only [Port.turn, msgSendTurn] at result
    split at result
    · cases result
    · split at result
      · split at result
        · cases result
        · next patient => exact not_not.mp patient
      · split at result <;> cases result
  | receive flags =>
    simp only [Port.turn, msgReceiveTurn] at result
    split at result
    · split at result
      · cases result
      · next patient => exact not_not.mp patient
    · split at result
      · cases result
      · split at result <;> cases result

theorem System.Patient.step {before after : System} (patient : before.Patient) (step : before.Step event after) :
    after.Patient := by
  intro task port request inside
  obtain earlier | ⟨now, _⟩ := step.inside_cases inside
  · exact patient task port request earlier
  · subst now
    cases step with
    | blocks executes running turn dispatch => exact Port.turn_blocks_flags turn

theorem System.Patient.of_trace {start system : System} (initial : start.Initial)
    (trace : Trace System.Step start events system) : system.Patient := by
  refine trace.invariant (fun _ system => system.Patient) ?_ ?_
  · intro task port request inside
    rw [initial.inside] at inside
    cases inside
  · intro _ before event after patient step
    exact patient.step step

/-- A turn of a blocking call, made by a task. -/
theorem Port.turn_cases {p : Port} (patient : request.flags &&& ipcNonblock = 0) (task : Nat) :
    p.turn request (some task) = .fault ∨ (∃ p', p.turn request (some task) = .blocks p') ∨
      ∃ p' woken message, p.turn request (some task) = .returns 0 p' woken message := by
  cases request with
  | send msg flags =>
    have blocking : ¬ flags &&& ipcNonblock ≠ 0 := not_not.mpr patient
    simp only [Port.turn, msgSendTurn, blocking, ↓reduceIte]
    split
    · exact .inl rfl
    · split
      · exact .inr (.inl ⟨_, rfl⟩)
      · split
        · exact .inl rfl
        · exact .inr (.inr ⟨_, _, _, rfl⟩)
  | receive flags =>
    have blocking : ¬ flags &&& ipcNonblock ≠ 0 := not_not.mpr patient
    simp only [Port.turn, msgReceiveTurn, blocking, ↓reduceIte]
    split
    · exact .inr (.inl ⟨_, rfl⟩)
    · split
      · exact .inl rfl
      · split
        · exact .inl rfl
        · exact .inr (.inr ⟨_, _, _, rfl⟩)

/-- Steps in which the task does not run. -/
def System.StepWithout (task : Nat) (before : System) (event : Event) (after : System) : Prop :=
  before.Step event after ∧ before.sched.currentTask ≠ some task

theorem System.Step.inside_of_other {before after : System} (step : before.Step event after)
    (other : before.sched.currentTask ≠ some task) : after.inside task = before.inside task := by
  have moves := step.moves task
  generalize after.inside task = place at moves
  cases moves with
  | stays => rfl
  | leaves running => exact absurd running other
  | waits running => exact absurd running other

theorem System.inside_without {start system : System}
    (trace : Trace (System.StepWithout task) start events system) : system.inside task = start.inside task := by
  refine trace.invariant (fun _ system => system.inside task = start.inside task) rfl ?_
  intro _ before event after same ⟨step, other⟩
  rw [step.inside_of_other other, same]

/-- What the next turn of the current task does when it is inside a call. -/
def System.resumption (system : System) : Option Turn :=
  system.pending.map fun (port, request) => (system.ports port).turn request system.sched.currentTask

/-- The task gives up its call with `-1` and does nothing else. -/
def Turn.GivesUp : Turn → Prop
  | .returns result _ _ _ => result = -1
  | _ => False

/-- The three things a waiter must not do when its port is gone. -/
def Turn.Harms : Turn → Prop
  | .fault => True
  | .blocks _ => True
  | .returns result _ _ _ => result = 0

/-- A task is blocked in a call on a port when another task destroys it, and
some time later it is the first task's turn again. -/
structure Abandoned (task : Nat) (port : Fin maxPorts) (request : Request)
    (start before destroyed later : System) : Prop where
  initial : start.Initial
  history : ∃ events, Trace System.Step start events before
  inside : before.inside task = some (port, request)
  blocked : before.Blocked task
  elsewhere : before.sched.currentTask ≠ some task
  destroy : before.Step (.destroyed port) destroyed
  meanwhile : ∃ events, Trace (System.StepWithout task) destroyed events later
  runs : later.sched.currentTask = some task

/-- Whatever happened before and whatever happens until the waiter runs again:
it never gives up with `-1`. It faults, blocks again, or moves a message
through the port that is now in the slot. -/
theorem destroyed_waiter_never_gives_up (task : Nat) (port : Fin maxPorts) (request : Request)
    (start before destroyed later : System) (abandoned : Abandoned task port request start before destroyed later) :
    ∃ turn, later.resumption = some turn ∧ ¬ turn.GivesUp ∧ turn.Harms := by
  obtain ⟨initial, ⟨_, history⟩, inside, _, elsewhere, destroy, ⟨_, meanwhile⟩, runs⟩ := abandoned
  have place : later.inside task = some (port, request) := by
    rw [System.inside_without meanwhile, destroy.inside_of_other elsewhere, inside]
  have patient := System.Patient.of_trace initial history task port request inside
  have resumes : later.resumption = some ((later.ports port).turn request (some task)) := by
    simp [System.resumption, System.pending, runs, place]
  refine ⟨_, resumes, ?_⟩
  obtain fault | ⟨p, blocks⟩ | ⟨p, woken, message, returns⟩ := @Port.turn_cases request (later.ports port) patient task
  · rw [fault]
    exact ⟨id, trivial⟩
  · rw [blocks]
    exact ⟨id, trivial⟩
  · rw [returns]
    refine ⟨?_, rfl⟩
    intro gives
    cases gives

theorem System.perform_destroy {system : System} (performed : system.perform (.destroy 0) = some (event, next)) :
    event = .destroyed firstPort ∧ next.sched.currentTask = system.sched.currentTask := by
  have first : System.portAt 0 = some firstPort := by decide
  simp only [System.perform, first] at performed
  split at performed
  · next port outside found =>
    split at performed
    · cases performed
    · next owned =>
      cases found
      cases performed
      refine ⟨rfl, ?_⟩
      simp [System.portDestroy, first, owned]
  · cases performed

/-- Task 1 waits on the first port, the current task destroys it and yields,
and task 1 gets the processor. -/
def System.abandons (before : System) (side : Side) (check : Option Turn → Bool) : Bool :=
  before.isInside firstPort side 1 && decide (before.sched.stateOf 1 = some .blocked) &&
    decide (before.sched.currentTask ≠ some 1) &&
    ((before.run [.destroy 0, .yield]).map fun result =>
      decide (result.2.sched.currentTask = some 1) && check result.2.resumption) == some true

theorem Abandoned.of_run {tasks : List Nat} (distinct : tasks.Nodup) (nonzero : 0 ∉ tasks) {actions : List Action}
    {side : Side} {check : Option Turn → Bool}
    (passes : ((System.boot tasks).run actions).map (fun result => result.2.abandons side check) = some true) :
    ∃ request before destroyed later, Abandoned 1 firstPort request (System.boot tasks) before destroyed later ∧
      check later.resumption = true := by
  obtain ⟨history, before, trace, passed⟩ := @System.run_reaches tasks distinct nonzero
    (fun _ before => before.abandons side check) actions passes
  simp only [System.abandons, Bool.and_eq_true, beq_iff_eq, decide_eq_true_eq, Option.map_eq_some_iff] at passed
  obtain ⟨⟨⟨inside, blocked⟩, elsewhere⟩, ⟨events, later⟩, ran, runs, checked⟩ := passed
  obtain ⟨request, place, _⟩ := System.isInside_iff.mp inside
  have initial := System.boot_initial distinct nonzero
  have valid : before.sched.Valid :=
    trace.invariant (fun _ system => system.sched.Valid) initial.sched fun _ _ _ _ valid step => step.valid valid
  simp only [System.run] at ran
  split at ran
  · cases ran
  · next event destroyed performed =>
    obtain ⟨same, current⟩ := System.perform_destroy performed
    subst same
    have destroy := System.perform_step valid performed
    split at ran
    · cases ran
    · next event next yielded =>
      have step := System.perform_step (destroy.valid valid) yielded
      simp only [Option.map_some, Option.some.injEq, Prod.mk.injEq] at ran
      obtain ⟨_, reached⟩ := ran
      subst reached
      have idle : System.StepWithout 1 destroyed event next := ⟨step, by rw [current]; exact elsewhere⟩
      exact ⟨request, before, destroyed, next, ⟨initial, ⟨history, trace⟩, place, blocked, elsewhere, destroy,
        ⟨_, Trace.nil.snoc idle⟩, runs⟩, checked⟩

/-- A receiver waits on an empty port that the second task destroys. -/
theorem destroyed_receiver_blocks_again : ∃ request before destroyed later,
    Abandoned 1 firstPort request (System.boot [1, 2]) before destroyed later ∧
      ∃ turn, later.resumption = some turn ∧ ¬ turn.GivesUp ∧ turn.Harms := by
  obtain ⟨request, before, destroyed, later, abandoned, _⟩ := @Abandoned.of_run [1, 2] (by decide) (by decide)
    [.create 1 true, .call (.receive 0 true 0)] .receiving (fun _ => true) (by decide +kernel)
  exact ⟨request, before, destroyed, later, abandoned,
    destroyed_waiter_never_gives_up 1 firstPort request (System.boot [1, 2]) before destroyed later abandoned⟩

def faults : Option Turn → Bool
  | some .fault => true
  | _ => false

/-- A sender waits on a full port that the second task destroys: its next turn
divides by the zero that `memset` left in `queue_size`. -/
theorem destroyed_sender_divides_by_zero : ¬ ∀ task port request start before destroyed later,
    Abandoned task port request start before destroyed later →
      ∃ turn, later.resumption = some turn ∧ turn.GivesUp := by
  intro claim
  obtain ⟨request, before, destroyed, later, abandoned, fault⟩ := @Abandoned.of_run [1, 2] (by decide) (by decide)
    (.create 1 true :: List.replicate 16 (.call (.send 0 (some Message.zero) 0))) .sending
    faults (by decide +kernel)
  obtain ⟨turn, resumes, gives⟩ := claim 1 firstPort request (System.boot [1, 2]) before destroyed later abandoned
  rw [resumes] at fault
  cases turn with
  | fault => exact gives
  | blocks => cases fault
  | returns => cases fault

end MexOS.Ipc
