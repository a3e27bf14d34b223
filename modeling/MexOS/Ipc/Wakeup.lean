import MexOS.Ipc.Fifo

/-! Each port remembers one waiting sender and one waiting receiver: when no
second task blocks on the same side, no wake-up is lost. -/

namespace MexOS.Ipc

open MexOS.Machine MexOS.Sched

/-- The two ends of a port. -/
inductive Side where
  | sending
  | receiving
deriving DecidableEq

def Request.side : Request → Side
  | .send _ _ => .sending
  | .receive _ => .receiving

def Side.opposite : Side → Side
  | .sending => .receiving
  | .receiving => .sending

/-- The task a port remembers for one of its ends. -/
def Port.waiting (p : Port) : Side → Nat
  | .sending => p.waitingSender
  | .receiving => p.waitingReceiver

/-- Why a call on this side has to wait: the queue is full, or empty. -/
def Port.Stuck (p : Port) : Side → Prop
  | .sending => (p.queueTail + 1) % p.queueSize = p.queueHead
  | .receiving => p.queueHead = p.queueTail

/-- `task` is inside a call on this side of the port. -/
def System.Inside (system : System) (port : Fin maxPorts) (side : Side) (task : Nat) : Prop :=
  ∃ request, system.inside task = some (port, request) ∧ request.side = side

def System.Blocked (system : System) (task : Nat) : Prop := system.sched.stateOf task = some .blocked

/-- Nobody who could go on is inside a call on this side. -/
def System.Asleep (system : System) (port : Fin maxPorts) (side : Side) : Prop :=
  ∀ task, system.Inside port side task →
    system.sched.stateOf task ≠ some .ready ∧ system.sched.stateOf task ≠ some .running

/-- A blocked receiver with a message to take, or a blocked sender with room
for its message, and everybody on that side asleep. -/
def System.LostWakeup (system : System) (port : Fin maxPorts) : Side → Prop
  | .receiving => (∃ task, system.Inside port .receiving task ∧ system.Blocked task) ∧
    (system.ports port).queued ≠ [] ∧ system.Asleep port .receiving
  | .sending => (∃ task, system.Inside port .sending task ∧ system.Blocked task) ∧
    (system.ports port).queued.length ≠ 15 ∧ system.Asleep port .sending

/-- A task blocks on a side of the port only while no other task is blocked
there. -/
def System.Alone (system : System) (port : Fin maxPorts) (event : Event) : Prop :=
  ∀ request task, event = .blocked port request task →
    ∀ other, other ≠ task → system.Inside port request.side other → ¬ system.Blocked other

/-- Everybody who is blocked on the port is the one it remembers. -/
def System.Remembered (system : System) (port : Fin maxPorts) : Prop :=
  ∀ side task, system.Inside port side task → system.Blocked task →
    (system.ports port).waiting side = task ∧ (system.ports port).Stuck side

theorem Port.Blocks.waiting {p p' : Port} (blocks : p.Blocks task request p') (side : Side) :
    p'.waiting side = if side = request.side then task else p.waiting side := by
  cases blocks <;> cases side <;> rfl

theorem Port.Blocks.stuck {p p' : Port} (blocks : p.Blocks task request p') (side : Side) :
    p'.Stuck side ↔ p.Stuck side := by
  cases blocks <;> cases side <;> exact Iff.rfl

theorem Port.Blocks.stuck_here {p p' : Port} (blocks : p.Blocks task request p') : p.Stuck request.side := by
  cases blocks with
  | full _ _ full => exact full
  | empty _ empty => exact empty

/-- A call that succeeds was not stuck, and wakes the task remembered at the
other end. -/
theorem Port.Returns.success {p p' : Port} (returns : p.Returns request code p' woken message) :
    (code = -2 ∧ p' = p) ∨ (¬ p.Stuck request.side ∧ woken = p.waiting request.side.opposite) := by
  cases returns with
  | busy => exact .inl ⟨rfl, rfl⟩
  | sent _ _ _ room => exact .inr ⟨room, rfl⟩
  | received _ _ filled => exact .inr ⟨filled, rfl⟩

theorem System.stateOf_wake_ne_blocked (system : System) (nonzero : task ≠ 0) :
    (system.wake task).sched.stateOf task ≠ some .blocked := by
  simp only [System.wake, nonzero, ↓reduceIte, Scheduler.stateOf_schedUnblock]
  cases system.sched.stateOf task <;> simp

theorem System.blocked_of_wake {system : System} (blocked : (system.wake woken).Blocked task) :
    system.Blocked task := by
  unfold System.Blocked System.wake at *
  split at blocked
  · exact blocked
  · rw [Scheduler.stateOf_schedUnblock] at blocked
    split at blocked
    · cases known : system.sched.stateOf task <;> simp [known] at blocked
    · exact blocked

/-- A blocked task was blocked before the step or blocks in it. -/
theorem System.Step.blocked_cases {before after : System} (step : before.Step event after)
    (blocked : after.Blocked task) :
    before.Blocked task ∨ ∃ port request, event = .blocked port request task := by
  cases step with
  | refused => exact .inl blocked
  | @returns port request code p woken message executes turn =>
    have earlier : ((before.setPort port p).wake woken).Blocked task := by
      unfold System.Blocked at blocked
      rw [System.setInside_sched] at blocked
      exact blocked
    have unwoken := System.blocked_of_wake earlier
    exact .inl unwoken
  | @blocks port request current p after executes running turn dispatch =>
    have marked := (dispatch.blocked_iff task).mp blocked
    rw [Scheduler.stateOf_markBlocked] at marked
    split at marked
    · next same => exact .inr ⟨port, request, by rw [same]⟩
    · exact .inl marked
  | reschedule dispatch => exact .inl ((dispatch.blocked_iff task).mp blocked)
  | create =>
    unfold System.Blocked at blocked
    rw [System.portCreate_sched] at blocked
    exact .inl blocked
  | destroy _ found owned =>
    simp only [System.portDestroy, found, owned, ↓reduceIte] at blocked
    exact .inl (System.blocked_of_wake (System.blocked_of_wake blocked))

/-- A call that returns leaves its port alone or was not stuck, and then the
task remembered at the other end is awake. -/
theorem System.Step.returned_cases {before after : System}
    (step : before.Step (.returned port request code message) after) :
    after.ports port = before.ports port ∨
      ¬ (before.ports port).Stuck request.side ∧
        ((before.ports port).waiting request.side.opposite ≠ 0 →
          ¬ after.Blocked ((before.ports port).waiting request.side.opposite)) := by
  cases step with
  | @returns _ _ _ p woken _ executes turn =>
    obtain ⟨_, same⟩ | ⟨free, waiter⟩ := (Port.turn_returns turn).success
    · subst same
      left
      simp
    · right
      refine ⟨free, ?_⟩
      intro nonzero
      rw [← waiter] at nonzero ⊢
      unfold System.Blocked
      rw [System.setInside_sched]
      exact System.stateOf_wake_ne_blocked _ nonzero

theorem Side.eq_or_eq_opposite (side other : Side) : other = side ∨ other = side.opposite := by
  cases side <;> cases other <;> simp [Side.opposite]

theorem System.Blocked.nonzero {system : System} (blocked : system.Blocked task) (valid : system.sched.Valid) :
    task ≠ 0 := by
  intro zero
  subst zero
  exact valid.nonzero (Scheduler.mem_ids_of_stateOf blocked)

/-- A task that blocks on the port in this step is the one remembered. -/
theorem System.Remembered.blocks {before after : System} (step : before.Step (.blocked port request task) after) :
    (after.ports port).waiting request.side = task ∧ (after.ports port).Stuck request.side := by
  have portStep := step.port_step port
  generalize after.ports port = p at portStep
  cases portStep with
  | same other => exact absurd rfl other
  | blocked _ blocks =>
    refine ⟨?_, (blocks.stuck _).mpr blocks.stuck_here⟩
    rw [blocks.waiting, if_pos rfl]

theorem System.Remembered.step {before after : System} (remembered : before.Remembered port)
    (owned : before.Owned port) (valid : before.sched.Valid) (step : before.Step event after)
    (kept : event ≠ .destroyed port) (alone : before.Alone port event) : after.Remembered port := by
  intro side task ⟨request, inside, same⟩ blocked
  subst same
  by_cases now : event = .blocked port request task
  · subst now
    exact System.Remembered.blocks step
  · -- The task was inside and blocked before, so it was the one remembered.
    have inside_before : before.inside task = some (port, request) := by
      obtain earlier | ⟨event, _⟩ := step.inside_cases inside
      · exact earlier
      · exact absurd event now
    have blocked_before : before.Blocked task := by
      obtain earlier | ⟨other, call, event⟩ := step.blocked_cases blocked
      · exact earlier
      · subst event
        have place := step.blocked_inside
        rw [inside] at place
        cases place
        exact absurd rfl now
    obtain ⟨waiting, stuck⟩ := remembered request.side task ⟨request, inside_before, rfl⟩ blocked_before
    have portStep := step.port_step port
    have settled : after.ports port = before.ports port →
        (after.ports port).waiting request.side = task ∧ (after.ports port).Stuck request.side := by
      intro unchanged
      rw [unchanged]
      exact ⟨waiting, stuck⟩
    generalize found : after.ports port = p at portStep settled
    cases portStep with
    | same => exact settled rfl
    | @returned other code p _ message executes returns =>
      obtain unchanged | ⟨free, awake⟩ := step.returned_cases
      · exact settled (found ▸ unchanged)
      · obtain here | across := Side.eq_or_eq_opposite other.side request.side
        · rw [here] at stuck
          exact absurd stuck free
        · rw [← across, waiting] at awake
          exact absurd blocked (awake (blocked_before.nonzero valid))
    | @blocked other sleeper p executes blocks =>
      have different : task ≠ sleeper := by
        intro same
        subst same
        have place := step.blocked_inside
        rw [inside] at place
        cases place
        exact now rfl
      have across : request.side ≠ other.side := by
        intro same
        exact alone other sleeper rfl task different ⟨request, inside_before, same⟩ blocked_before
      rw [blocks.waiting, blocks.stuck, if_neg across]
      exact ⟨waiting, stuck⟩
    | failed free => exact absurd free (owned task request inside_before)
    | created free => exact absurd free (owned task request inside_before)
    | destroyed => exact absurd rfl kept

/-- A step that keeps to the condition for this port. -/
def System.AloneStep (port : Fin maxPorts) (before : System) (event : Event) (after : System) : Prop :=
  before.Step event after ∧ event ≠ .destroyed port ∧ before.Alone port event

theorem AloneStep.trace {start system : System} (trace : Trace (System.AloneStep port) start events system) :
    Trace System.Step start events system ∧ .destroyed port ∉ events := by
  refine trace.invariant (fun events system => Trace System.Step start events system ∧ .destroyed port ∉ events) ?_ ?_
  · exact ⟨.nil, by simp⟩
  · intro events before event after ⟨earlier, kept⟩ ⟨step, different, _⟩
    refine ⟨earlier.snoc step, ?_⟩
    rw [List.mem_append, not_or, List.mem_singleton]
    exact ⟨kept, fun same => different same.symm⟩

theorem System.Remembered.of_trace {start system : System} (initial : start.Initial)
    (trace : Trace (System.AloneStep port) start events system) :
    system.Remembered port ∧ system.Owned port ∧ system.sched.Valid := by
  refine trace.invariant (fun _ system =>
    system.Remembered port ∧ system.Owned port ∧ system.sched.Valid) ?_ ?_
  · refine ⟨?_, System.Owned.initial initial port, initial.sched⟩
    intro side task ⟨request, inside, _⟩
    rw [initial.inside] at inside
    cases inside
  · intro events before event after ⟨remembered, owned, valid⟩ ⟨step, kept, alone⟩
    exact ⟨remembered.step owned valid step kept alone, owned.step step kept, step.valid valid⟩

theorem Port.queued_eq_nil_of_stuck {p : Port} (stuck : p.Stuck .receiving) : p.queued = [] := by
  have equal : p.queueHead = p.queueTail := stuck
  cases found : p.queue with
  | none => simp [Port.queued, found]
  | some slots =>
    rw [Port.queued_of_queue found, ← List.length_eq_zero_iff, RingBuffer.length_contents]
    simp [RingBuffer.count, Port.ring, equal]

/-- In every run in which a task blocks on a side of the port only while no
other task is blocked there, no wake-up is lost on the port. -/
theorem no_lost_wakeup_when_alone (start system : System) (initial : start.Initial) (port : Fin maxPorts)
    (events : List Event) (trace : Trace (System.AloneStep port) start events system)
    (live : (system.ports port).queue ≠ none) (side : Side) : ¬ system.LostWakeup port side := by
  obtain ⟨remembered, _, _⟩ := System.Remembered.of_trace initial trace
  cases side with
  | receiving =>
    intro ⟨⟨task, inside, blocked⟩, filled, _⟩
    exact filled (Port.queued_eq_nil_of_stuck (remembered .receiving task inside blocked).2)
  | sending =>
    intro ⟨⟨task, inside, blocked⟩, room, _⟩
    have stuck := (remembered .sending task inside blocked).2
    obtain ⟨plain, kept⟩ := AloneStep.trace trace
    obtain ⟨fifo, _⟩ := Fifo.of_trace initial port plain kept
    obtain ⟨slots, present⟩ := Option.ne_none_iff_exists'.mp live
    have shaped := fifo.shaped live
    have full := (shaped.valid slots).full_iff.mp stuck
    have size : (Port.ring (system.ports port) slots).size = 16 := shaped.size
    rw [size, ← Port.queued_of_queue present] at full
    exact room full

/-- The first task creates a port and blocks on it. -/
theorem no_lost_wakeup_one_receiver :
    ∃ events system, Trace (System.AloneStep firstPort) (System.boot [1, 2]) events system ∧ events.length = 2 ∧
      ∀ side, ¬ system.LostWakeup firstPort side := by
  have initial : (System.boot [1, 2]).Initial := System.boot_initial (by decide) (by decide)
  have created : System.AloneStep firstPort (System.boot [1, 2]) .silent ((System.boot [1, 2]).portCreate 1 true).2 :=
    ⟨.create rfl, by simp, by intro request task event; cases event⟩
  have valid := created.1.valid initial.sched
  have passes : ((((System.boot [1, 2]).portCreate 1 true).2.perform (.call (.receive 0 true 0))).map
      fun result => (result.2.ports firstPort).queue.isSome) = some true := by decide +kernel
  rw [Option.map_eq_some_iff] at passes
  obtain ⟨⟨event, last⟩, performed, present⟩ := passes
  simp only at present
  have step := System.perform_step valid performed
  have empty (other : Nat) : ((System.boot [1, 2]).portCreate 1 true).2.inside other = none := by
    rw [System.portCreate_inside]
    rfl
  have alone : ((System.boot [1, 2]).portCreate 1 true).2.Alone firstPort event := by
    intro request task _ other _ ⟨_, inside, _⟩
    rw [empty] at inside
    cases inside
  have live : (last.ports firstPort).queue ≠ none := by
    intro absent
    rw [absent] at present
    cases present
  have kept : event ≠ .destroyed firstPort := by
    intro destroyed
    subst destroyed
    have gone := step.port_step firstPort
    generalize last.ports firstPort = p at gone live
    cases gone with
    | same other => exact other rfl
    | destroyed => exact live rfl
  have trace := (Trace.nil.snoc created).snoc ⟨step, kept, alone⟩
  exact ⟨_, last, trace, rfl,
    no_lost_wakeup_when_alone (System.boot [1, 2]) last initial firstPort _ trace live⟩

def System.isInside (system : System) (port : Fin maxPorts) (side : Side) (task : Nat) : Bool :=
  match system.inside task with
  | none => false
  | some (place, request) => decide (place = port) && decide (request.side = side)

theorem System.isInside_iff {system : System} : system.isInside port side task = true ↔ system.Inside port side task := by
  unfold System.isInside System.Inside
  cases system.inside task with
  | none => simp
  | some place =>
    obtain ⟨place, request⟩ := place
    simp only [Bool.and_eq_true, decide_eq_true_eq, Option.some.injEq, Prod.mk.injEq]
    constructor
    · intro ⟨here, same⟩
      exact ⟨request, ⟨here, rfl⟩, same⟩
    · intro ⟨other, ⟨here, equal⟩, same⟩
      subst equal
      exact ⟨here, same⟩

/-- Only the tasks of the queue have to be looked at. -/
def System.isAsleep (system : System) (port : Fin maxPorts) (side : Side) : Bool :=
  (system.sched.taskQueue.map Task.id).all fun task =>
    !system.isInside port side task ||
      (decide (system.sched.stateOf task ≠ some .ready) && decide (system.sched.stateOf task ≠ some .running))

theorem System.Asleep.of_check {system : System} (checked : system.isAsleep port side = true) :
    system.Asleep port side := by
  intro task inside
  have awake (state : TaskState) (known : system.sched.stateOf task = some state) :
      system.sched.stateOf task ≠ some .ready ∧ system.sched.stateOf task ≠ some .running := by
    have passed := List.all_eq_true.mp checked task (Scheduler.mem_ids_of_stateOf known)
    rw [System.isInside_iff.mpr inside] at passed
    simpa using passed
  cases known : system.sched.stateOf task with
  | none => simp
  | some state =>
    rw [← known]
    exact awake state known

/-- Two receivers block one after the other; of two messages that follow, only
the first wakes somebody, and the second receiver takes only that one. -/
def twoReceivers : List Action :=
  [.create 1 true, .call (.receive 0 true 0), .call (.receive 0 true 0), .call (.send 0 (some Message.zero) 0),
    .call (.send 0 (some Message.zero) 0), .yield, .resume]

theorem lost_wakeup_two_receivers :
    ∃ events system, (System.boot [1, 2, 3]).Initial ∧ Trace System.Step (System.boot [1, 2, 3]) events system ∧
      .destroyed firstPort ∉ events ∧ (system.ports firstPort).queue ≠ none ∧
      system.LostWakeup firstPort .receiving := by
  obtain ⟨events, system, trace, passed⟩ := @System.run_reaches [1, 2, 3] (by decide) (by decide)
    (fun events last => events.all Event.keepsPort && (last.ports firstPort).queue.isSome &&
      (last.isInside firstPort .receiving 1 && decide (last.sched.stateOf 1 = some .blocked)) &&
      ((last.ports firstPort).queued.length == 1 && last.isAsleep firstPort .receiving)) twoReceivers
    (by decide +kernel)
  simp only [Bool.and_eq_true, beq_iff_eq, decide_eq_true_eq] at passed
  obtain ⟨⟨⟨keeps, present⟩, inside, blocked⟩, one, asleep⟩ := passed
  refine ⟨events, system, System.boot_initial (by decide) (by decide), trace, Event.kept keeps firstPort, ?_,
    ⟨1, System.isInside_iff.mp inside, blocked⟩, ?_, System.Asleep.of_check asleep⟩
  · intro absent
    rw [absent] at present
    cases present
  · intro empty
    rw [empty] at one
    cases one

end MexOS.Ipc
