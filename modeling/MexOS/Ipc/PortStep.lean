import MexOS.Ipc.Port

/-! What a turn does to its port and what a step does to one given port. -/

namespace MexOS.Ipc

open MexOS.Machine MexOS.Sched

namespace Port

/-- The circular buffer behind a port that has its queue. -/
def ring (p : Port) (slots : Nat → Message) : RingBuffer Message := ⟨slots, p.queueHead, p.queueTail, p.queueSize⟩

/-- The messages waiting in the port, oldest first. -/
def queued (p : Port) : List Message :=
  match p.queue with
  | none => []
  | some slots => (p.ring slots).contents

/-- How a turn can return. -/
inductive Returns (p : Port) : Request → Int → Port → Nat → Option Message → Prop
  | busy : Returns p request (-2) p 0 none
  | sent (msg : Message) (flags : Word) : p.queue = some slots → (p.ring slots).next p.queueTail ≠ p.queueHead →
    Returns p (.send msg flags) 0
      { p with
        queue := some (Function.update slots p.queueTail msg)
        queueTail := (p.ring slots).next p.queueTail
        waitingReceiver := 0 }
      p.waitingReceiver none
  | received (flags : Word) : p.queue = some slots → p.queueHead ≠ p.queueTail →
    Returns p (.receive flags) 0
      { p with queueHead := (p.ring slots).next p.queueHead, waitingSender := 0 }
      p.waitingSender (some (slots p.queueHead))

/-- How a turn can go to `sched_block`: the task leaves its id in the port. -/
inductive Blocks (p : Port) (id : Nat) : Request → Port → Prop
  | full (msg : Message) (flags : Word) : (p.queueTail + 1) % p.queueSize = p.queueHead →
    Blocks p id (.send msg flags) { p with waitingSender := id }
  | empty (flags : Word) : p.queueHead = p.queueTail →
    Blocks p id (.receive flags) { p with waitingReceiver := id }

theorem turn_returns {p p' : Port} (result : p.turn request current = .returns code p' wake message) :
    Returns p request code p' wake message := by
  cases request with
  | send msg flags =>
    simp only [turn, msgSendTurn] at result
    split at result
    · cases result
    · split at result
      · split at result
        · cases result
          exact .busy
        · split at result
          · cases result
          · cases result
            exact .busy
      · next room =>
        split at result
        · cases result
        · next slots found =>
          cases result
          exact .sent msg flags found room
  | receive flags =>
    simp only [turn, msgReceiveTurn] at result
    split at result
    · split at result
      · cases result
        exact .busy
      · split at result
        · cases result
        · cases result
          exact .busy
    · next filled =>
      split at result
      · cases result
      · next slots found =>
        split at result
        · cases result
        · cases result
          exact .received flags found filled

theorem turn_blocks {p p' : Port} (result : p.turn request current = .blocks p') :
    ∃ id, current = some id ∧ Blocks p id request p' := by
  cases request with
  | send msg flags =>
    simp only [turn, msgSendTurn] at result
    split at result
    · cases result
    · split at result
      · next full =>
        split at result
        · cases result
        · split at result
          · next id =>
            cases result
            exact ⟨id, rfl, .full msg flags full⟩
          · cases result
      · split at result <;> cases result
  | receive flags =>
    simp only [turn, msgReceiveTurn] at result
    split at result
    · next empty =>
      split at result
      · cases result
      · split at result
        · next id =>
          cases result
          exact ⟨id, rfl, .empty flags empty⟩
        · cases result
    · split at result
      · cases result
      · split at result <;> cases result

end Port

def Event.port : Event → Option (Fin maxPorts)
  | .returned port _ _ _ => some port
  | .blocked port _ _ => some port
  | .destroyed port => some port
  | .silent => none

namespace System

/-- The slot a successful `port_create` fills. -/
def freshPort (port : Fin maxPorts) (owner : Int) : Port :=
  ⟨owner, port, 0, some fun _ => Message.zero, 0, 0, msgQueueSize, 0, 0⟩

/-- What a step can do to the port `port`. -/
inductive PortStep (system : System) (port : Fin maxPorts) : Event → Port → Prop
  | same : event.port ≠ some port → PortStep system port event (system.ports port)
  | returned : system.Executes port request → (system.ports port).Returns request code p woken message →
    PortStep system port (.returned port request code message) p
  | blocked : system.Executes port request → (system.ports port).Blocks task request p →
    PortStep system port (.blocked port request task) p
  | failed : (system.ports port).owner = 0 →
    PortStep system port .silent { system.ports port with owner, id := port, flags := 0, queue := none }
  | created : (system.ports port).owner = 0 → PortStep system port .silent (freshPort port owner)
  | destroyed : PortStep system port (.destroyed port) Port.zero

@[simp] theorem setPort_ports (system : System) (port : Fin maxPorts) (p : Port) :
    (system.setPort port p).ports = Function.update system.ports port p := rfl

@[simp] theorem wake_ports (system : System) (id : Nat) : (system.wake id).ports = system.ports := by
  unfold wake
  split <;> rfl

@[simp] theorem setInside_ports (system : System) (place : Option (Fin maxPorts × Request)) :
    (system.setInside place).ports = system.ports := by
  unfold setInside
  split <;> rfl

theorem portCreate_ports (system : System) (owner : Int) (allocated : Bool) (port : Fin maxPorts) :
    PortStep system port .silent ((system.portCreate owner allocated).2.ports port) := by
  have untouched : PortStep system port .silent (system.ports port) := .same (by simp [Event.port])
  unfold portCreate
  split
  · exact untouched
  · split
    · exact untouched
    · next i found =>
      have free : (system.ports i).owner = 0 := by simpa using List.find?_some found
      by_cases same : i = port
      · subst same
        split
        · simp only [setPort_ports, Function.update_self]
          exact .created free
        · simp only [setPort_ports, Function.update_self]
          exact .failed free
      · have other : port ≠ i := fun equal => same equal.symm
        split <;> simp only [setPort_ports, Function.update_of_ne other] <;> exact untouched

@[simp] theorem setPort_inside (system : System) (port : Fin maxPorts) (p : Port) :
    (system.setPort port p).inside = system.inside := rfl

@[simp] theorem setPort_sched (system : System) (port : Fin maxPorts) (p : Port) :
    (system.setPort port p).sched = system.sched := rfl

@[simp] theorem wake_inside (system : System) (id : Nat) : (system.wake id).inside = system.inside := by
  unfold wake
  split <;> rfl

@[simp] theorem setInside_sched (system : System) (place : Option (Fin maxPorts × Request)) :
    (system.setInside place).sched = system.sched := by
  unfold setInside
  split <;> rfl

@[simp] theorem wake_currentTask (system : System) (id : Nat) :
    (system.wake id).sched.currentTask = system.sched.currentTask := by
  unfold wake
  split <;> rfl

theorem setInside_inside {system : System} (running : system.sched.currentTask = some current)
    (place : Option (Fin maxPorts × Request)) :
    (system.setInside place).inside = Function.update system.inside current place := by
  simp [setInside, running]

theorem setInside_inside_of_none {system : System} (boot : system.sched.currentTask = none)
    (place : Option (Fin maxPorts × Request)) : (system.setInside place).inside = system.inside := by
  simp [setInside, boot]

theorem portCreate_inside (system : System) (owner : Int) (allocated : Bool) :
    (system.portCreate owner allocated).2.inside = system.inside := by
  unfold portCreate
  split
  · rfl
  · split
    · rfl
    · split <;> rfl

theorem portCreate_sched (system : System) (owner : Int) (allocated : Bool) :
    (system.portCreate owner allocated).2.sched = system.sched := by
  unfold portCreate
  split
  · rfl
  · split
    · rfl
    · split <;> rfl

theorem portDestroy_inside (system : System) (portId : Int) :
    (system.portDestroy portId).2.inside = system.inside := by
  unfold portDestroy
  split
  · rfl
  · simp only
    split
    · rfl
    · simp

/-- Only the current task moves into a call or out of it. -/
inductive Moves (before : System) (task : Nat) : Event → Option (Fin maxPorts × Request) → Prop
  | stays : Moves before task event (before.inside task)
  | leaves : before.sched.currentTask = some task →
    Moves before task (.returned port request code message) none
  | waits : before.sched.currentTask = some task →
    Moves before task (.blocked port request task) (some (port, request))

theorem Step.moves {before after : System} (step : Step before event after) (task : Nat) :
    Moves before task event (after.inside task) := by
  cases step with
  | refused => exact .stays
  | @returns port request code p woken message executes turn =>
    cases running : before.sched.currentTask with
    | none =>
      rw [setInside_inside_of_none (by simpa using running)]
      simp only [wake_inside, setPort_inside]
      exact .stays
    | some current =>
      rw [setInside_inside (by simpa using running)]
      simp only [wake_inside, setPort_inside]
      by_cases same : task = current
      · subst same
        rw [Function.update_self]
        exact .leaves running
      · rw [Function.update_of_ne same]
        exact .stays
  | @blocks port request current p after executes running turn dispatch =>
    simp only
    rw [setInside_inside (by simpa using running)]
    simp only [setPort_inside]
    by_cases same : task = current
    · subst same
      rw [Function.update_self]
      exact .waits running
    · rw [Function.update_of_ne same]
      exact .stays
  | reschedule => exact .stays
  | create =>
    rw [portCreate_inside]
    exact .stays
  | destroy =>
    rw [portDestroy_inside]
    exact .stays

theorem Step.blocked_inside {before after : System} (step : Step before (.blocked port request task) after) :
    after.inside task = some (port, request) := by
  cases step with
  | blocks executes running turn dispatch =>
    simp only
    rw [setInside_inside (by simpa using running), Function.update_self]

/-- A task inside a call was there before the step or has just blocked in it. -/
theorem Step.inside_cases {before after : System} (step : Step before event after)
    (now : after.inside task = some (port, request)) :
    before.inside task = some (port, request) ∨
      event = .blocked port request task ∧ before.sched.currentTask = some task := by
  have moves := step.moves task
  generalize after.inside task = place at moves now
  cases moves with
  | stays => exact .inl now
  | leaves => cases now
  | waits running =>
    cases now
    exact .inr ⟨rfl, running⟩

/-- A step changes at most the port it is about. -/
theorem Step.port_step {before after : System} (step : Step before event after) (port : Fin maxPorts) :
    PortStep before port event (after.ports port) := by
  cases step with
  | refused => exact .same (by simp [Event.port])
  | @returns q request code p wake message executes turn =>
    simp only [setInside_ports, wake_ports, setPort_ports]
    by_cases same : q = port
    · subst same
      rw [Function.update_self]
      exact .returned executes (Port.turn_returns turn)
    · rw [Function.update_of_ne (Ne.symm same)]
      exact .same (by simpa [Event.port] using same)
  | @blocks q request current p after executes running turn dispatch =>
    simp only [setInside_ports, setPort_ports]
    obtain ⟨id, identity, blocks⟩ := Port.turn_blocks turn
    rw [running, Option.some.injEq] at identity
    subst identity
    by_cases same : q = port
    · subst same
      rw [Function.update_self]
      exact .blocked executes blocks
    · rw [Function.update_of_ne (Ne.symm same)]
      exact .same (by simpa [Event.port] using same)
  | reschedule => exact .same (by simp [Event.port])
  | create => exact portCreate_ports before _ _ port
  | @destroy portId q _ found owned =>
    simp only [portDestroy, found, owned, ↓reduceIte, setPort_ports, wake_ports]
    by_cases same : q = port
    · subst same
      rw [Function.update_self]
      exact .destroyed
    · rw [Function.update_of_ne (Ne.symm same)]
      exact .same (by simpa [Event.port] using same)

end System

end MexOS.Ipc
