import MexOS.Ipc.Run

/-! Ports are bounded FIFO queues under every interleaving. -/

namespace MexOS.Ipc

open MexOS.Machine MexOS.Sched

/-- The message an event adds to the sends that `port` accepted. -/
def Event.accepted (port : Fin maxPorts) : Event → Option Message
  | .returned other (.send msg _) result _ => if other = port ∧ result = 0 then some msg else none
  | _ => none

/-- The message an event adds to those that receives on `port` returned. -/
def Event.delivered (port : Fin maxPorts) : Event → Option Message
  | .returned other (.receive _) result message => if other = port ∧ result = 0 then message else none
  | _ => none

def accepted (port : Fin maxPorts) (events : List Event) : List Message := events.filterMap (Event.accepted port)

def delivered (port : Fin maxPorts) (events : List Event) : List Message := events.filterMap (Event.delivered port)

theorem accepted_snoc (port : Fin maxPorts) (events : List Event) (event : Event) :
    accepted port (events ++ [event]) = accepted port events ++ (event.accepted port).toList := by
  cases found : event.accepted port <;> simp [accepted, List.filterMap_append, found]

theorem delivered_snoc (port : Fin maxPorts) (events : List Event) (event : Event) :
    delivered port (events ++ [event]) = delivered port events ++ (event.delivered port).toList := by
  cases found : event.delivered port <;> simp [delivered, List.filterMap_append, found]

theorem Event.quiet {event : Event} {port : Fin maxPorts} (other : event.port ≠ some port) :
    event.accepted port = none ∧ event.delivered port = none := by
  cases event with
  | returned q request result message =>
    have different : q ≠ port := fun same => other (by rw [same]; rfl)
    cases request <;> simp [Event.accepted, Event.delivered, different]
  | blocked => exact ⟨rfl, rfl⟩
  | destroyed => exact ⟨rfl, rfl⟩
  | silent => exact ⟨rfl, rfl⟩

/-- The indices of a port that has its queue. -/
structure Port.Shaped (p : Port) : Prop where
  size : p.queueSize = msgQueueSize
  head : p.queueHead < msgQueueSize
  tail : p.queueTail < msgQueueSize

theorem Port.Shaped.valid {p : Port} (shaped : p.Shaped) (slots : Nat → Message) : (p.ring slots).Valid := by
  obtain ⟨size, head, tail⟩ := shaped
  constructor
  · rw [← size] at head
    exact head
  · rw [← size] at tail
    exact tail

/-- What a port has to do with the history of its events. -/
structure Fifo (port : Fin maxPorts) (events : List Event) (p : Port) : Prop where
  shaped : p.queue ≠ none → p.Shaped
  history : accepted port events = delivered port events ++ p.queued
  unowned : p.owner = 0 → accepted port events = [] ∧ delivered port events = []

theorem Port.queued_of_queue {p : Port} {slots : Nat → Message} (found : p.queue = some slots) :
    p.queued = (p.ring slots).contents := by simp [Port.queued, found]

theorem Fifo.quiet {port : Fin maxPorts} {events : List Event} {p : Port} (fifo : Fifo port events p)
    (event : Event) (nothing : event.accepted port = none ∧ event.delivered port = none) :
    Fifo port (events ++ [event]) p := by
  obtain ⟨none_in, none_out⟩ := nothing
  refine ⟨fifo.shaped, ?_, ?_⟩
  · rw [accepted_snoc, delivered_snoc, none_in, none_out]
    simpa using fifo.history
  · rw [accepted_snoc, delivered_snoc, none_in, none_out]
    simpa using fifo.unowned

theorem Fifo.returned {port : Fin maxPorts} {events : List Event} {p p' : Port} (fifo : Fifo port events p)
    (owned : p.owner ≠ 0) (returns : p.Returns request code p' woken message) :
    Fifo port (events ++ [.returned port request code message]) p' := by
  cases returns with
  | busy =>
    apply fifo.quiet _
    cases request <;> simp [Event.accepted, Event.delivered]
  | @sent slots msg flags found room =>
    have shaped := fifo.shaped (by simp [found])
    have valid := shaped.valid slots
    have pushed := valid.contents_push msg room
    refine ⟨fun _ => ⟨shaped.size, shaped.head, ?_⟩, ?_, fun free => absurd free owned⟩
    · have bound := (valid.push_valid msg).tail_lt
      exact shaped.size ▸ bound
    · have history := fifo.history
      rw [Port.queued_of_queue found] at history
      rw [accepted_snoc, delivered_snoc, history]
      simp only [Event.accepted, Event.delivered, and_self, ↓reduceIte, Option.toList_some, Option.toList_none,
        List.append_nil, List.append_assoc]
      exact congrArg _ pushed.symm
  | @received slots flags found filled =>
    have shaped := fifo.shaped (by simp [found])
    have valid := shaped.valid slots
    have popped := valid.contents_pop filled
    refine ⟨fun _ => ⟨shaped.size, ?_, shaped.tail⟩, ?_, fun free => absurd free owned⟩
    · have bound := valid.pop_valid.head_lt
      exact shaped.size ▸ bound
    · have history := fifo.history
      rw [Port.queued_of_queue found, popped] at history
      have kept : Port.queued { p with queueHead := (p.ring slots).next p.queueHead, waitingSender := 0 } =
          (p.ring slots).pop.contents := by
        simp only [Port.queued, found]
        rfl
      rw [accepted_snoc, delivered_snoc, history, kept]
      simp only [Event.accepted, Event.delivered, and_self, ↓reduceIte, Option.toList_some, Option.toList_none,
        List.append_nil, List.append_assoc, List.singleton_append]
      rfl

/-- A task that leaves its id in the port changes neither queue nor owner. -/
theorem Fifo.blocked {port : Fin maxPorts} {events : List Event} {p p' : Port} (fifo : Fifo port events p)
    (blocks : p.Blocks task request p') : Fifo port (events ++ [.blocked port request task]) p' := by
  obtain ⟨shaped, history, unowned⟩ := fifo.quiet (.blocked port request task) ⟨rfl, rfl⟩
  have same (present : p.queue ≠ none) := shaped present
  cases blocks with
  | full => exact ⟨fun present => ⟨(same present).size, (same present).head, (same present).tail⟩, history, unowned⟩
  | empty => exact ⟨fun present => ⟨(same present).size, (same present).head, (same present).tail⟩, history, unowned⟩

theorem Fifo.failed {port : Fin maxPorts} {events : List Event} {p : Port} (fifo : Fifo port events p)
    (free : p.owner = 0) (owner : Int) : Fifo port (events ++ [.silent])
      { p with owner, id := port, flags := 0, queue := none } := by
  obtain ⟨none_in, none_out⟩ := (fifo.quiet .silent ⟨rfl, rfl⟩).unowned free
  refine ⟨fun present => absurd rfl present, ?_, fun _ => ⟨none_in, none_out⟩⟩
  rw [none_in, none_out]
  rfl

theorem Fifo.created {port : Fin maxPorts} {events : List Event} {p : Port} (fifo : Fifo port events p)
    (free : p.owner = 0) (owner : Int) : Fifo port (events ++ [.silent]) (System.freshPort port owner) := by
  obtain ⟨none_in, none_out⟩ := (fifo.quiet .silent ⟨rfl, rfl⟩).unowned free
  have room : 0 < msgQueueSize := by decide
  have shaped : (System.freshPort port owner).Shaped := ⟨rfl, room, room⟩
  have empty : (System.freshPort port owner).queued = [] := (shaped.valid _).contents_eq_nil.mpr rfl
  refine ⟨fun _ => shaped, ?_, fun _ => ⟨none_in, none_out⟩⟩
  rw [none_in, none_out, empty]
  rfl

/-- While a port is not destroyed, the tasks inside a call on it keep it
owned. -/
def System.Owned (system : System) (port : Fin maxPorts) : Prop :=
  ∀ task request, system.inside task = some (port, request) → (system.ports port).owner ≠ 0

theorem System.portAt_owner {system : System} {call : Call}
    (entered : system.enter call = some (port, request)) : (system.ports port).owner ≠ 0 := by
  cases call with
  | send portId msg flags =>
    simp only [System.enter, Option.bind_eq_bind, Option.bind_eq_some_iff] at entered
    obtain ⟨q, _, entered⟩ := entered
    split at entered
    · cases entered
    · next owned =>
      rw [Option.bind_eq_some_iff] at entered
      obtain ⟨_, _, result⟩ := entered
      cases result
      exact owned
  | receive portId buffer flags =>
    simp only [System.enter, Option.bind_eq_bind, Option.bind_eq_some_iff] at entered
    obtain ⟨q, _, entered⟩ := entered
    split at entered
    · cases entered
    · next owned =>
      split at entered
      · cases entered
        exact owned
      · cases entered

theorem System.Executes.owned {system : System} {port : Fin maxPorts} (executes : system.Executes port request)
    (owned : system.Owned port) : (system.ports port).owner ≠ 0 := by
  obtain inside | ⟨_, call, entered⟩ := executes
  · unfold System.pending at inside
    rw [Option.bind_eq_some_iff] at inside
    obtain ⟨task, _, place⟩ := inside
    exact owned task request place
  · exact System.portAt_owner entered

theorem Port.Returns.owner {p p' : Port} (returns : p.Returns request code p' woken message) :
    p'.owner = p.owner := by
  cases returns <;> rfl

theorem Port.Blocks.owner {p p' : Port} (blocks : p.Blocks task request p') : p'.owner = p.owner := by
  cases blocks <;> rfl

/-- A task that was inside before or blocks now finds an owner, and no step but
`port_destroy` takes it away. -/
theorem System.Owned.step {before after : System} {port : Fin maxPorts} (owned : before.Owned port)
    (step : before.Step event after) (kept : event ≠ .destroyed port) : after.Owned port := by
  intro task request now
  have earlier := step.inside_cases now
  have portStep := step.port_step port
  generalize after.ports port = p at portStep
  cases portStep with
  | same other =>
    obtain inside | ⟨event, _⟩ := earlier
    · exact owned task request inside
    · subst event
      exact absurd rfl other
  | returned executes returns =>
    rw [returns.owner]
    exact executes.owned owned
  | blocked executes blocks =>
    rw [blocks.owner]
    exact executes.owned owned
  | failed free =>
    obtain inside | ⟨event, _⟩ := earlier
    · exact absurd free (owned task request inside)
    · cases event
  | created free =>
    obtain inside | ⟨event, _⟩ := earlier
    · exact absurd free (owned task request inside)
    · cases event
  | destroyed => exact absurd rfl kept

theorem Fifo.step {before after : System} {port : Fin maxPorts} {events : List Event}
    (fifo : Fifo port events (before.ports port)) (owned : before.Owned port) (step : before.Step event after)
    (kept : event ≠ .destroyed port) : Fifo port (events ++ [event]) (after.ports port) := by
  have portStep := step.port_step port
  generalize after.ports port = p at portStep
  cases portStep with
  | same other => exact fifo.quiet _ (Event.quiet other)
  | returned executes returns => exact fifo.returned (executes.owned owned) returns
  | blocked executes blocks => exact fifo.blocked blocks
  | failed free => exact fifo.failed free _
  | created free => exact fifo.created free _
  | destroyed => exact absurd rfl kept

theorem Fifo.initial {system : System} (initial : system.Initial) (port : Fin maxPorts) :
    Fifo port [] (system.ports port) := by
  rw [initial.ports]
  exact ⟨fun present => absurd rfl present, rfl, fun _ => ⟨rfl, rfl⟩⟩

theorem System.Owned.initial {system : System} (initial : system.Initial) (port : Fin maxPorts) :
    system.Owned port := by
  intro task request now
  rw [initial.inside] at now
  cases now

/-- Every run that does not destroy the port keeps it a FIFO queue. -/
theorem Fifo.of_trace {start system : System} (initial : start.Initial) (port : Fin maxPorts)
    (trace : Trace System.Step start events system) (kept : .destroyed port ∉ events) :
    Fifo port events (system.ports port) ∧ system.Owned port := by
  revert kept
  refine trace.invariant (fun events system =>
    .destroyed port ∉ events → Fifo port events (system.ports port) ∧ system.Owned port) ?_ ?_
  · intro _
    exact ⟨Fifo.initial initial port, System.Owned.initial initial port⟩
  · intro events before event after ih step kept
    rw [List.mem_append, not_or, List.mem_singleton] at kept
    obtain ⟨fifo, owned⟩ := ih kept.1
    have different : event ≠ .destroyed port := fun same => kept.2 same.symm
    exact ⟨fifo.step owned step different, owned.step step different⟩

def Turn.result : Turn → Option Int
  | .returns result _ _ _ => some result
  | _ => none

/-- What a non-blocking call on a port with a queue returns. -/
theorem Port.Shaped.send_result {p : Port} (shaped : p.Shaped) (present : p.queue = some slots)
    {flags : Word} (nonblocking : flags &&& ipcNonblock ≠ 0) (msg : Message) (current : Option Nat) :
    (p.turn (.send msg flags) current).result = some (if p.queued.length = 15 then -2 else 0) := by
  have valid := shaped.valid slots
  have full : (p.queueTail + 1) % p.queueSize = p.queueHead ↔ p.queued.length = 15 := by
    rw [Port.queued_of_queue present]
    have size : (p.ring slots).size = 16 := shaped.size
    have iff := valid.full_iff
    rw [size] at iff
    exact iff
  have positive : p.queueSize ≠ 0 := by
    rw [shaped.size]
    decide
  by_cases filled : p.queued.length = 15
  · simp only [Port.turn, msgSendTurn, positive, full.mpr filled, ↓reduceIte]
    rw [if_pos nonblocking, if_pos filled, Turn.result]
  · have room : ¬ (p.queueTail + 1) % p.queueSize = p.queueHead := fun same => filled (full.mp same)
    simp [Port.turn, msgSendTurn, positive, room, present, Turn.result, filled]

theorem Port.Shaped.receive_result {p : Port} (shaped : p.Shaped) (present : p.queue = some slots)
    {flags : Word} (nonblocking : flags &&& ipcNonblock ≠ 0) (current : Option Nat) :
    (p.turn (.receive flags) current).result = some (if p.queued = [] then -2 else 0) := by
  have valid := shaped.valid slots
  have empty : p.queueHead = p.queueTail ↔ p.queued = [] := by
    rw [Port.queued_of_queue present]
    exact valid.contents_eq_nil.symm
  have positive : p.queueSize ≠ 0 := by
    rw [shaped.size]
    decide
  by_cases none_left : p.queued = []
  · simp only [Port.turn, msgReceiveTurn, empty.mpr none_left, ↓reduceIte]
    rw [if_pos nonblocking, if_pos none_left, Turn.result]
  · have filled : ¬ p.queueHead = p.queueTail := fun same => none_left (empty.mp same)
    simp [Port.turn, msgReceiveTurn, filled, positive, present, Turn.result, none_left]

/-- Along every run in which `port` is not destroyed, once `port_create` has
made it: what receives returned and what is queued is what sends accepted, in
order; at most 15 messages wait; a non-blocking call returns `-2` exactly at
the bounds; and a step about `port` leaves the other ports as they were. -/
theorem port_is_bounded_fifo (start system : System) (initial : start.Initial) (events : List Event)
    (trace : Trace System.Step start events system) (port : Fin maxPorts) (kept : .destroyed port ∉ events)
    (created : (system.ports port).queue ≠ none) :
    accepted port events = delivered port events ++ (system.ports port).queued ∧
    (system.ports port).queued.length ≤ 15 ∧
    (∀ msg flags current, flags &&& ipcNonblock ≠ 0 →
      ((system.ports port).turn (.send msg flags) current).result =
        some (if (system.ports port).queued.length = 15 then -2 else 0)) ∧
    (∀ flags current, flags &&& ipcNonblock ≠ 0 →
      ((system.ports port).turn (.receive flags) current).result =
        some (if (system.ports port).queued = [] then -2 else 0)) ∧
    (∀ event after, system.Step event after → event.port = some port →
      ∀ other, other ≠ port → after.ports other = system.ports other) := by
  obtain ⟨fifo, _⟩ := Fifo.of_trace initial port trace kept
  obtain ⟨slots, present⟩ := Option.ne_none_iff_exists'.mp created
  have shaped := fifo.shaped created
  refine ⟨fifo.history, ?_, ?_, ?_, ?_⟩
  · have bound := (shaped.valid slots).length_lt
    have size : (Port.ring (system.ports port) slots).size = 16 := shaped.size
    rw [Port.queued_of_queue present]
    omega
  · intro msg flags current nonblocking
    exact shaped.send_result present nonblocking msg current
  · intro flags current nonblocking
    exact shaped.receive_result present nonblocking current
  · intro event after step about other different
    have portStep := step.port_step other
    generalize after.ports other = p at portStep
    cases portStep with
    | same => rfl
    | returned => exact absurd (Option.some.inj about) different
    | blocked => exact absurd (Option.some.inj about) different
    | failed => cases about
    | created => cases about
    | destroyed => exact absurd (Option.some.inj about) different

/-- One task creates a port, sends twice and receives once. -/
def exchange : List Action :=
  [.create 1 true, .call (.send 0 (some Message.zero) ipcNonblock), .call (.send 0 (some Message.zero) ipcNonblock),
    .call (.receive 0 true ipcNonblock)]

def Event.keepsPort : Event → Bool
  | .destroyed _ => false
  | _ => true

theorem Event.kept {events : List Event} (all : events.all Event.keepsPort = true) (port : Fin maxPorts) :
    .destroyed port ∉ events := by
  intro member
  have keeps := List.all_eq_true.mp all _ member
  cases keeps

theorem port_is_bounded_fifo_exchange :
    ∃ events system, Trace System.Step (System.boot [1, 2]) events system ∧
      (system.ports firstPort).queued.length = 1 ∧
      accepted firstPort events = delivered firstPort events ++ (system.ports firstPort).queued ∧
      (system.ports firstPort).queued.length ≤ 15 := by
  obtain ⟨events, system, trace, passed⟩ := @System.run_reaches [1, 2] (by decide) (by decide)
    (fun events last => events.all Event.keepsPort && (last.ports firstPort).queue.isSome &&
      (last.ports firstPort).queued.length == 1) exchange (by decide +kernel)
  simp only [Bool.and_eq_true, beq_iff_eq] at passed
  obtain ⟨⟨keeps, present⟩, one⟩ := passed
  have created : (system.ports firstPort).queue ≠ none := by
    intro absent
    rw [absent] at present
    cases present
  have fifo := port_is_bounded_fifo (System.boot [1, 2]) system (System.boot_initial (by decide) (by decide)) events
    trace firstPort (Event.kept keeps firstPort) created
  exact ⟨events, system, trace, one, fifo.1, fifo.2.1⟩

end MexOS.Ipc
