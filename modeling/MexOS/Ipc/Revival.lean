import MexOS.Ipc.Port
import MexOS.Sched.Census

/-! The scheduler's interface interleaved with message passing. A port keeps the
id of a waiting task after that task has exited, and `sched_unblock` does not ask
in which state it finds it. -/

namespace MexOS.Ipc

open MexOS.Machine MexOS.Sched TaskList

/-- `inside` is the loop of `msg_send` or `msg_receive` that the task at an
address stands in. -/
structure Kernel where
  census : Census
  ports : Fin maxPorts → Port
  portCount : Word
  inside : Word → Option (Fin maxPorts × Request)

namespace Kernel

def init (memory : Word → Task) : Kernel := ⟨Census.init memory, fun _ => Port.zero, 0, fun _ => none⟩

/-- `if (id) sched_unblock(id)` for each of the ids. -/
def unblocks (ids : List Nat) : List TaskList.Call := (ids.filter (· ≠ 0)).map .schedUnblock

def runCalls (census : Census) (calls : List TaskList.Call) : Census := calls.foldl Census.run census

def currentId (kernel : Kernel) : Option Nat := kernel.census.list.currentField Task.id

def setPort (kernel : Kernel) (port : Fin maxPorts) (p : Port) : Kernel :=
  { kernel with ports := Function.update kernel.ports port p }

def setInside (kernel : Kernel) (place : Option (Fin maxPorts × Request)) : Kernel :=
  match kernel.census.list.currentTask with
  | none => kernel
  | some current => { kernel with inside := Function.update kernel.inside current place }

/-- A new task starts outside of every call. -/
def afterCall (kernel : Kernel) (call : TaskList.Call) : Kernel :=
  { kernel with
    census := kernel.census.run call
    inside :=
      match call.allocations with
      | none => kernel.inside
      | some memory => Function.update kernel.inside memory.task none }

/-- The ports without the tasks, for what does not look at these. -/
def portsAlone (kernel : Kernel) : System := ⟨kernel.ports, kernel.portCount, Scheduler.init, fun _ => none⟩

/-- The call the current task is in the middle of. -/
def pending (kernel : Kernel) : Option (Fin maxPorts × Request) := kernel.census.list.currentTask.bind kernel.inside

/-- The current task starts this request or goes on with it. -/
def Executes (kernel : Kernel) (port : Fin maxPorts) (request : Request) : Prop :=
  kernel.pending = some (port, request) ∨
    kernel.pending = none ∧ ∃ call, kernel.portsAlone.enter call = some (port, request)

/-- A call of the scheduler, or one turn of a call on a port, which itself calls
the scheduler. A call that its entry checks refuse changes nothing, and a fault
has no next state. -/
inductive Step (kernel : Kernel) : List TaskList.Call → Kernel → Prop
  | call : call.Fresh kernel.census.list → Step kernel [call] (kernel.afterCall call)
  | returns : kernel.Executes port request →
    (kernel.ports port).turn request kernel.currentId = .returns result p woken message →
    Step kernel (unblocks [woken])
      { (kernel.setPort port p).setInside none with census := runCalls kernel.census (unblocks [woken]) }
  | blocks : kernel.Executes port request → (kernel.ports port).turn request kernel.currentId = .blocks p →
    Step kernel [.schedBlock]
      { (kernel.setPort port p).setInside (some (port, request)) with census := kernel.census.run .schedBlock }
  | portCreate : Step kernel [] { kernel with
      ports := (kernel.portsAlone.portCreate owner allocated).2.ports
      portCount := (kernel.portsAlone.portCreate owner allocated).2.portCount }
  | portDestroy : System.portAt portId = some port → (kernel.ports port).owner ≠ 0 →
    Step kernel (unblocks [(kernel.ports port).waitingSender, (kernel.ports port).waitingReceiver])
      { kernel.setPort port Port.zero with
        census := runCalls kernel.census
          (unblocks [(kernel.ports port).waitingSender, (kernel.ports port).waitingReceiver])
        portCount := kernel.portCount - 1 }
  | reuse (written : Word → Task) : (∀ t ∈ kernel.census.list.queue, written t = kernel.census.list.memory t) →
    Step kernel [] { kernel with census := ⟨kernel.census.list.overwrite written, kernel.census.exited⟩ }

/-- None of the calls makes a task ready that has exited. -/
def Lets : Census → List TaskList.Call → Prop
  | _, [] => True
  | census, call :: rest => census.Lets call ∧ Lets (census.run call) rest

variable {kernel after : Kernel} {census : Census} {calls : List TaskList.Call}

/-- A revived task stays awake when others are woken. -/
theorem dead_of_unblock {id : Nat} (dead : (census.run (.schedUnblock id)).Dead) : census.Dead := by
  intro t member exited
  obtain ⟨notReady, notRunning⟩ := dead t (by
    change t ∈ (census.list.schedUnblock id).queue
    unfold TaskList.schedUnblock
    split <;> exact member) exited
  change ((census.list.schedUnblock id).memory t).state ≠ .ready at notReady
  change ((census.list.schedUnblock id).memory t).state ≠ .running at notRunning
  rw [schedUnblock_memory] at notReady notRunning
  split at notReady
  · exact absurd rfl notReady
  · next asleep =>
    rw [if_neg asleep] at notRunning
    exact ⟨notReady, notRunning⟩

theorem dead_of_unblocks {ids : List Nat} (dead : (runCalls census (ids.map .schedUnblock)).Dead) : census.Dead := by
  induction ids generalizing census with
  | nil => exact dead
  | cons id rest ih => exact dead_of_unblock (ih dead)

theorem unblocks_dead_iff (dead : census.Dead) (ids : List Nat) :
    (runCalls census (unblocks ids)).Dead ↔ Lets census (unblocks ids) := by
  unfold unblocks
  generalize ids.filter (· ≠ 0) = ids
  induction ids generalizing census with
  | nil => exact iff_of_true dead trivial
  | cons id rest ih =>
    have woken : (census.run (.schedUnblock id)).Dead ↔ census.Lets (.schedUnblock id) := dead.run_iff nofun
    constructor
    · intro still
      have between : (census.run (.schedUnblock id)).Dead := dead_of_unblocks still
      exact ⟨woken.mp between, (ih between).mp still⟩
    · rintro ⟨first, others⟩
      exact (ih (woken.mpr first)).mpr others

/-- What a step does to the tasks is what its calls of the scheduler do. -/
theorem Step.dead_iff (step : Step kernel calls after) (dead : kernel.census.Dead) :
    after.census.Dead ↔ Lets kernel.census calls := by
  cases step with
  | call fresh =>
    rw [Lets, Lets, and_true]
    exact dead.run_iff fresh
  | returns => exact unblocks_dead_iff dead _
  | blocks =>
    rw [Lets, Lets, and_true]
    exact dead.run_iff nofun
  | portCreate => exact iff_of_true dead trivial
  | portDestroy => exact unblocks_dead_iff dead _
  | reuse written apart =>
    refine iff_of_true ?_ trivial
    intro t member exited
    change (written t).state ≠ .ready ∧ (written t).state ≠ .running
    rw [apart t member]
    exact dead t member exited

def RespectfulStep (kernel : Kernel) (calls : List TaskList.Call) (after : Kernel) : Prop :=
  Step kernel calls after ∧ Lets kernel.census calls

/-- While no wake-up is for a task that has exited, every such task stays as it
is until it is taken off the list; the first wake-up that is for one revives
it. -/
theorem exited_tasks_stay_dead {memory : Word → Task} {events : List (List TaskList.Call)}
    (run : Trace RespectfulStep (init memory) events kernel) :
    kernel.census.Dead ∧ ∀ calls after, Step kernel calls after → (after.census.Dead ↔ Lets kernel.census calls) := by
  have dead : kernel.census.Dead := run.invariant (fun _ kernel => kernel.census.Dead) nofun
    (fun _ _ _ _ dead step => (step.1.dead_iff dead).mpr step.2)
  exact ⟨dead, fun _ _ step => step.dead_iff dead⟩

theorem RespectfulStep.of_call {call : TaskList.Call} (fresh : call.Fresh kernel.census.list)
    (quiet : call.wakes kernel.census.list = none) : RespectfulStep kernel [call] (kernel.afterCall call) := by
  refine ⟨.call fresh, ?_, trivial⟩
  intro t woken
  rw [quiet] at woken
  cases woken

theorem exited_tasks_stay_dead_zombie :
    ∃ events kernel, Trace RespectfulStep (init fun _ => cleared) events kernel ∧ kernel.census.exited 16 = true ∧
      (kernel.census.list.memory 16).state = .zombie ∧ kernel.census.Dead := by
  let created := (init fun _ => cleared).afterCall (.taskCreate ⟨16, 0x1000, 0⟩ 1 true)
  have first : RespectfulStep (init fun _ => cleared) [.taskCreate ⟨16, 0x1000, 0⟩ 1 true] created :=
    .of_call (by decide) rfl
  have exits : RespectfulStep created [.taskExit 1 0] (created.afterCall (.taskExit 1 0)) := .of_call nofun (by decide)
  have run := (Trace.nil.snoc first).snoc exits
  exact ⟨_, _, run, by decide, by decide, (exited_tasks_stay_dead run).1⟩

def freshPort : Port :=
  (System.portCreate ⟨fun _ => Port.zero, 0, Scheduler.init, fun _ => none⟩ 1 true).2.ports ⟨0, maxPorts_pos⟩

/-- A task waits for a message and is made to exit; destroying the port makes it
ready again. -/
theorem exited_task_revived :
    ∃ events kernel, Trace Step (init fun _ => cleared) events kernel ∧ kernel.census.exited 16 = true ∧
      16 ∈ kernel.census.list.queue ∧ (kernel.census.list.memory 16).state = .ready := by
  have owner : freshPort.owner = 1 := by decide +kernel
  have empty : freshPort.queueHead = freshPort.queueTail := by decide +kernel
  have nobody : freshPort.waitingSender = 0 := by decide +kernel
  let first : Fin maxPorts := ⟨0, by decide⟩
  let created := (init fun _ => cleared).afterCall (.taskCreate ⟨16, 0x1000, 0⟩ 1 true)
  let running := created.afterCall .schedule
  have creates : Step (init fun _ => cleared) [.taskCreate ⟨16, 0x1000, 0⟩ 1 true] created := .call (by decide)
  have starts : Step created [.schedule] running := .call nofun
  obtain ⟨opened, opens, ports, census, inside⟩ : ∃ opened, Step running [] opened ∧
      opened.ports first = freshPort ∧ opened.census = running.census ∧ opened.inside = running.inside :=
    ⟨_, @Step.portCreate running 1 true, rfl, rfl, rfl⟩
  have current : opened.census.list.currentTask = some 16 := by
    rw [census]
    decide
  have executes : opened.Executes first (.receive 0) := by
    refine .inr ⟨?_, .receive 0 true 0, ?_⟩
    · rw [pending, current, inside]
      decide
    · have owned : (opened.portsAlone.ports first).owner ≠ 0 := by
        change (opened.ports first).owner ≠ 0
        rw [ports, owner]
        decide
      change (if (opened.portsAlone.ports first).owner = 0 then none else some (first, Request.receive 0)) = _
      rw [if_neg owned]
  have turn : (opened.ports first).turn (.receive 0) opened.currentId =
      .blocks { freshPort with waitingReceiver := 1 } := by
    have id : opened.currentId = some 1 := by
      rw [currentId, census]
      decide
    rw [ports, id, Port.turn, msgReceiveTurn, if_pos empty]
    rfl
  obtain ⟨waiting, blocks, waits, census⟩ : ∃ waiting, Step opened [.schedBlock] waiting ∧
      waiting.ports first = { freshPort with waitingReceiver := 1 } ∧ waiting.census = running.census.run .schedBlock := by
    refine ⟨_, .blocks executes turn, ?_, ?_⟩
    · simp [setInside, setPort, current]
    · rw [census]
  have exits : Step waiting [.taskExit 1 0] (waiting.afterCall (.taskExit 1 0)) := .call nofun
  have ports : (waiting.afterCall (.taskExit 1 0)).ports first = { freshPort with waitingReceiver := 1 } := waits
  have destroys := @Step.portDestroy (waiting.afterCall (.taskExit 1 0)) 0 first rfl (by
    rw [ports]
    change freshPort.owner ≠ 0
    rw [owner]
    decide)
  rw [ports] at destroys
  dsimp only at destroys
  rw [nobody] at destroys
  refine ⟨_, _, (((((Trace.nil.snoc creates).snoc starts).snoc opens).snoc blocks).snoc exits).snoc destroys, ?_⟩
  have final : (waiting.afterCall (.taskExit 1 0)).census = (running.census.run .schedBlock).run (.taskExit 1 0) := by
    change waiting.census.run _ = _
    rw [census]
  rw [final]
  dsimp only
  exact ⟨by decide, by decide, by decide⟩

end Kernel

end MexOS.Ipc
