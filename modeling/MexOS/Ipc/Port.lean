import MexOS.Machine.Memory
import MexOS.Machine.RingBuffer
import MexOS.Sched.Scheduler
import Mathlib.Data.List.FinRange

/-! Message ports of `ipc/ipc.c` over the scheduler. A call is cut where it
calls `sched_block`: one turn of its loop is one step. -/

namespace MexOS.Ipc

open MexOS.Machine MexOS.Sched

def maxPorts : Nat := 256

theorem maxPorts_pos : 0 < maxPorts := by decide
def maxMsgSize : Nat := 256
def msgQueueSize : Nat := 16
def ipcNonblock : Word := 0x02

structure Message where
  sender : Int
  receiver : Int
  type : Word
  len : Word
  data : Fin maxMsgSize → Byte

/-- What `memset` leaves in a fresh queue. -/
def Message.zero : Message := ⟨0, 0, 0, 0, fun _ => 0⟩

/-- The slots behind `queue` belong to the port alone; `none` is NULL. -/
structure Port where
  owner : Int
  id : Nat
  flags : Word
  queue : Option (Nat → Message)
  queueHead : Nat
  queueTail : Nat
  queueSize : Nat
  waitingSender : Nat
  waitingReceiver : Nat

def Port.zero : Port := ⟨0, 0, 0, none, 0, 0, 0, 0, 0⟩

/-- A call that passed its entry checks, with the arguments its loop uses. -/
inductive Request where
  | send (msg : Message) (flags : Word)
  | receive (flags : Word)

/-- One turn of a loop: the processor faults, the call returns `result` after
waking a task (`0` for none), or it goes to `sched_block`. -/
inductive Turn where
  | fault
  | returns (result : Int) (port : Port) (wake : Nat) (message : Option Message)
  | blocks (port : Port)

/-- The loop body of `msg_send`. -/
def msgSendTurn (p : Port) (msg : Message) (flags : Word) (current : Option Nat) : Turn :=
  if p.queueSize = 0 then .fault
  else
    let nextTail := (p.queueTail + 1) % p.queueSize
    if nextTail = p.queueHead then
      if flags &&& ipcNonblock ≠ 0 then .returns (-2) p 0 none
      else
        match current with
        | some id => .blocks { p with waitingSender := id }
        | none => .returns (-2) p 0 none
    else
      match p.queue with
      | none => .fault
      | some slots =>
        let p := { p with queue := some (Function.update slots p.queueTail msg), queueTail := nextTail }
        .returns 0 { p with waitingReceiver := 0 } p.waitingReceiver none

/-- The loop body of `msg_receive`. -/
def msgReceiveTurn (p : Port) (flags : Word) (current : Option Nat) : Turn :=
  if p.queueHead = p.queueTail then
    if flags &&& ipcNonblock ≠ 0 then .returns (-2) p 0 none
    else
      match current with
      | some id => .blocks { p with waitingReceiver := id }
      | none => .returns (-2) p 0 none
  else
    match p.queue with
    | none => .fault
    | some slots =>
      if p.queueSize = 0 then .fault
      else
        let msg := slots p.queueHead
        let p := { p with queueHead := (p.queueHead + 1) % p.queueSize }
        .returns 0 { p with waitingSender := 0 } p.waitingSender (some msg)

def Port.turn (p : Port) (request : Request) (current : Option Nat) : Turn :=
  match request with
  | .send msg flags => msgSendTurn p msg flags current
  | .receive flags => msgReceiveTurn p flags current

/-- `inside` is where each task stands: in the loop of which call, on which
port, if in any. -/
structure System where
  ports : Fin maxPorts → Port
  portCount : Word
  sched : Scheduler
  inside : Nat → Option (Fin maxPorts × Request)

/-- A call as a task makes it; a missing message is a NULL pointer. -/
inductive Call where
  | send (portId : Int) (msg : Option Message) (flags : Word)
  | receive (portId : Int) (buffer : Bool) (flags : Word)

inductive Event where
  | returned (port : Fin maxPorts) (request : Request) (result : Int) (message : Option Message)
  | blocked (port : Fin maxPorts) (request : Request) (task : Nat)
  | destroyed (port : Fin maxPorts)
  | silent

namespace System

def portAt (portId : Int) : Option (Fin maxPorts) :=
  if _ : 0 ≤ portId ∧ portId < maxPorts then some ⟨portId.toNat, by omega⟩ else none

/-- The checks before the loop; `none` is the result `-1`. -/
def enter (system : System) : Call → Option (Fin maxPorts × Request)
  | .send portId msg flags => do
    let port ← portAt portId
    if (system.ports port).owner = 0 then none else
      let msg ← msg
      some (port, .send msg flags)
  | .receive portId buffer flags => do
    let port ← portAt portId
    if (system.ports port).owner = 0 then none else
      if buffer then some (port, .receive flags) else none

/-- The call the current task is in the middle of. -/
def pending (system : System) : Option (Fin maxPorts × Request) := system.sched.currentTask.bind system.inside

def setInside (system : System) (place : Option (Fin maxPorts × Request)) : System :=
  match system.sched.currentTask with
  | none => system
  | some current => { system with inside := Function.update system.inside current place }

def setPort (system : System) (port : Fin maxPorts) (p : Port) : System :=
  { system with ports := Function.update system.ports port p }

/-- `if (id) sched_unblock(id)` -/
def wake (system : System) (id : Nat) : System :=
  if id = 0 then system else { system with sched := system.sched.schedUnblock id }

def portCreate (system : System) (owner : Int) (allocated : Bool) : Int × System :=
  if system.portCount.toNat ≥ maxPorts then (-1, system)
  else
    match (List.finRange maxPorts).find? fun i => (system.ports i).owner = 0 with
    | none => (-1, system)
    | some i =>
      let p := { system.ports i with owner, id := i, flags := 0, queue := none }
      if allocated then
        let p := { p with
          queue := some fun _ => Message.zero
          queueHead := 0, queueTail := 0, queueSize := msgQueueSize, waitingSender := 0, waitingReceiver := 0 }
        (i, { system.setPort i p with portCount := system.portCount + 1 })
      else (-1, system.setPort i p)

def portDestroy (system : System) (portId : Int) : Int × System :=
  match portAt portId with
  | none => (-1, system)
  | some port =>
    let p := system.ports port
    if p.owner = 0 then (-1, system)
    else (0, { ((system.wake p.waitingSender).wake p.waitingReceiver).setPort port Port.zero with
      portCount := system.portCount - 1 })

/-- The current task starts this request or goes on with it. -/
def Executes (system : System) (port : Fin maxPorts) (request : Request) : Prop :=
  system.pending = some (port, request) ∨
    system.pending = none ∧ ∃ call, system.enter call = some (port, request)

/-- Everything that can happen between two switches, for any choice the
scheduler makes. A fault has no next state. -/
inductive Step (system : System) : Event → System → Prop
  | refused : system.pending = none → system.enter call = none → Step system .silent system
  | returns : system.Executes port request →
    (system.ports port).turn request system.sched.currentTask = .returns result p woken message →
    Step system (.returned port request result message) (((system.setPort port p).wake woken).setInside none)
  | blocks : system.Executes port request → system.sched.currentTask = some current →
    (system.ports port).turn request system.sched.currentTask = .blocks p →
    Scheduler.Dispatch (system.sched.markBlocked current) after →
    Step system (.blocked port request current)
      { (system.setPort port p).setInside (some (port, request)) with sched := after }
  | reschedule : Scheduler.Dispatch system.sched after → Step system .silent { system with sched := after }
  | create : system.pending = none → Step system .silent (system.portCreate owner allocated).2
  | destroy : system.pending = none → System.portAt portId = some port → (system.ports port).owner ≠ 0 →
    Step system (.destroyed port) (system.portDestroy portId).2

/-- After `ipc_init`: no port, no task inside a call. -/
structure Initial (system : System) : Prop where
  ports : ∀ port, system.ports port = Port.zero
  inside : ∀ task, system.inside task = none
  sched : system.sched.Valid

end System

end MexOS.Ipc
