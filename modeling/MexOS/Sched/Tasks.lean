import MexOS.Machine.Transition
import MexOS.Sched.Scheduler

/-! The life of a task in `sched/sched.c`, from its creation to its removal, and
the timer tick. -/

namespace MexOS.Sched

/-- What `kmalloc` answers while a task is created; zero is NULL. -/
structure Allocations where
  task : BitVec 32
  kernelStack : BitVec 32
  userStack : BitVec 32

/-- `(pid_t)id`. -/
def pidOf (id : Nat) : Int := (BitVec.ofNat 32 id).toInt

namespace Scheduler

/-- After `sched_init`. -/
def init : Scheduler := { taskQueue := [], currentTask := none }

/-- The task behind `current_task`. -/
def current (sched : Scheduler) : Option Task :=
  sched.currentTask.bind fun id => sched.taskQueue.find? fun task => task.id = id

def taskFind (sched : Scheduler) (pid : Int) : Option Task := sched.taskQueue.find? fun task => task.pid = pid

/-- The side effect of `next_tid++`. -/
def takeTid (sched : Scheduler) : Scheduler := { sched with nextTid := (sched.nextTid + 1) % 2 ^ 32 }

def enqueue (sched : Scheduler) (task : Task) : Scheduler := { sched with taskQueue := task :: sched.taskQueue }

/-- A failed allocation gives the memory back, but not the id. -/
def taskCreate (sched : Scheduler) (allocations : Allocations) (priority : Nat) (kernelMode : Bool) :
    Option Task × Scheduler :=
  if allocations.task = 0 then (none, sched)
  else
    let task : Task :=
      { id := sched.nextTid, pid := pidOf sched.nextTid, parentPid := (sched.current.map Task.pid).getD 0
        state := .ready, priority, timeSlice := 10, kernelMode, kernelStack := allocations.kernelStack }
    let sched := sched.takeTid
    if allocations.kernelStack = 0 then (none, sched)
    else if kernelMode then (some task, sched.enqueue task)
    else if allocations.userStack = 0 then (none, sched)
    else
      let task := { task with userStack := allocations.userStack }
      (some task, sched.enqueue task)

def taskCreateUser (sched : Scheduler) (allocations : Allocations) (priority : Nat) : Option Task × Scheduler :=
  sched.taskCreate allocations priority false

def taskFork (sched : Scheduler) (allocations : Allocations) : Int × Scheduler :=
  match sched.current with
  | none => (-1, sched)
  | some current =>
    if allocations.task = 0 then (-1, sched)
    else
      let child : Task := { current with
        id := sched.nextTid
        pid := pidOf sched.nextTid
        parentPid := current.pid
        state := .ready
        timeSlice := 10
        cpuTicks := 0
        exitCode := 0
        waitingFor := 0
        kernelStack := allocations.kernelStack }
      let sched := sched.takeTid
      if allocations.kernelStack = 0 then (-1, sched)
      else if ¬ current.kernelMode ∧ current.userStack ≠ 0 then
        if allocations.userStack = 0 then (-1, sched)
        else (child.pid, sched.enqueue { child with userStack := allocations.userStack })
      else (child.pid, sched.enqueue child)

def taskDestroy (sched : Scheduler) (id : Nat) : Scheduler :=
  { sched with taskQueue := sched.taskQueue.eraseP fun task => task.id = id }

/-- A parent that waits for this task, or for any child, becomes ready. -/
def wakeParent (sched : Scheduler) (task : Task) : Scheduler :=
  match sched.taskFind task.parentPid with
  | none => sched
  | some parent =>
    if parent.state = .blocked ∧ (parent.waitingFor = task.pid ∨ parent.waitingFor = -1) then
      sched.update parent.id fun parent => { parent with state := .ready }
    else sched

def taskExit (sched : Scheduler) (id : Nat) (exitCode : Int) : Scheduler :=
  match sched.taskQueue.find? fun task => task.id = id with
  | none => sched
  | some task => (sched.update id fun task => { task with state := .zombie, exitCode }).wakeParent task

def schedYield (sched : Scheduler) : Scheduler := sched.schedule

/-- `sched_tick` up to its call of `schedule`. -/
def countTick (sched : Scheduler) : Scheduler :=
  let sched := { sched with tickCount := (sched.tickCount + 1) % 2 ^ 32 }
  match sched.currentTask with
  | none => sched
  | some current => sched.update current fun task =>
      { task with cpuTicks := (task.cpuTicks + 1) % 2 ^ 32, timeSlice := task.timeSlice - 1 }

def schedTick (sched : Scheduler) : Scheduler :=
  let sched := sched.countTick
  if sched.current.any fun task => task.timeSlice = 0 then sched.schedule else sched

end Scheduler

/-- The calls of the scheduler's interface. -/
inductive Operation where
  | taskCreate (allocations : Allocations) (priority : Nat) (kernelMode : Bool)
  | taskCreateUser (allocations : Allocations) (priority : Nat)
  | taskFork (allocations : Allocations)
  | taskExit (id : Nat) (exitCode : Int)
  | taskDestroy (id : Nat)
  | schedBlock
  | schedUnblock (id : Nat)
  | schedTick
  | schedYield
  | schedule

namespace Operation

open Scheduler

def run (sched : Scheduler) : Operation → Scheduler
  | taskCreate allocations priority kernelMode => (sched.taskCreate allocations priority kernelMode).2
  | taskCreateUser allocations priority => (sched.taskCreateUser allocations priority).2
  | taskFork allocations => (sched.taskFork allocations).2
  | taskExit id exitCode => sched.taskExit id exitCode
  | taskDestroy id => sched.taskDestroy id
  | schedBlock => sched.schedBlock
  | schedUnblock id => sched.schedUnblock id
  | schedTick => sched.schedTick
  | schedYield => sched.schedYield
  | schedule => sched.schedule

/-- The call tries to create a task. -/
def creates : Operation → Bool
  | taskCreate .. | taskCreateUser .. | taskFork .. => true
  | _ => false

/-- The state in which the call runs `schedule`, if it does. -/
def schedules (sched : Scheduler) : Operation → Option Scheduler
  | schedBlock => sched.currentTask.map sched.markBlocked
  | schedTick => if sched.countTick.current.any fun task => task.timeSlice = 0 then some sched.countTick else none
  | schedYield | schedule => some sched
  | _ => none

theorem run_of_schedules {operation : Operation} {sched before : Scheduler}
    (calls : operation.schedules sched = some before) : operation.run sched = before.schedule := by
  cases operation with
  | schedBlock =>
    obtain ⟨current, running, marked⟩ := Option.map_eq_some_iff.mp calls
    rw [← marked]
    simp only [run, Scheduler.schedBlock, running]
  | schedTick =>
    simp only [schedules, Option.ite_none_right_eq_some, Option.some.injEq] at calls
    obtain ⟨expired, same⟩ := calls
    rw [← same]
    simp only [run, Scheduler.schedTick, expired, ↓reduceIte]
  | schedYield =>
    rw [← Option.some.inj calls]
    rfl
  | schedule =>
    rw [← Option.some.inj calls]
    rfl
  | _ => cases calls

end Operation

end MexOS.Sched
