import MexOS.Machine.Memory
import MexOS.Sched.Tasks

/-! The linked list of `sched/sched.c` with its pointers. `Scheduler` names
tasks by their ids; here a task is named by its address, which also tells tasks
of one id apart and still means something after the task is freed. -/

namespace MexOS.Sched

open MexOS.Machine

/-- `memory` holds the task structures, `queue` the addresses on the list that
starts at `task_queue`. Freeing a structure takes it off the list and leaves its
bytes alone. -/
structure TaskList where
  memory : Word → Task
  queue : List Word
  currentTask : Option Word
  nextTid : Nat := 1
  tickCount : Nat := 0

namespace TaskList

/-- After `sched_init`, over whatever the memory holds. -/
def init (memory : Word → Task) : TaskList := { memory, queue := [], currentTask := none }

/-- Assignments to fields of the structure at `t`. -/
def store (list : TaskList) (t : Word) (change : Task → Task) : TaskList :=
  { list with memory := Function.update list.memory t (change (list.memory t)) }

def takeTid (list : TaskList) : TaskList := { list with nextTid := (list.nextTid + 1) % 2 ^ 32 }

/-- `t->next = task_queue; task_queue = t` -/
def link (list : TaskList) (t : Word) : TaskList := { list with queue := t :: list.queue }

/-- The field of `current_task` that `field` reads, if there is one. -/
def currentField (list : TaskList) (field : Task → α) : Option α := list.currentTask.map fun t => field (list.memory t)

/-- The first task of the list that passes. -/
def first (list : TaskList) (test : Task → Bool) : Option Word := list.queue.find? fun t => test (list.memory t)

/-- The structure after `memset`: `TASK_RUNNING` is zero. -/
def cleared : Task := { id := 0, state := .running, priority := 0, timeSlice := 0 }

def taskCreate (list : TaskList) (allocations : Allocations) (priority : Nat) (kernelMode : Bool) :
    Option Word × TaskList :=
  let t := allocations.task
  if t = 0 then (none, list)
  else
    let named := (list.store t fun _ => { cleared with id := list.nextTid, pid := pidOf list.nextTid }).takeTid
    let list := named.store t fun task => { task with
      parentPid := (named.currentField Task.pid).getD 0
      state := .ready
      priority
      timeSlice := 10
      kernelMode
      kernelStack := allocations.kernelStack }
    if allocations.kernelStack = 0 then (none, list)
    else if kernelMode then (some t, list.link t)
    else
      let list := list.store t fun task => { task with userStack := allocations.userStack }
      if allocations.userStack = 0 then (none, list) else (some t, list.link t)

def taskCreateUser (list : TaskList) (allocations : Allocations) (priority : Nat) : Option Word × TaskList :=
  list.taskCreate allocations priority false

def taskFork (list : TaskList) (allocations : Allocations) : Int × TaskList :=
  match list.currentTask with
  | none => (-1, list)
  | some current =>
    let child := allocations.task
    if child = 0 then (-1, list)
    else
      let named := (list.store child fun _ =>
        { list.memory current with id := list.nextTid, pid := pidOf list.nextTid }).takeTid
      let list := named.store child fun task => { task with
        parentPid := (named.memory current).pid
        state := .ready
        timeSlice := 10
        cpuTicks := 0
        exitCode := 0
        waitingFor := 0
        kernelStack := allocations.kernelStack }
      if allocations.kernelStack = 0 then (-1, list)
      else if ¬ (list.memory current).kernelMode ∧ (list.memory current).userStack ≠ 0 then
        let list := list.store child fun task => { task with userStack := allocations.userStack }
        if allocations.userStack = 0 then (-1, list) else ((list.memory child).pid, list.link child)
      else ((list.memory child).pid, list.link child)

/-- The task that `task_destroy` takes off the list. -/
def victim (list : TaskList) (id : Nat) : Option Word := list.first fun task => task.id = id

def taskDestroy (list : TaskList) (id : Nat) : TaskList :=
  { list with queue := list.queue.eraseP fun t => (list.memory t).id = id }

def taskFind (list : TaskList) (pid : Int) : Option Word := list.first fun task => task.pid = pid

/-- The end of `task_exit`: a parent that waits for the task at `t`, or for any
child, becomes ready. -/
def wakeParent (list : TaskList) (t : Word) : TaskList :=
  match list.taskFind (list.memory t).parentPid with
  | none => list
  | some parent =>
    let waiter := list.memory parent
    if waiter.state = .blocked ∧ (waiter.waitingFor = (list.memory t).pid ∨ waiter.waitingFor = -1) then
      list.store parent fun task => { task with state := .ready }
    else list

def taskExit (list : TaskList) (id : Nat) (exitCode : Int) : TaskList :=
  match list.first fun task => task.id = id with
  | none => list
  | some t => (list.store t fun task => { task with state := .zombie, exitCode }).wakeParent t

/-- One turn of the loop of `pick_next_task`. -/
def better (list : TaskList) (best : Option Word) (t : Word) : Option Word :=
  if (list.memory t).state = .ready then
    match best with
    | none => some t
    | some found => if (list.memory t).priority > (list.memory found).priority then some t else best
  else best

def pickNextTask (list : TaskList) : Option Word := list.queue.foldl list.better none

/-- The running task goes back to the ready ones. -/
def demote (list : TaskList) : TaskList :=
  match list.currentTask with
  | none => list
  | some current =>
    if (list.memory current).state = .running then list.store current fun task => { task with state := .ready }
    else list

def promote (list : TaskList) (next : Word) : TaskList :=
  { list.store next fun task => { task with state := .running, timeSlice := 10 } with currentTask := some next }

def schedule (list : TaskList) : TaskList :=
  match list.pickNextTask with
  | none => list
  | some next => list.demote.promote next

def schedYield (list : TaskList) : TaskList := list.schedule

/-- `sched_tick` up to its call of `schedule`. -/
def countTick (list : TaskList) : TaskList :=
  let list := { list with tickCount := (list.tickCount + 1) % 2 ^ 32 }
  match list.currentTask with
  | none => list
  | some current => list.store current fun task =>
      { task with cpuTicks := (task.cpuTicks + 1) % 2 ^ 32, timeSlice := task.timeSlice - 1 }

def schedTick (list : TaskList) : TaskList :=
  let list := list.countTick
  if list.currentField Task.timeSlice = some 0 then list.schedule else list

/-- `sched_block` up to its call of `schedule`. -/
def markBlocked (list : TaskList) (current : Word) : TaskList :=
  list.store current fun task => { task with state := .blocked }

def schedBlock (list : TaskList) : TaskList :=
  match list.currentTask with
  | none => list
  | some current => (list.markBlocked current).schedule

def schedUnblock (list : TaskList) (id : Nat) : TaskList :=
  match list.first fun task => task.id = id with
  | none => list
  | some t => list.store t fun task => { task with state := .ready }

/-- A child of `parent` that `task_wait(pid)` may reap once it is a zombie. -/
def waitsFor (parent : Task) (pid : Int) (task : Task) : Bool :=
  task.parentPid = parent.pid ∧ (pid = -1 ∨ task.pid = pid)

/-- How one turn of the loop of `task_wait` ends; the status goes to a pointer
that is not NULL. -/
inductive WaitTurn where
  | returns (result : Int) (status : Option Int) (list : TaskList)
  | blocks (list : TaskList)

/-- The loop body of `task_wait` up to its call of `schedule`. -/
def taskWaitTurn (list : TaskList) (current : Word) (pid : Int) : WaitTurn :=
  match list.first fun task => waitsFor (list.memory current) pid task ∧ task.state = .zombie with
  | some t => .returns (list.memory t).pid (some (list.memory t).exitCode) (list.taskDestroy (list.memory t).id)
  | none =>
    if (list.first (waitsFor (list.memory current) pid)).isSome then
      .blocks (list.store current fun task => { task with waitingFor := pid, state := .blocked })
    else .returns (-1) none list

/-- `task_wait` from its start, or from where `schedule` came back, to where it
returns or has called `schedule` again, which is `none`. -/
def taskWait (list : TaskList) (pid : Int) : Option (Int × Option Int) × TaskList :=
  match list.currentTask with
  | none => (some (-1, none), list)
  | some current =>
    match list.taskWaitTurn current pid with
    | .returns result status list => (some (result, status), list)
    | .blocks list => (none, list.schedule)

/-- `cmd_kill` of the shell. -/
def cmdKill (list : TaskList) (pid : Byte) : TaskList :=
  match list.taskFind pid.toNat with
  | none => list
  | some t => list.taskDestroy (list.memory t).id

/-- The calls of the scheduler's interface and the shell command that destroys
a task. -/
inductive Call where
  | taskCreate (allocations : Allocations) (priority : Nat) (kernelMode : Bool)
  | taskCreateUser (allocations : Allocations) (priority : Nat)
  | taskFork (allocations : Allocations)
  | taskExit (id : Nat) (exitCode : Int)
  | taskDestroy (id : Nat)
  | cmdKill (pid : Byte)
  | taskWait (pid : Int)
  | schedBlock
  | schedUnblock (id : Nat)
  | schedTick
  | schedYield
  | schedule

namespace Call

def run (list : TaskList) : Call → TaskList
  | taskCreate allocations priority kernelMode => (list.taskCreate allocations priority kernelMode).2
  | taskCreateUser allocations priority => (list.taskCreateUser allocations priority).2
  | taskFork allocations => (list.taskFork allocations).2
  | taskExit id exitCode => list.taskExit id exitCode
  | taskDestroy id => list.taskDestroy id
  | cmdKill pid => list.cmdKill pid
  | taskWait pid => (list.taskWait pid).2
  | schedBlock => list.schedBlock
  | schedUnblock id => list.schedUnblock id
  | schedTick => list.schedTick
  | schedYield => list.schedYield
  | schedule => list.schedule

/-- The memory that the call may ask for. -/
def allocations : Call → Option Allocations
  | taskCreate allocations .. | taskCreateUser allocations _ | taskFork allocations => some allocations
  | _ => none

/-- The state in which the call runs `schedule`, if it does. -/
def schedules (list : TaskList) : Call → Option TaskList
  | schedBlock => list.currentTask.map list.markBlocked
  | schedTick => if list.countTick.currentField Task.timeSlice = some 0 then some list.countTick else none
  | taskWait pid => list.currentTask.bind fun current =>
      match list.taskWaitTurn current pid with
      | .returns .. => none
      | .blocks list => some list
  | schedYield | schedule => some list
  | _ => none

/-- The task that the call takes off the list and frees. -/
def victim (list : TaskList) : Call → Option Word
  | taskDestroy id => list.victim id
  | cmdKill pid => (list.taskFind pid.toNat).bind fun t => list.victim (list.memory t).id
  | taskWait pid => list.currentTask.bind fun current =>
      (list.first fun task => waitsFor (list.memory current) pid task ∧ task.state = .zombie).bind fun t =>
        list.victim (list.memory t).id
  | _ => none

/-- `kmalloc` hands out no structure that is on the list. -/
def Fresh (list : TaskList) (call : Call) : Prop := ∀ memory ∈ call.allocations, memory.task ∉ list.queue

instance (list : TaskList) (call : Call) : Decidable (call.Fresh list) :=
  inferInstanceAs (Decidable (∀ memory ∈ call.allocations, _))

end Call

/-- The memory after others have written to it. -/
def overwrite (list : TaskList) (written : Word → Task) : TaskList := { list with memory := written }

/-- A call, or a write by others to what lies outside the list, which belongs
to them. -/
inductive Step (list : TaskList) : Option Call → TaskList → Prop
  | call : call.Fresh list → Step list (some call) (call.run list)
  | reuse (written : Word → Task) : (∀ t ∈ list.queue, written t = list.memory t) →
    Step list none (list.overwrite written)

/-- One call after the other, as long as the memory they get is fresh. -/
def runAll (list : TaskList) : List Call → Option TaskList
  | [] => some list
  | call :: rest => if call.Fresh list then (call.run list).runAll rest else none

variable {list before : TaskList} {t u : Word}

theorem runAll_trace {start last : TaskList} {calls : List Call} (earlier : Trace Step start events list)
    (result : list.runAll calls = some last) : Trace Step start (events ++ calls.map some) last := by
  induction calls generalizing list events with
  | nil =>
    cases result
    simpa using earlier
  | cons call rest ih =>
    simp only [runAll, Option.ite_none_right_eq_some] at result
    have trace := ih (earlier.snoc (.call result.1)) result.2
    simpa using trace

theorem runAll_reaches {start last : TaskList} {calls : List Call} (result : start.runAll calls = some last) :
    Trace Step start (calls.map some) last := by
  have trace := runAll_trace .nil result
  rwa [List.nil_append] at trace

@[simp] theorem store_memory (list : TaskList) (t : Word) (change : Task → Task) (u : Word) :
    (list.store t change).memory u = if u = t then change (list.memory t) else list.memory u := by
  unfold store
  by_cases same : u = t
  · subst same
    simp
  · simp [same]

@[simp] theorem store_queue (list : TaskList) (t : Word) (change : Task → Task) :
    (list.store t change).queue = list.queue := rfl

@[simp] theorem store_currentTask (list : TaskList) (t : Word) (change : Task → Task) :
    (list.store t change).currentTask = list.currentTask := rfl

@[simp] theorem store_nextTid (list : TaskList) (t : Word) (change : Task → Task) :
    (list.store t change).nextTid = list.nextTid := rfl

theorem first_some {test : Task → Bool} (found : list.first test = some t) :
    t ∈ list.queue ∧ test (list.memory t) = true := by
  have passed := @List.find?_some _ (fun t => test (list.memory t)) t list.queue found
  exact ⟨List.mem_of_find?_eq_some found, passed⟩

theorem first_none {test : Task → Bool} (nothing : list.first test = none) :
    ∀ t ∈ list.queue, test (list.memory t) = false := by
  intro t member
  simpa using List.find?_eq_none.mp nothing t member

/-- The loop does to the addresses what that of `Scheduler.pickNextTask` does
to the tasks behind them. -/
theorem foldl_better (list : TaskList) (queue : List Word) (best : Option Word) :
    (queue.foldl list.better best).map list.memory =
      (queue.map list.memory).foldl Scheduler.preferred (best.map list.memory) := by
  induction queue generalizing best with
  | nil => rfl
  | cons head rest ih =>
    rw [List.foldl_cons, ih, List.map_cons, List.foldl_cons]
    congr 1
    unfold better Scheduler.preferred
    cases best with
    | none =>
      split <;> rfl
    | some found =>
      dsimp only [Option.map_some]
      split
      · split <;> rfl
      · rfl

theorem foldl_better_mem (list : TaskList) (queue : List Word) (best : Option Word) :
    queue.foldl list.better best = best ∨ ∃ next ∈ queue, queue.foldl list.better best = some next := by
  induction queue generalizing best with
  | nil => exact .inl rfl
  | cons head rest ih =>
    rw [List.foldl_cons]
    rcases ih (list.better best head) with same | ⟨next, member, picked⟩
    · have turn : list.better best head = best ∨ list.better best head = some head := by
        unfold better
        split
        · split
          · exact .inr rfl
          · split
            · exact .inr rfl
            · exact .inl rfl
        · exact .inl rfl
      rcases turn with kept | taken
      · exact .inl (same.trans kept)
      · exact .inr ⟨head, List.mem_cons_self, same.trans taken⟩
    · exact .inr ⟨next, List.mem_cons_of_mem _ member, picked⟩

/-- `pick_next_task` finds a ready task that no other ready task outranks. -/
structure Picks (list : TaskList) (next : Word) : Prop where
  picked : list.pickNextTask = some next
  member : next ∈ list.queue
  ready : (list.memory next).state = .ready
  best : ∀ t ∈ list.queue, (list.memory t).state = .ready → (list.memory t).priority ≤ (list.memory next).priority

theorem pickNextTask_cases (list : TaskList) :
    (list.pickNextTask = none ∧ ∀ t ∈ list.queue, (list.memory t).state ≠ .ready) ∨ ∃ next, list.Picks next := by
  have mapped := list.foldl_better list.queue none
  have origin := list.foldl_better_mem list.queue none
  rcases Scheduler.foldl_preferred (list.queue.map list.memory) none with ⟨nothing, others⟩ | ⟨task, picked, first, _⟩
  · rw [Option.map_none, nothing, Option.map_eq_none_iff] at mapped
    refine .inl ⟨mapped, ?_⟩
    intro t member ready
    obtain ⟨_, impossible, _⟩ := others _ (List.mem_map_of_mem member) ready
    cases impossible
  · rw [Option.map_none, picked, Option.map_eq_some_iff] at mapped
    obtain ⟨next, chosen, same⟩ := mapped
    right
    refine ⟨next, chosen, ?_, ?_, ?_⟩
    · rcases origin with nothing | ⟨other, member, found⟩
      · rw [chosen] at nothing
        cases nothing
      · rw [chosen, Option.some.injEq] at found
        exact found ▸ member
    · rw [same]
      exact first.ready
    · intro t member ready
      rw [same]
      exact first.highest _ (List.mem_map_of_mem member) ready

/-- What `schedule` leaves in the structure at `t` when it picks `next`. -/
theorem promote_memory (next t : Word) (ready : (list.memory next).state = .ready) :
    (list.demote.promote next).memory t =
      if t = next then { list.memory t with state := .running, timeSlice := 10 }
      else if list.currentTask = some t ∧ (list.memory t).state = .running then { list.memory t with state := .ready }
      else list.memory t := by
  change (list.demote.store next fun task => { task with state := .running, timeSlice := 10 }).memory t = _
  rw [store_memory]
  unfold demote
  cases current : list.currentTask with
  | none =>
    by_cases here : t = next
    · subst here
      simp
    · simp [here]
  | some running =>
    by_cases runs : (list.memory running).state = .running
    · have different : next ≠ running := by
        intro same
        rw [same, runs] at ready
        cases ready
      by_cases here : t = next
      · subst here
        simp [runs, different]
      · by_cases there : t = running
        · subst there
          simp [runs, here]
        · simp [runs, here, there, Ne.symm there]
    · by_cases here : t = next
      · subst here
        simp [runs]
      · by_cases there : t = running
        · subst there
          simp [runs, here]
        · simp [runs, here, Ne.symm there]

theorem demote_queue (list : TaskList) : list.demote.queue = list.queue := by
  unfold demote
  split
  · rfl
  · split <;> rfl

theorem schedule_queue (list : TaskList) : list.schedule.queue = list.queue := by
  unfold schedule
  split
  · rfl
  · exact list.demote_queue

/-- `schedule` does nothing when no task is ready, and otherwise switches to the
task it picks. -/
theorem schedule_cases (list : TaskList) :
    (list.schedule = list ∧ ∀ t ∈ list.queue, (list.memory t).state ≠ .ready) ∨
      ∃ next, list.Picks next ∧ list.schedule = list.demote.promote next := by
  unfold schedule
  rcases list.pickNextTask_cases with ⟨nothing, none⟩ | ⟨next, picks⟩
  · rw [nothing]
    exact .inl ⟨rfl, none⟩
  · rw [picks.picked]
    exact .inr ⟨next, picks, rfl⟩

/-- The task at one address before and after a switch: it may have got the
processor, or lost it. -/
structure Turned (old new : Task) : Prop where
  same : new = { old with state := new.state, timeSlice := new.timeSlice, cpuTicks := new.cpuTicks }
  state : new.state = old.state ∨
    (old.state = .ready ∨ old.state = .running) ∧ (new.state = .ready ∨ new.state = .running)

theorem Turned.refl (task : Task) : Turned task task := ⟨rfl, .inl rfl⟩

theorem Turned.trans {old middle new : Task} (first : Turned old middle) (second : Turned middle new) : Turned old new := by
  refine ⟨?_, ?_⟩
  · rw [second.same, first.same]
  · rcases first.state with kept | ⟨awake, _⟩
    · rw [← kept]
      exact second.state
    · rcases second.state with kept | ⟨_, still⟩
      · rw [kept]
        exact first.state
      · exact .inr ⟨awake, still⟩

theorem Turned.awake {old new : Task} (turned : Turned old new)
    (asleep : new.state ≠ .ready ∧ new.state ≠ .running) : new.state = old.state := by
  rcases turned.state with kept | ⟨_, ready | running⟩
  · exact kept
  · exact absurd ready asleep.1
  · exact absurd running asleep.2

/-- What `schedule` and the timer tick can do to the list. -/
structure Switched (list after : TaskList) : Prop where
  queue : after.queue = list.queue
  nextTid : after.nextTid = list.nextTid
  current : after.currentTask = list.currentTask ∨ ∃ next ∈ list.queue, after.currentTask = some next
  memory : ∀ t, Turned (list.memory t) (after.memory t)

theorem demote_nextTid (list : TaskList) : list.demote.nextTid = list.nextTid := by
  unfold demote
  split
  · rfl
  · split <;> rfl

theorem schedule_switched (list : TaskList) : Switched list list.schedule := by
  rcases list.schedule_cases with ⟨same, _⟩ | ⟨next, picks, switched⟩
  · rw [same]
    exact ⟨rfl, rfl, .inl rfl, fun t => .refl _⟩
  · rw [switched]
    refine ⟨list.demote_queue, list.demote_nextTid, .inr ⟨next, picks.member, rfl⟩, ?_⟩
    intro t
    rw [promote_memory next t picks.ready]
    split
    · next here =>
      subst here
      exact ⟨rfl, .inr ⟨.inl picks.ready, .inr rfl⟩⟩
    · split
      · next ran => exact ⟨rfl, .inr ⟨.inr ran.2, .inl rfl⟩⟩
      · exact .refl _

theorem countTick_switched (list : TaskList) : Switched list list.countTick := by
  unfold countTick
  dsimp only
  split
  · exact ⟨rfl, rfl, .inl rfl, fun t => .refl _⟩
  · refine ⟨rfl, rfl, .inl rfl, ?_⟩
    intro t
    rw [store_memory]
    split
    · next here =>
      subst here
      exact ⟨rfl, .inl rfl⟩
    · exact .refl _

theorem Switched.trans {middle after : TaskList} (first : Switched list middle) (second : Switched middle after) :
    Switched list after := by
  refine ⟨second.queue.trans first.queue, second.nextTid.trans first.nextTid, ?_, fun t =>
    (first.memory t).trans (second.memory t)⟩
  rcases second.current with same | ⟨next, member, switched⟩
  · rw [same]
    exact first.current
  · exact .inr ⟨next, first.queue ▸ member, switched⟩

theorem schedTick_switched (list : TaskList) : Switched list list.schedTick := by
  unfold schedTick
  dsimp only
  split
  · exact list.countTick_switched.trans (schedule_switched _)
  · exact list.countTick_switched

end TaskList

end MexOS.Sched
