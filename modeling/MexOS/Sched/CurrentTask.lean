import MexOS.Sched.TaskList

/-! `task_destroy` walks the list by id and does not ask who is running:
`current_task` stays a task of the list as long as no call destroys it. -/

namespace MexOS.Sched.TaskList

open MexOS.Machine

variable {list after : TaskList}

/-- `current_task` is NULL or on the list. -/
def Anchored (list : TaskList) : Prop := ∀ current, list.currentTask = some current → current ∈ list.queue

/-- The call of this step does not free the current task. -/
def Spares (list : TaskList) (event : Option Call) : Prop :=
  ∀ call, event = some call → ∀ victim, call.victim list = some victim → list.currentTask ≠ some victim

theorem eraseP_eq_erase {queue : List Word} {test : Word → Bool} (found : queue.find? test = some t) :
    queue.eraseP test = queue.erase t := by
  induction queue with
  | nil => cases found
  | cons head rest ih =>
    rw [List.find?_cons] at found
    cases passes : test head with
    | true =>
      rw [passes] at found
      obtain rfl : head = t := Option.some.inj found
      rw [List.eraseP_cons_of_pos passes, List.erase_cons_head]
    | false =>
      rw [passes] at found
      have different : head ≠ t := by
        rintro rfl
        rw [List.find?_some found] at passes
        cases passes
      rw [List.eraseP_cons_of_neg (by simp [passes]), List.erase_cons_tail (by simpa using different), ih found]

theorem taskDestroy_cases (list : TaskList) (id : Nat) :
    (list.victim id = none ∧ list.taskDestroy id = list) ∨
      ∃ victim, list.victim id = some victim ∧ list.taskDestroy id = { list with queue := list.queue.erase victim } := by
  unfold taskDestroy TaskList.victim
  cases found : list.first fun task => task.id = id with
  | none =>
    refine .inl ⟨rfl, ?_⟩
    rw [List.eraseP_of_forall_not]
    intro t member
    simpa using first_none found t member
  | some victim =>
    refine .inr ⟨victim, rfl, ?_⟩
    rw [eraseP_eq_erase found]

/-- A task as it is when it comes onto the list. Where the memory of a freed
current task is handed out again, its parent is the new task itself. -/
structure Newborn (list : TaskList) (t : Word) (task : Task) : Prop where
  id : task.id = list.nextTid
  pid : task.pid = pidOf list.nextTid
  state : task.state = .ready
  exitCode : task.exitCode = 0
  parent : (list.currentTask = none ∧ task.parentPid = 0) ∨ ∃ current, list.currentTask = some current ∧
    task.parentPid = if current = t then pidOf list.nextTid else (list.memory current).pid

/-- What a call that creates a task in the memory `t` can do. -/
inductive Creation (list : TaskList) (t : Word) : TaskList → Prop
  | refused : Creation list t list
  | failed (task : Task) : Creation list t { list.takeTid with memory := Function.update list.memory t task }
  | linked {task : Task} : Newborn list t task →
    Creation list t { list.takeTid with memory := Function.update list.memory t task, queue := t :: list.queue }

theorem store_store (list : TaskList) (t : Word) (first second : Task → Task) :
    (list.store t first).store t second = list.store t (second ∘ first) := by
  simp [store]

theorem takeTid_store (list : TaskList) (t : Word) (change : Task → Task) :
    (list.store t change).takeTid = list.takeTid.store t change := rfl

/-- The pid that `current_task->pid` reads once the new task at `t` has its
own. -/
theorem currentPid_store (list : TaskList) (t : Word) {task : Task} (pid : task.pid = pidOf list.nextTid) :
    (list.currentTask = none ∧ ((list.takeTid.store t fun _ => task).currentField Task.pid).getD 0 = 0) ∨
      ∃ current, list.currentTask = some current ∧
        ((list.takeTid.store t fun _ => task).currentField Task.pid).getD 0 =
          if current = t then pidOf list.nextTid else (list.memory current).pid := by
  unfold currentField
  cases running : list.currentTask with
  | none => simp [takeTid, running]
  | some current =>
    refine .inr ⟨current, rfl, ?_⟩
    by_cases here : current = t
    · simp [takeTid, running, here, pid]
    · simp [takeTid, running, here]

theorem taskCreate_creation (list : TaskList) (allocations : Allocations) (priority : Nat) (kernelMode : Bool) :
    Creation list allocations.task (list.taskCreate allocations priority kernelMode).2 := by
  unfold taskCreate
  dsimp only
  split
  · exact .refused
  · simp only [takeTid_store, store_store]
    split
    · exact .failed _
    · split
      · exact .linked ⟨rfl, rfl, rfl, rfl, list.currentPid_store allocations.task rfl⟩
      · split
        · exact .failed _
        · exact .linked ⟨rfl, rfl, rfl, rfl, list.currentPid_store allocations.task rfl⟩

theorem taskFork_creation (list : TaskList) (allocations : Allocations) :
    Creation list allocations.task (list.taskFork allocations).2 := by
  unfold taskFork
  split
  · exact .refused
  · next current running =>
    dsimp only
    split
    · exact .refused
    · simp only [takeTid_store, store_store]
      have parent (task : Task) (pid : task.pid = pidOf list.nextTid) :
          ((list.takeTid.store allocations.task fun _ => task).memory current).pid =
            if current = allocations.task then pidOf list.nextTid else (list.memory current).pid := by
        rw [store_memory]
        split
        · exact pid
        · rfl
      split
      · exact .failed _
      · split
        · split
          · exact .failed _
          · exact .linked ⟨rfl, rfl, rfl, rfl, .inr ⟨current, running, parent _ rfl⟩⟩
        · exact .linked ⟨rfl, rfl, rfl, rfl, .inr ⟨current, running, parent _ rfl⟩⟩

/-- What a call does to the list and to `current_task`. -/
inductive Shape (list : TaskList) (call : Call) (after : TaskList) : Prop
  | kept : call.victim list = none → after.queue = list.queue →
    (after.currentTask = list.currentTask ∨ ∃ next ∈ list.queue, after.currentTask = some next) → Shape list call after
  | linked {memory : Allocations} : call.allocations = some memory → call.victim list = none →
    after.queue = memory.task :: list.queue → after.currentTask = list.currentTask → Shape list call after
  | removed {victim : Word} : call.victim list = some victim → after.queue = list.queue.erase victim →
    after.currentTask = list.currentTask → Shape list call after

theorem Creation.shape {call : Call} {memory : Allocations} (creation : Creation list memory.task after)
    (allocates : call.allocations = some memory) (spares : call.victim list = none) : Shape list call after := by
  cases creation with
  | refused => exact .kept spares rfl (.inl rfl)
  | failed => exact .kept spares rfl (.inl rfl)
  | linked => exact .linked allocates spares rfl rfl

theorem taskDestroy_shape {call : Call} {id : Nat} (same : call.victim list = list.victim id) :
    Shape list call (list.taskDestroy id) := by
  rcases list.taskDestroy_cases id with ⟨nothing, unchanged⟩ | ⟨victim, found, erased⟩
  · rw [unchanged]
    exact .kept (same.trans nothing) rfl (.inl rfl)
  · rw [erased]
    exact .removed (same.trans found) rfl rfl

theorem Switched.shape {call : Call} (switched : Switched list after) (spares : call.victim list = none) :
    Shape list call after :=
  .kept spares switched.queue switched.current

theorem wakeParent_kept (list : TaskList) (t : Word) :
    (list.wakeParent t).queue = list.queue ∧ (list.wakeParent t).currentTask = list.currentTask := by
  unfold wakeParent
  split
  · exact ⟨rfl, rfl⟩
  · dsimp only
    split
    · exact ⟨rfl, rfl⟩
    · exact ⟨rfl, rfl⟩

/-- `task_wait` has a zombie to reap. -/
def reapable (list : TaskList) (current : Word) (pid : Int) : Option Word :=
  list.first fun task => waitsFor (list.memory current) pid task ∧ task.state = .zombie

/-- How `task_wait` gets to its return or to its call of `schedule`. -/
inductive Waited (list : TaskList) (pid : Int) : Option (Int × Option Int) × TaskList → Prop
  | idle : list.currentTask = none → Waited list pid (some (-1, none), list)
  | reaped {current t : Word} : list.currentTask = some current → list.reapable current pid = some t →
    Waited list pid (some ((list.memory t).pid, some (list.memory t).exitCode), list.taskDestroy (list.memory t).id)
  | childless {current : Word} : list.currentTask = some current → list.reapable current pid = none →
    Waited list pid (some (-1, none), list)
  | blocked {current t : Word} : list.currentTask = some current → list.reapable current pid = none →
    t ∈ list.queue → waitsFor (list.memory current) pid (list.memory t) = true →
    Waited list pid (none,
      (list.store current fun task => { task with waitingFor := pid, state := .blocked }).schedule)

theorem taskWait_cases (list : TaskList) (pid : Int) : Waited list pid (list.taskWait pid) := by
  unfold taskWait
  split
  · next idle => exact .idle idle
  · next current running =>
    unfold taskWaitTurn
    cases zombie : list.reapable current pid with
    | some t =>
      simp only [reapable] at zombie
      simp only [zombie]
      exact .reaped running zombie
    | none =>
      have nothing := zombie
      simp only [reapable] at nothing
      simp only [nothing]
      cases child : list.first (waitsFor (list.memory current) pid) with
      | none => exact .childless running zombie
      | some t =>
        obtain ⟨member, waits⟩ := first_some child
        exact .blocked running zombie member waits

theorem Call.shape (list : TaskList) (call : Call) : Shape list call (call.run list) := by
  cases call with
  | taskCreate allocations priority kernelMode =>
    exact (list.taskCreate_creation allocations priority kernelMode).shape rfl rfl
  | taskCreateUser allocations priority => exact (list.taskCreate_creation allocations priority false).shape rfl rfl
  | taskFork allocations => exact (list.taskFork_creation allocations).shape rfl rfl
  | taskExit id exitCode =>
    change Shape list _ (list.taskExit id exitCode)
    unfold TaskList.taskExit
    split
    · exact .kept rfl rfl (.inl rfl)
    · next t _ =>
      obtain ⟨queue, current⟩ :=
        (list.store t fun task => { task with state := .zombie, exitCode := exitCode }).wakeParent_kept t
      exact .kept rfl queue (.inl current)
  | taskDestroy id => exact taskDestroy_shape rfl
  | cmdKill pid =>
    change Shape list _ (list.cmdKill pid)
    unfold TaskList.cmdKill
    split
    · next nothing => exact .kept (by simp [Call.victim, nothing]) rfl (.inl rfl)
    · next t found => exact taskDestroy_shape (by simp [Call.victim, found])
  | taskWait pid =>
    change Shape list _ (list.taskWait pid).2
    have spared (current : Word) (running : list.currentTask = some current)
        (nothing : list.reapable current pid = none) : (Call.taskWait pid).victim list = none := by
      unfold reapable at nothing
      simp only [Call.victim, running, Option.bind_some, nothing, Option.bind_none]
    have waited := list.taskWait_cases pid
    generalize list.taskWait pid = result at waited
    cases waited with
    | idle idle => exact .kept (by simp [Call.victim, idle]) rfl (.inl rfl)
    | reaped running zombie =>
      unfold reapable at zombie
      exact taskDestroy_shape (by simp only [Call.victim, running, Option.bind_some, zombie])
    | childless running nothing => exact .kept (spared _ running nothing) rfl (.inl rfl)
    | @blocked current _ running nothing =>
      have switched := schedule_switched
        (list.store current fun task => { task with waitingFor := pid, state := .blocked })
      exact .kept (spared _ running nothing) switched.queue switched.current
  | schedBlock =>
    change Shape list _ list.schedBlock
    unfold TaskList.schedBlock
    split
    · exact .kept rfl rfl (.inl rfl)
    · next current _ =>
      have switched := schedule_switched (list.markBlocked current)
      exact .kept rfl switched.queue switched.current
  | schedUnblock id =>
    change Shape list _ (list.schedUnblock id)
    unfold TaskList.schedUnblock
    split
    · exact .kept rfl rfl (.inl rfl)
    · exact .kept rfl rfl (.inl rfl)
  | schedTick => exact list.schedTick_switched.shape rfl
  | schedYield => exact list.schedule_switched.shape rfl
  | schedule => exact list.schedule_switched.shape rfl

/-- No structure is on the list twice. -/
theorem Shape.nodup {call : Call} (shape : Shape list call after) (fresh : call.Fresh list) (distinct : list.queue.Nodup) :
    after.queue.Nodup := by
  cases shape with
  | kept _ queue => exact queue ▸ distinct
  | @linked memory allocates _ queue =>
    rw [queue, List.nodup_cons]
    exact ⟨fresh memory allocates, distinct⟩
  | removed _ queue =>
    rw [queue]
    exact distinct.erase _

/-- Whom a call frees is no longer on the list. -/
theorem Shape.gone {call : Call} {victim : Word} (shape : Shape list call after) (distinct : list.queue.Nodup)
    (found : call.victim list = some victim) : after.queue = list.queue.erase victim ∧ victim ∉ after.queue := by
  cases shape with
  | kept spares =>
    rw [spares] at found
    cases found
  | linked _ spares =>
    rw [spares] at found
    cases found
  | @removed other same queue =>
    obtain rfl : other = victim := Option.some.inj (same.symm.trans found)
    exact ⟨queue, queue ▸ distinct.not_mem_erase⟩

/-- A call leaves the current task on the list exactly if it does not free
it. -/
theorem Shape.anchored_iff {call : Call} (shape : Shape list call after) (distinct : list.queue.Nodup)
    (anchored : list.Anchored) : after.Anchored ↔ list.Spares (some call) := by
  cases shape with
  | kept spares queue current =>
    refine ⟨fun _ other same victim found => ?_, fun _ running present => ?_⟩
    · cases same
      rw [spares] at found
      cases found
    · rw [queue]
      rcases current with same | ⟨next, member, switched⟩
      · exact anchored running (same ▸ present)
      · rw [present, Option.some.injEq] at switched
        exact switched ▸ member
  | linked _ spares queue current =>
    refine ⟨fun _ other same victim found => ?_, fun _ running present => ?_⟩
    · cases same
      rw [spares] at found
      cases found
    · rw [queue]
      exact List.mem_cons_of_mem _ (anchored running (current ▸ present))
  | @removed victim found queue current =>
    constructor
    · rintro still call same other present running
      cases same
      obtain ⟨_, gone⟩ := (Shape.removed found queue current).gone distinct present
      exact gone (still other (current.trans running))
    · intro spares running present
      rw [current] at present
      rw [queue, distinct.mem_erase_iff]
      refine ⟨?_, anchored running present⟩
      rintro rfl
      exact spares call rfl running found present

theorem Step.anchored_iff {event : Option Call} (step : Step list event after) (distinct : list.queue.Nodup)
    (anchored : list.Anchored) : after.Anchored ↔ list.Spares event := by
  cases step with
  | @call call fresh => exact (call.shape list).anchored_iff distinct anchored
  | reuse => exact iff_of_true anchored nofun

theorem Step.nodup {event : Option Call} (step : Step list event after) (distinct : list.queue.Nodup) :
    after.queue.Nodup := by
  cases step with
  | @call call fresh => exact (call.shape list).nodup fresh distinct
  | reuse => exact distinct

/-- A step that does not free the current task. -/
def SparingStep (list : TaskList) (event : Option Call) (after : TaskList) : Prop :=
  Step list event after ∧ list.Spares event

/-- While no call frees the current task it stays on the list, and the first
call that frees it leaves it dangling. -/
theorem current_task_in_queue {memory : Word → Task} {events : List (Option Call)}
    (run : Trace SparingStep (init memory) events list) :
    list.Anchored ∧ ∀ event after, Step list event after → (after.Anchored ↔ list.Spares event) := by
  have invariant := run.invariant (fun _ list => list.queue.Nodup ∧ list.Anchored)
    ⟨List.nodup_nil, nofun⟩ (by
      rintro _ before event after ⟨distinct, anchored⟩ ⟨step, spares⟩
      exact ⟨step.nodup distinct, (step.anchored_iff distinct anchored).mpr spares⟩)
  exact ⟨invariant.2, fun event after step => step.anchored_iff invariant.1 invariant.2⟩

/-- Two tasks are created, the second is scheduled and destroys the first. -/
theorem current_task_in_queue_two_tasks :
    ∃ events list, Trace SparingStep (init fun _ => cleared) events list ∧ list.currentTask = some 32 ∧
      list.queue = [32] ∧ list.Anchored := by
  let first := Call.run (init fun _ => cleared) (.taskCreate ⟨16, 0x1000, 0⟩ 1 true)
  let second := Call.run first (.taskCreate ⟨32, 0x2000, 0⟩ 2 true)
  have created : Trace SparingStep (init fun _ => cleared) _ second :=
    (Trace.nil.snoc ⟨.call (by decide), nofun⟩).snoc ⟨.call (by decide), nofun⟩
  have scheduled : Trace SparingStep (init fun _ => cleared) _ (Call.run second .schedule) :=
    created.snoc ⟨.call (by decide), nofun⟩
  have spares : (Call.run second .schedule).Spares (some (.taskDestroy 1)) := by
    rintro call same victim found
    cases same
    obtain rfl : (16 : Word) = victim := Option.some.inj found
    decide
  have destroyed := scheduled.snoc ⟨.call (by decide), spares⟩
  exact ⟨_, _, destroyed, by decide, by decide, (current_task_in_queue destroyed).1⟩

/-- The shell's `kill` of the task it runs in. -/
theorem current_task_dangles :
    ∃ list, Trace Step (init fun _ => cleared)
        ([.taskCreate ⟨16, 0x1000, 0⟩ 1 true, .schedule, .cmdKill 1].map some) list ∧
      list.currentTask = some 16 ∧ 16 ∉ list.queue :=
  ⟨_, runAll_reaches rfl, by decide, by decide⟩

end MexOS.Sched.TaskList
