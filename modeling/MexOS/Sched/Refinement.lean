import MexOS.Sched.Invariant
import MexOS.Sched.Reaping
import Mathlib.Data.List.Nodup

/-! While ids are distinct and `current_task` is on the list, the scheduler that
names tasks by their ids does what the linked list does. -/

namespace MexOS.Sched

open MexOS.Machine

namespace TaskList

variable {list : TaskList} {t : Word}

/-- The tasks of the list under their ids. -/
def view (list : TaskList) : Scheduler where
  taskQueue := list.queue.map list.memory
  currentTask := list.currentField Task.id
  nextTid := list.nextTid
  tickCount := list.tickCount

/-- The same call of the scheduler that names tasks by their ids; the two calls
that it does not have are compositions of others. -/
def Call.operation : Call → Option Operation
  | .taskCreate allocations priority kernelMode => some (.taskCreate allocations priority kernelMode)
  | .taskCreateUser allocations priority => some (.taskCreateUser allocations priority)
  | .taskFork allocations => some (.taskFork allocations)
  | .taskExit id exitCode => some (.taskExit id exitCode)
  | .taskDestroy id => some (.taskDestroy id)
  | .cmdKill _ | .taskWait _ => none
  | .schedBlock => some .schedBlock
  | .schedUnblock id => some (.schedUnblock id)
  | .schedTick => some .schedTick
  | .schedYield => some .schedYield
  | .schedule => some .schedule

theorem scheduler_eq {first second : Scheduler} (queue : first.taskQueue = second.taskQueue)
    (current : first.currentTask = second.currentTask) (tid : first.nextTid = second.nextTid)
    (ticks : first.tickCount = second.tickCount) : first = second := by
  cases first
  cases second
  simp_all

theorem Named.store (named : Named list) {change : Task → Task} (ids : ∀ task, (change task).id = task.id)
    (pids : ∀ task, (change task).pid = task.pid) (t : Word) : Named (list.store t change) := by
  have kept (u : Word) : ((list.store t change).memory u).id = (list.memory u).id ∧
      ((list.store t change).memory u).pid = (list.memory u).pid := by
    rw [store_memory]
    split
    · next here =>
      subst here
      exact ⟨ids _, pids _⟩
    · exact ⟨rfl, rfl⟩
  refine ⟨named.nodup, ?_, ?_, ?_, named.counter⟩
  · intro u member v present same
    rw [(kept u).1, (kept v).1] at same
    exact named.unique u member v present same
  · intro u member
    rw [(kept u).1, (kept u).2]
    exact named.pid u member
  · intro u member
    rw [(kept u).1]
    exact named.small u member

theorem Named.view_nodup (named : Named list) : (list.view.taskQueue.map Task.id).Nodup := by
  change ((list.queue.map list.memory).map Task.id).Nodup
  rw [List.map_map]
  apply List.Nodup.map_on ?_ named.nodup
  intro u member v present same
  exact named.unique u member v present same

theorem view_find (list : TaskList) (test : Task → Bool) :
    list.view.taskQueue.find? test = (list.first test).map list.memory :=
  List.find?_map

/-- A store through a pointer into the list is an update of the task with that
id. -/
theorem Named.view_store (named : Named list) (member : t ∈ list.queue) {change : Task → Task}
    (ids : ∀ task, (change task).id = task.id) :
    (list.store t change).view = list.view.update (list.memory t).id change := by
  have queue : (list.store t change).view.taskQueue = updateTask (list.memory t).id change list.view.taskQueue := by
    rw [Scheduler.updateTask_eq_map named.view_nodup]
    change list.queue.map (list.store t change).memory = (list.queue.map list.memory).map _
    rw [List.map_map]
    apply List.map_congr_left
    intro u present
    rw [store_memory, Function.comp_apply]
    by_cases here : u = t
    · subst here
      simp
    · have different : (list.memory u).id ≠ (list.memory t).id := fun same =>
        here (named.unique u present t member same)
      rw [if_neg here, if_neg different]
  have current : (list.store t change).view.currentTask = list.view.currentTask := by
    change list.currentTask.map _ = list.currentTask.map _
    congr 1
    funext u
    rw [store_memory]
    split
    · next here => rw [here, ids]
    · rfl
  exact scheduler_eq queue current rfl rfl

theorem view_idle (running : list.currentTask = none) : list.view.currentTask = none := by
  change list.currentTask.map _ = none
  rw [running]
  rfl

theorem view_running {current : Word} (running : list.currentTask = some current) :
    list.view.currentTask = some (list.memory current).id := by
  change list.currentTask.map _ = _
  rw [running]
  rfl

theorem view_current (list : TaskList) (named : Named list) (anchored : list.Anchored) :
    list.view.current = list.currentField id := by
  unfold Scheduler.current currentField
  change (list.currentTask.map fun t => (list.memory t).id).bind _ = _
  cases running : list.currentTask with
  | none => rfl
  | some current =>
    simp only [Option.map_some, Option.bind_some]
    rw [view_find, named.first_id (anchored current running)]
    rfl

theorem view_pickNextTask (list : TaskList) : list.view.pickNextTask = list.pickNextTask.map list.memory := by
  rw [Scheduler.pickNextTask_eq]
  exact (list.foldl_better list.queue none).symm

theorem Named.view_demote (named : Named list) (anchored : list.Anchored) : list.demote.view = list.view.demote := by
  unfold demote Scheduler.demote
  cases running : list.currentTask with
  | none => rw [view_idle running]
  | some current =>
    have member := anchored current running
    have state : list.view.stateOf (list.memory current).id = some (list.memory current).state :=
      Scheduler.stateOf_of_mem named.view_nodup (List.mem_map_of_mem member)
    rw [view_running running]
    simp only [state, Option.some.injEq]
    split
    · exact named.view_store member fun _ => rfl
    · rfl

theorem Named.view_promote (named : Named list) {next : Word} (member : next ∈ list.queue) :
    (list.promote next).view = list.view.promote (list.memory next).id := by
  have stored := @Named.view_store list next named member (fun task => { task with state := .running, timeSlice := 10 })
    fun _ => rfl
  refine scheduler_eq ?_ ?_ rfl rfl
  · have queue := congrArg Scheduler.taskQueue stored
    exact queue
  · have same : ((list.promote next).memory next).id = (list.memory next).id := by
      unfold promote
      simp
    exact congrArg some same

theorem Named.demote (named : Named list) : Named list.demote := by
  unfold TaskList.demote
  split
  · exact named
  · split
    · exact named.store (by intro; rfl) (by intro; rfl) _
    · exact named

theorem Named.view_schedule (named : Named list) (anchored : list.Anchored) :
    list.schedule.view = list.view.schedule := by
  unfold Scheduler.schedule
  rw [view_pickNextTask]
  rcases list.pickNextTask_cases with ⟨nothing, _⟩ | ⟨next, picks⟩
  · simp only [schedule, nothing, Option.map_none]
  · simp only [schedule, picks.picked, Option.map_some]
    have member : next ∈ list.demote.queue := list.demote_queue ▸ picks.member
    have same : (list.demote.memory next).id = (list.memory next).id := by
      unfold TaskList.demote
      split
      · rfl
      · split
        · rw [store_memory]
          split
          · next here => rw [here]
          · rfl
        · rfl
    rw [named.demote.view_promote member, named.view_demote anchored, same]
    rfl

/-- Writing memory that is not on the list. -/
theorem view_store_fresh (anchored : list.Anchored) (fresh : t ∉ list.queue) (change : Task → Task) :
    (list.store t change).view = list.view := by
  refine scheduler_eq ?_ ?_ rfl rfl
  · apply List.map_congr_left
    intro u member
    have different : u ≠ t := fun same => fresh (same ▸ member)
    rw [store_memory, if_neg different]
  · change list.currentTask.map _ = list.currentTask.map _
    cases running : list.currentTask with
    | none => rfl
    | some current =>
      have different : current ≠ t := fun same => fresh (same ▸ anchored current running)
      simp [different]

/-- A new task in fresh memory. -/
theorem view_link (anchored : list.Anchored) (fresh : t ∉ list.queue) (change : Task → Task) :
    ((list.store t change).link t).view = list.view.enqueue (change (list.memory t)) := by
  have same := view_store_fresh anchored fresh change
  refine scheduler_eq ?_ ?_ rfl rfl
  · have queue : list.queue.map (list.store t change).memory = list.view.taskQueue :=
      congrArg Scheduler.taskQueue same
    change (list.store t change).memory t :: list.queue.map (list.store t change).memory = _
    rw [queue, store_memory, if_pos rfl]
    rfl
  · have current := congrArg Scheduler.currentTask same
    exact current

theorem view_parent (named : Named list) (anchored : list.Anchored) (fresh : t ∉ list.queue) (task : Task) :
    ((list.takeTid.store t fun _ => task).currentField Task.pid).getD 0 = (list.view.current.map Task.pid).getD 0 := by
  rw [view_current list named anchored]
  unfold currentField
  change ((list.currentTask.map _).getD 0) = _
  cases running : list.currentTask with
  | none => rfl
  | some current =>
    have different : current ≠ t := fun same => fresh (same ▸ anchored current running)
    simp [different, takeTid]

theorem Named.view_taskCreate (named : Named list) (anchored : list.Anchored) {allocations : Allocations}
    (fresh : allocations.task ∉ list.queue) (priority : Nat) (kernelMode : Bool) :
    (list.taskCreate allocations priority kernelMode).2.view =
      (list.view.taskCreate allocations priority kernelMode).2 := by
  have stays : list.takeTid.Anchored := anchored
  have failed (change : Task → Task) : (list.takeTid.store allocations.task change).view = list.view.takeTid :=
    view_store_fresh stays fresh change
  have linked (change : Task → Task) : ((list.takeTid.store allocations.task change).link allocations.task).view =
      list.view.takeTid.enqueue (change (list.memory allocations.task)) := view_link stays fresh change
  unfold taskCreate Scheduler.taskCreate
  dsimp only
  by_cases none : allocations.task = 0
  · simp only [none, ↓reduceIte]
  · simp only [none, ↓reduceIte, takeTid_store, store_store, view_parent named anchored fresh]
    by_cases stackless : allocations.kernelStack = 0
    · simp only [stackless, ↓reduceIte]
      exact failed _
    · simp only [stackless, ↓reduceIte]
      cases kernelMode with
      | true =>
        simp only [↓reduceIte]
        rw [linked]
        rfl
      | false =>
        simp only [Bool.false_eq_true, ↓reduceIte]
        by_cases userless : allocations.userStack = 0
        · simp only [userless, ↓reduceIte]
          exact failed _
        · simp only [userless, ↓reduceIte]
          rw [linked]
          rfl

theorem Named.view_taskFork (named : Named list) (anchored : list.Anchored) {allocations : Allocations}
    (fresh : allocations.task ∉ list.queue) :
    (list.taskFork allocations).2.view = (list.view.taskFork allocations).2 := by
  have stays : list.takeTid.Anchored := anchored
  have failed (change : Task → Task) : (list.takeTid.store allocations.task change).view = list.view.takeTid :=
    view_store_fresh stays fresh change
  have linked (change : Task → Task) : ((list.takeTid.store allocations.task change).link allocations.task).view =
      list.view.takeTid.enqueue (change (list.memory allocations.task)) := view_link stays fresh change
  unfold taskFork Scheduler.taskFork
  rw [view_current list named anchored]
  unfold currentField
  cases running : list.currentTask with
  | none => rfl
  | some current =>
    have different : current ≠ allocations.task := fun same => fresh (same ▸ anchored current running)
    dsimp only [Option.map_some, id_eq]
    by_cases none : allocations.task = 0
    · simp only [none, ↓reduceIte]
    · simp only [none, ↓reduceIte, takeTid_store, store_store, store_memory, different]
      by_cases stackless : allocations.kernelStack = 0
      · simp only [stackless, ↓reduceIte]
        exact failed _
      · simp only [stackless, ↓reduceIte]
        have same : list.takeTid.memory current = list.memory current := rfl
        rw [same]
        by_cases user : ¬ (list.memory current).kernelMode = true ∧ (list.memory current).userStack ≠ 0
        · rw [if_pos user, if_pos user]
          by_cases userless : allocations.userStack = 0
          · simp only [userless, ↓reduceIte]
            exact failed _
          · simp only [userless, ↓reduceIte]
            rw [linked]
            rfl
        · rw [if_neg user, if_neg user, linked]
          rfl

theorem Named.view_wakeParent (named : Named list) {task : Task} (parent : task.parentPid = (list.memory t).parentPid)
    (pid : task.pid = (list.memory t).pid) : (list.wakeParent t).view = list.view.wakeParent task := by
  have found : list.view.taskFind task.parentPid = (list.taskFind (list.memory t).parentPid).map list.memory := by
    rw [parent]
    exact view_find list _
  unfold wakeParent Scheduler.wakeParent
  rw [found]
  cases known : list.taskFind (list.memory t).parentPid with
  | none => rfl
  | some waiter =>
    simp only [Option.map_some, pid]
    split
    · exact named.view_store (first_some known).1 fun _ => rfl
    · rfl

theorem Named.view_taskExit (named : Named list) (id : Nat) (exitCode : Int) :
    (list.taskExit id exitCode).view = list.view.taskExit id exitCode := by
  unfold taskExit Scheduler.taskExit
  rw [view_find]
  cases found : list.first fun task => task.id = id with
  | none => rfl
  | some t =>
    obtain ⟨member, same⟩ := first_some found
    rw [decide_eq_true_eq] at same
    have stored := @Named.view_store list t named member (fun task => { task with state := .zombie, exitCode }) fun _ => rfl
    rw [same] at stored
    simp only [Option.map_some]
    rw [← stored]
    refine (named.store (by intro; rfl) (by intro; rfl) t).view_wakeParent ?_ ?_
    · rw [store_memory, if_pos rfl]
    · rw [store_memory, if_pos rfl]

theorem updateTask_absent {queue : List Task} {id : Nat} (absent : queue.find? (fun task => task.id = id) = none)
    (change : Task → Task) : updateTask id change queue = queue := by
  induction queue with
  | nil => rfl
  | cons head rest ih =>
    rw [List.find?_cons] at absent
    by_cases here : head.id = id
    · simp [here] at absent
    · simp only [here, decide_false] at absent
      rw [updateTask, if_neg here, ih absent]

theorem Named.view_schedUnblock (named : Named list) (id : Nat) :
    (list.schedUnblock id).view = list.view.schedUnblock id := by
  unfold schedUnblock
  have find := view_find list fun task => task.id = id
  cases found : list.first fun task => task.id = id with
  | none =>
    rw [found] at find
    refine scheduler_eq ?_ rfl rfl rfl
    exact (updateTask_absent find _).symm
  | some t =>
    obtain ⟨member, same⟩ := first_some found
    rw [decide_eq_true_eq] at same
    have stored := @Named.view_store list t named member (fun task => { task with state := .ready }) fun _ => rfl
    rw [same] at stored
    exact stored

theorem view_taskDestroy (list : TaskList) (id : Nat) : (list.taskDestroy id).view = list.view.taskDestroy id := by
  refine scheduler_eq ?_ rfl rfl rfl
  change (list.queue.eraseP _).map list.memory = (list.queue.map list.memory).eraseP _
  rw [List.eraseP_map]
  rfl

theorem Named.view_schedBlock (named : Named list) (anchored : list.Anchored) :
    list.schedBlock.view = list.view.schedBlock := by
  unfold schedBlock Scheduler.schedBlock
  cases running : list.currentTask with
  | none => rw [view_idle running]
  | some current =>
    have stored := @Named.view_store list current named (anchored current running)
      (fun task => { task with state := .blocked }) fun _ => rfl
    have marked : Named (list.markBlocked current) := named.store (by intro; rfl) (by intro; rfl) current
    rw [view_running running]
    dsimp only
    rw [marked.view_schedule anchored]
    exact congrArg Scheduler.schedule stored

theorem Named.view_countTick (named : Named list) (anchored : list.Anchored) :
    list.countTick.view = list.view.countTick := by
  unfold countTick Scheduler.countTick
  dsimp only
  cases running : list.currentTask with
  | none =>
    rw [view_idle running]
    rfl
  | some current =>
    have counted : Named { list with tickCount := (list.tickCount + 1) % 2 ^ 32 } :=
      ⟨named.nodup, named.unique, named.pid, named.small, named.counter⟩
    have stored := @Named.view_store _ current counted (anchored current running)
      (fun task => { task with cpuTicks := (task.cpuTicks + 1) % 2 ^ 32, timeSlice := task.timeSlice - 1 }) fun _ => rfl
    rw [view_running running]
    refine scheduler_eq ?_ ?_ rfl rfl
    · have queue := congrArg Scheduler.taskQueue stored
      exact queue
    · have kept := (congrArg Scheduler.currentTask stored).trans (view_running running)
      rw [running] at kept
      exact kept

theorem Named.switched {after : TaskList} (named : Named list) (switched : Switched list after) : Named after := by
  have kin (t : Word) := (switched.memory t).kin
  refine ⟨switched.queue ▸ named.nodup, ?_, ?_, ?_, switched.nextTid ▸ named.counter⟩
  · intro u member v present same
    rw [switched.queue] at member present
    rw [(kin u).id, (kin v).id] at same
    exact named.unique u member v present same
  · intro u member
    rw [switched.queue] at member
    rw [(kin u).pid, (kin u).id]
    exact named.pid u member
  · intro u member
    rw [switched.queue] at member
    rw [(kin u).id]
    exact named.small u member

theorem Anchored.switched {after : TaskList} (anchored : list.Anchored) (switched : Switched list after) :
    after.Anchored := by
  intro current running
  rw [switched.queue]
  rcases switched.current with same | ⟨next, member, found⟩
  · exact anchored current (same ▸ running)
  · rw [found] at running
    exact Option.some.inj running ▸ member

theorem Named.view_schedTick (named : Named list) (anchored : list.Anchored) :
    list.schedTick.view = list.view.schedTick := by
  have counted := named.view_countTick anchored
  have stillNamed := named.switched list.countTick_switched
  have stays := anchored.switched list.countTick_switched
  unfold schedTick Scheduler.schedTick
  dsimp only
  rw [← counted, view_current _ stillNamed stays]
  have expired : (list.countTick.currentField id).any (fun task => decide (task.timeSlice = 0)) = true ↔
      list.countTick.currentField Task.timeSlice = some 0 := by
    unfold currentField
    cases list.countTick.currentTask with
    | none => simp
    | some current => simp
  by_cases now : list.countTick.currentField Task.timeSlice = some 0
  · rw [if_pos now, if_pos (expired.mpr now)]
    exact stillNamed.view_schedule stays
  · rw [if_neg now, if_neg (fun later => now (expired.mp later))]

/-- Every call on the linked list is the call of the same name on the scheduler
that names tasks by their ids. -/
theorem list_refines_scheduler (named : Named list) (anchored : list.Anchored) {call : Call} (fresh : call.Fresh list)
    {operation : Operation} (same : call.operation = some operation) :
    (call.run list).view = operation.run list.view := by
  cases call with
  | taskCreate allocations priority kernelMode =>
    cases same
    exact named.view_taskCreate anchored (fresh allocations rfl) priority kernelMode
  | taskCreateUser allocations priority =>
    cases same
    exact named.view_taskCreate anchored (fresh allocations rfl) priority false
  | taskFork allocations =>
    cases same
    exact named.view_taskFork anchored (fresh allocations rfl)
  | taskExit id exitCode =>
    cases same
    exact named.view_taskExit id exitCode
  | taskDestroy id =>
    cases same
    exact list.view_taskDestroy id
  | cmdKill => cases same
  | taskWait => cases same
  | schedBlock =>
    cases same
    exact named.view_schedBlock anchored
  | schedUnblock id =>
    cases same
    exact named.view_schedUnblock id
  | schedTick =>
    cases same
    exact named.view_schedTick anchored
  | schedYield =>
    cases same
    exact named.view_schedule anchored
  | schedule =>
    cases same
    exact named.view_schedule anchored

end TaskList

end MexOS.Sched
