import Mathlib.Algebra.Group.Nat.Defs
import Mathlib.Data.List.Basic

/-! The run queue of `sched/sched.c` and how a switch changes it. -/

namespace MexOS.Sched

inductive TaskState where
  | running
  | ready
  | blocked
  | zombie
deriving DecidableEq, Repr

/-- `struct task` without its link and the saved registers other than CR3. A
new task starts from zeros. -/
structure Task where
  id : Nat
  state : TaskState
  priority : Nat
  timeSlice : Nat
  pid : Int := 0
  parentPid : Int := 0
  kernelMode : Bool := false
  kernelStack : BitVec 32 := 0
  userStack : BitVec 32 := 0
  cpuTicks : Nat := 0
  exitCode : Int := 0
  waitingFor : Int := 0
  cr3 : BitVec 32 := 0
deriving DecidableEq, Repr

/-- `current_task` is a pointer into the queue; it is kept as the task's id. -/
structure Scheduler where
  taskQueue : List Task
  currentTask : Option Nat
  nextTid : Nat := 1
  tickCount : Nat := 0

/-- Change the first task of the queue that has this id. -/
def updateTask (id : Nat) (change : Task → Task) : List Task → List Task
  | [] => []
  | task :: rest => if task.id = id then change task :: rest else task :: updateTask id change rest

namespace Scheduler

def update (sched : Scheduler) (id : Nat) (change : Task → Task) : Scheduler :=
  { sched with taskQueue := updateTask id change sched.taskQueue }

def stateOf (sched : Scheduler) (id : Nat) : Option TaskState :=
  (sched.taskQueue.find? fun task => task.id = id).map Task.state

def pickNextTask (sched : Scheduler) : Option Task :=
  sched.taskQueue.foldl (fun best task =>
    if task.state = .ready then
      match best with
      | none => some task
      | some found => if task.priority > found.priority then some task else best
    else best) none

/-- The running task goes back to the ready ones. -/
def demote (sched : Scheduler) : Scheduler :=
  match sched.currentTask with
  | none => sched
  | some current =>
    if sched.stateOf current = some TaskState.running then
      sched.update current fun task => { task with state := .ready }
    else sched

def promote (sched : Scheduler) (next : Nat) : Scheduler :=
  { sched.update next fun task => { task with state := .running, timeSlice := 10 } with currentTask := some next }

/-- What `schedule` does once it has picked the task `next`. -/
def switchTo (sched : Scheduler) (next : Nat) : Scheduler := sched.demote.promote next

def schedule (sched : Scheduler) : Scheduler :=
  match sched.pickNextTask with
  | none => sched
  | some next => sched.switchTo next.id

/-- `sched_block` up to its call of `schedule`. -/
def markBlocked (sched : Scheduler) (current : Nat) : Scheduler :=
  sched.update current fun task => { task with state := .blocked }

def schedBlock (sched : Scheduler) : Scheduler :=
  match sched.currentTask with
  | none => sched
  | some current => (sched.markBlocked current).schedule

def schedUnblock (sched : Scheduler) (id : Nat) : Scheduler :=
  sched.update id fun task => { task with state := .ready }

/-- Some ready task gets the processor; without one nothing changes, also when
the current task has just blocked. -/
inductive Dispatch (sched : Scheduler) : Scheduler → Prop
  | idle : (∀ id, sched.stateOf id ≠ some .ready) → Dispatch sched sched
  | switch : sched.stateOf next = some .ready → Dispatch sched (sched.switchTo next)

/-- Task ids come from a counter that starts at one, and `current_task` points
into the queue. -/
structure Valid (sched : Scheduler) : Prop where
  distinct : (sched.taskQueue.map Task.id).Nodup
  nonzero : 0 ∉ sched.taskQueue.map Task.id
  current : ∀ id, sched.currentTask = some id → id ∈ sched.taskQueue.map Task.id

end Scheduler

theorem updateTask_ids {change : Task → Task} (keeps : ∀ task, (change task).id = task.id) (id : Nat)
    (queue : List Task) : (updateTask id change queue).map Task.id = queue.map Task.id := by
  induction queue with
  | nil => rfl
  | cons task rest ih =>
    rw [updateTask]
    split
    · simp [keeps]
    · simp [ih]

theorem find_updateTask {change : Task → Task} (keeps : ∀ task, (change task).id = task.id) (id other : Nat)
    (queue : List Task) : (updateTask id change queue).find? (fun task => task.id = other) =
      if id = other then (queue.find? fun task => task.id = other).map change
      else queue.find? fun task => task.id = other := by
  induction queue with
  | nil => simp [updateTask]
  | cons task rest ih =>
    rw [updateTask]
    by_cases here : task.id = id
    · subst here
      by_cases same : task.id = other
      · simp [keeps, same]
      · simp [keeps, same]
    · by_cases wanted : task.id = other
      · have different : id ≠ other := fun same => here (by rw [wanted, same])
        rw [if_neg here, if_neg different]
        simp [wanted]
      · simp [here, wanted, ih]

namespace Scheduler

/-- An update that puts tasks into `state` does that to the task it names. -/
theorem stateOf_update (sched : Scheduler) {change : Task → Task} {state : TaskState}
    (keeps : ∀ task, (change task).id = task.id) (sets : ∀ task, (change task).state = state) (id other : Nat) :
    (sched.update id change).stateOf other =
      if id = other then (sched.stateOf other).map fun _ => state else sched.stateOf other := by
  simp only [stateOf, update, find_updateTask keeps]
  split
  · simp [Function.comp_def, sets]
  · rfl

theorem stateOf_markBlocked (sched : Scheduler) (id other : Nat) : (sched.markBlocked id).stateOf other =
    if id = other then (sched.stateOf other).map fun _ => .blocked else sched.stateOf other := by
  rw [markBlocked, sched.stateOf_update] <;> exact fun _ => rfl

theorem stateOf_schedUnblock (sched : Scheduler) (id other : Nat) : (sched.schedUnblock id).stateOf other =
    if id = other then (sched.stateOf other).map fun _ => .ready else sched.stateOf other := by
  rw [schedUnblock, sched.stateOf_update] <;> exact fun _ => rfl

theorem stateOf_promote (sched : Scheduler) (next other : Nat) : (sched.promote next).stateOf other =
    if next = other then (sched.stateOf other).map fun _ => .running else sched.stateOf other := by
  have updated := @stateOf_update sched (fun task => { task with state := .running, timeSlice := 10 }) .running
    (fun _ => rfl) (fun _ => rfl) next other
  exact updated

theorem stateOf_demote_blocked (sched : Scheduler) (id : Nat) :
    sched.demote.stateOf id = some .blocked ↔ sched.stateOf id = some .blocked := by
  unfold demote
  cases sched.currentTask with
  | none => exact Iff.rfl
  | some current =>
    by_cases running : sched.stateOf current = some .running
    · have updated := @stateOf_update sched (fun task => { task with state := .ready }) .ready
        (fun _ => rfl) (fun _ => rfl) current id
      simp only [running, ↓reduceIte, updated]
      by_cases same : current = id
      · subst same
        simp [running]
      · simp [same]
    · simp [running]

/-- A switch to a task that was not blocked changes nothing about which tasks
are blocked. -/
theorem stateOf_switchTo_blocked {sched : Scheduler} {next : Nat} (picked : sched.stateOf next ≠ some .blocked)
    (id : Nat) : (sched.switchTo next).stateOf id = some .blocked ↔ sched.stateOf id = some .blocked := by
  rw [switchTo, stateOf_promote]
  by_cases same : next = id
  · subst same
    simp [picked]
  · simp only [same, ↓reduceIte, stateOf_demote_blocked]

theorem Dispatch.blocked_iff {before after : Scheduler} (dispatch : Dispatch before after) (id : Nat) :
    after.stateOf id = some .blocked ↔ before.stateOf id = some .blocked := by
  cases dispatch with
  | idle => exact Iff.rfl
  | switch picked => exact stateOf_switchTo_blocked (by simp [picked]) id

/-- The tasks of the queue, their order and the current one are unchanged. -/
theorem Valid.update {sched : Scheduler} (valid : Valid sched) {change : Task → Task}
    (keeps : ∀ task, (change task).id = task.id) (id : Nat) : Valid (sched.update id change) := by
  have ids : ((sched.update id change).taskQueue.map Task.id) = sched.taskQueue.map Task.id :=
    updateTask_ids keeps id sched.taskQueue
  constructor
  · exact ids ▸ valid.distinct
  · exact ids ▸ valid.nonzero
  · exact ids ▸ valid.current

theorem Valid.markBlocked {sched : Scheduler} (valid : Valid sched) (id : Nat) : Valid (sched.markBlocked id) :=
  valid.update (by intro task; rfl) id

theorem Valid.schedUnblock {sched : Scheduler} (valid : Valid sched) (id : Nat) : Valid (sched.schedUnblock id) :=
  valid.update (by intro task; rfl) id

theorem Valid.demote {sched : Scheduler} (valid : Valid sched) : Valid sched.demote := by
  unfold Scheduler.demote
  split
  · exact valid
  · split
    · exact valid.update (by intro task; rfl) _
    · exact valid

theorem demote_ids (sched : Scheduler) : sched.demote.taskQueue.map Task.id = sched.taskQueue.map Task.id := by
  unfold demote
  split
  · rfl
  · split
    · exact updateTask_ids (by intro task; rfl) _ _
    · rfl

theorem mem_ids_of_stateOf {sched : Scheduler} {id : Nat} (known : sched.stateOf id = some state) :
    id ∈ sched.taskQueue.map Task.id := by
  unfold stateOf at known
  cases found : sched.taskQueue.find? fun task => decide (task.id = id) with
  | none => simp [found] at known
  | some task =>
    have same := List.find?_some found
    simp only [decide_eq_true_eq] at same
    exact List.mem_map.mpr ⟨task, List.mem_of_find?_eq_some found, same⟩

theorem Valid.switchTo {sched : Scheduler} (valid : Valid sched) (known : sched.stateOf next = some state) :
    Valid (sched.switchTo next) := by
  have updated := @Valid.update sched.demote valid.demote
    (fun task => { task with state := .running, timeSlice := 10 }) (fun _ => rfl) next
  refine ⟨updated.distinct, updated.nonzero, ?_⟩
  intro id current
  have same : next = id := Option.some.inj current
  subst same
  have ids : (sched.switchTo next).taskQueue.map Task.id = sched.demote.taskQueue.map Task.id :=
    updateTask_ids (by intro task; rfl) next sched.demote.taskQueue
  rw [ids, demote_ids]
  exact mem_ids_of_stateOf known

theorem Valid.dispatch {before after : Scheduler} (valid : Valid before) (dispatch : Dispatch before after) :
    Valid after := by
  cases dispatch with
  | idle => exact valid
  | switch picked => exact valid.switchTo picked

/-- With distinct ids the queue holds one task under each of them. -/
theorem stateOf_of_mem {sched : Scheduler} (distinct : (sched.taskQueue.map Task.id).Nodup) {task : Task}
    (member : task ∈ sched.taskQueue) : sched.stateOf task.id = some task.state := by
  unfold stateOf
  generalize sched.taskQueue = queue at member distinct
  induction queue with
  | nil => cases member
  | cons head rest ih =>
    rw [List.map_cons, List.nodup_cons] at distinct
    cases member with
    | head => simp
    | tail _ later =>
      have other : head.id ≠ task.id := fun same =>
        distinct.1 (List.mem_map.mpr ⟨task, later, same.symm⟩)
      rw [List.find?_cons_of_neg (by simpa using other)]
      exact ih later distinct.2

/-- One turn of the loop of `pick_next_task`. -/
def preferred (best : Option Task) (task : Task) : Option Task :=
  if task.state = .ready then
    match best with
    | none => some task
    | some found => if task.priority > found.priority then some task else best
  else best

theorem pickNextTask_eq (sched : Scheduler) : sched.pickNextTask = sched.taskQueue.foldl preferred none := rfl

/-- A ready task of the queue beats all before it and is beaten by none behind. -/
structure FirstBest (queue : List Task) (next : Task) : Prop where
  ready : next.state = .ready
  split : ∃ front back, queue = front ++ next :: back ∧
    (∀ task ∈ front, task.state = .ready → task.priority < next.priority) ∧
    ∀ task ∈ back, task.state = .ready → task.priority ≤ next.priority

theorem FirstBest.cons {queue : List Task} {next head : Task} (best : FirstBest queue next)
    (beaten : head.state = .ready → head.priority < next.priority) : FirstBest (head :: queue) next := by
  obtain ⟨front, back, shape, before, behind⟩ := best.split
  refine ⟨best.ready, head :: front, back, by rw [shape, List.cons_append], ?_, behind⟩
  intro task member ready
  cases member with
  | head => exact beaten ready
  | tail _ later => exact before task later ready

/-- The loop keeps the best task so far unless a later one beats it. -/
theorem foldl_preferred (queue : List Task) (best : Option Task) :
    (queue.foldl preferred best = best ∧
      ∀ task ∈ queue, task.state = .ready → ∃ found, best = some found ∧ task.priority ≤ found.priority) ∨
    ∃ next, queue.foldl preferred best = some next ∧ FirstBest queue next ∧
      ∀ found, best = some found → found.priority < next.priority := by
  induction queue generalizing best with
  | nil => exact .inl ⟨rfl, by simp⟩
  | cons head rest ih =>
    rw [List.foldl_cons]
    by_cases better : head.state = .ready ∧ ∀ found, best = some found → found.priority < head.priority
    · have taken : preferred best head = some head := by
        cases best with
        | none => simp only [preferred, better.1, ↓reduceIte]
        | some found => simp only [preferred, better.1, ↓reduceIte, gt_iff_lt, better.2 found rfl]
      rw [taken]
      right
      rcases ih (some head) with ⟨kept, others⟩ | ⟨next, picked, first, above⟩
      · refine ⟨head, kept, ⟨better.1, [], rest, rfl, by simp, ?_⟩, better.2⟩
        intro task member ready
        obtain ⟨found, same, upper⟩ := others task member ready
        rwa [Option.some.inj same]
      · have larger := above head rfl
        refine ⟨next, picked, first.cons fun _ => larger, ?_⟩
        intro found same
        exact Nat.lt_trans (better.2 found same) larger
    · have passed : preferred best head = best := by
        by_cases ready : head.state = .ready
        · cases best with
          | none => exact absurd ⟨ready, by simp⟩ better
          | some found =>
            have lower : ¬ head.priority > found.priority := by
              intro larger
              exact better ⟨ready, fun other same => by rwa [← Option.some.inj same]⟩
            simp only [preferred, ready, ↓reduceIte, lower]
        · simp only [preferred, ready, ↓reduceIte]
      have bounded (ready : head.state = .ready) : ∃ found, best = some found ∧ head.priority ≤ found.priority := by
        by_contra none
        apply better
        refine ⟨ready, ?_⟩
        intro found same
        by_contra upper
        exact none ⟨found, same, by omega⟩
      rw [passed]
      rcases ih best with ⟨kept, others⟩ | ⟨next, picked, first, above⟩
      · refine .inl ⟨kept, ?_⟩
        intro task member ready
        cases member with
        | head => exact bounded ready
        | tail _ later => exact others task later ready
      · refine .inr ⟨next, picked, first.cons ?_, above⟩
        intro ready
        obtain ⟨found, same, upper⟩ := bounded ready
        exact Nat.lt_of_le_of_lt upper (above found same)

theorem pickNextTask_cases (sched : Scheduler) :
    (sched.pickNextTask = none ∧ ∀ task ∈ sched.taskQueue, task.state ≠ .ready) ∨
      ∃ next, sched.pickNextTask = some next ∧ FirstBest sched.taskQueue next := by
  rw [pickNextTask_eq]
  rcases foldl_preferred sched.taskQueue none with ⟨nothing, others⟩ | ⟨next, picked, first, _⟩
  · refine .inl ⟨nothing, ?_⟩
    intro task member ready
    obtain ⟨_, impossible, _⟩ := others task member ready
    cases impossible
  · exact .inr ⟨next, picked, first⟩

theorem FirstBest.mem {queue : List Task} {next : Task} (best : FirstBest queue next) : next ∈ queue := by
  obtain ⟨front, back, shape, _⟩ := best.split
  rw [shape]
  exact List.mem_append_right _ List.mem_cons_self

theorem FirstBest.highest {queue : List Task} {next : Task} (best : FirstBest queue next) :
    ∀ task ∈ queue, task.state = .ready → task.priority ≤ next.priority := by
  obtain ⟨front, back, shape, before, behind⟩ := best.split
  intro task member ready
  rw [shape] at member
  rcases List.mem_append.mp member with early | late
  · exact Nat.le_of_lt (before task early ready)
  · rcases List.mem_cons.mp late with rfl | later
    · exact Nat.le_refl _
    · exact behind task later ready

/-- The priority scheduler of the source is one way to dispatch. -/
theorem Valid.schedule_dispatch {sched : Scheduler} (valid : Valid sched) : Dispatch sched sched.schedule := by
  unfold schedule
  rcases pickNextTask_cases sched with ⟨nothing, none⟩ | ⟨next, picked, first⟩
  · rw [nothing]
    apply Dispatch.idle
    intro id ready
    unfold stateOf at ready
    rw [Option.map_eq_some_iff] at ready
    obtain ⟨task, present, state⟩ := ready
    exact none task (List.mem_of_find?_eq_some present) state
  · rw [picked]
    apply Dispatch.switch
    rw [stateOf_of_mem valid.distinct first.mem, first.ready]

end Scheduler

end MexOS.Sched
