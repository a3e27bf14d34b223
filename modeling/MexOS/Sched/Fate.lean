import MexOS.Sched.CurrentTask

/-! What one call of the scheduler's interface can do to a task that is on the
list, whatever the other tasks are. -/

namespace MexOS.Sched.TaskList

open MexOS.Machine

variable {list after : TaskList} {t : Word}

/-- The task that the call makes ready although the scheduler did not run it. -/
def Call.wakes (list : TaskList) : Call → Option Word
  | schedUnblock id => list.first fun task => task.id = id
  | taskExit id _ => (list.first fun task => task.id = id).bind fun t =>
      (list.taskFind (list.memory t).parentPid).filter fun parent => parent ≠ t ∧
        (list.memory parent).state = .blocked ∧
          ((list.memory parent).waitingFor = (list.memory t).pid ∨ (list.memory parent).waitingFor = -1)
  | _ => none

/-- The call by which the current task gives up the processor until it is
woken. -/
inductive Call.Sleeps : Call → Task → Task → Prop
  | blocked (task : Task) : Sleeps .schedBlock task { task with state := .blocked }
  | waiting (pid : Int) (task : Task) : Sleeps (.taskWait pid) task { task with waitingFor := pid, state := .blocked }

/-- A task of the list before and after a call. -/
inductive Fate (list : TaskList) (call : Call) (t : Word) (old : Task) : Task → Prop
  | turned : Turned old new → Fate list call t old new
  | exits {id : Nat} : call = .taskExit id exitCode → (list.first fun task => task.id = id) = some t →
    Fate list call t old { old with state := .zombie, exitCode }
  | wakes : call.wakes list = some t → Fate list call t old { old with state := .ready }
  | sleeps : list.currentTask = some t → call.Sleeps old asleep → Turned asleep new → Fate list call t old new

theorem Creation.fate {call : Call} {memory : Allocations} (creation : Creation list memory.task after)
    (fresh : memory.task ∉ list.queue) (member : t ∈ list.queue) :
    Fate list call t (list.memory t) (after.memory t) := by
  have different : t ≠ memory.task := fun same => fresh (same ▸ member)
  cases creation with
  | refused => exact .turned (.refl _)
  | failed task =>
    change Fate list call t (list.memory t) (Function.update list.memory memory.task task t)
    rw [Function.update_of_ne different]
    exact .turned (.refl _)
  | @linked task _ =>
    change Fate list call t (list.memory t) (Function.update list.memory memory.task task t)
    rw [Function.update_of_ne different]
    exact .turned (.refl _)

/-- Changing a field that the search does not look at. -/
theorem first_store {test : Task → Bool} {change : Task → Task} (blind : ∀ task, test (change task) = test task) (t : Word) :
    (list.store t change).first test = list.first test := by
  unfold first
  rw [store_queue]
  congr 1
  funext u
  rw [store_memory]
  split
  · next here => rw [here, blind]
  · rfl

/-- The zombie's parent is woken exactly if `wakes` says so. -/
theorem taskExit_memory {id : Nat} {exitCode : Int} (found : (list.first fun task => task.id = id) = some t) (u : Word) :
    (list.taskExit id exitCode).memory u =
      if u = t then { list.memory u with state := .zombie, exitCode }
      else if (Call.taskExit id exitCode).wakes list = some u then { list.memory u with state := .ready }
      else list.memory u := by
  let gone := list.store t fun task => { task with state := .zombie, exitCode }
  have parent : gone.taskFind (list.memory t).parentPid = list.taskFind (list.memory t).parentPid :=
    @first_store list (fun task => task.pid = (list.memory t).parentPid)
      (fun task => { task with state := .zombie, exitCode }) (fun _ => rfl) t
  have zombie : gone.memory t = { list.memory t with state := .zombie, exitCode } := by simp [gone]
  have others (other : Word) (different : other ≠ t) : gone.memory other = list.memory other := by simp [gone, different]
  have unfolded : list.taskExit id exitCode = gone.wakeParent t := by simp only [taskExit, found, gone]
  rw [unfolded]
  simp only [wakeParent, zombie, parent, Call.wakes, found, Option.bind_some]
  cases list.taskFind (list.memory t).parentPid with
  | none =>
    by_cases here : u = t
    · simp [here, zombie]
    · simp [here, others u here]
  | some waiter =>
    by_cases itself : waiter = t
    · subst itself
      have refused : ¬ ((gone.memory waiter).state = .blocked ∧
          ((gone.memory waiter).waitingFor = (list.memory waiter).pid ∨ (gone.memory waiter).waitingFor = -1)) := by
        simp [zombie]
      dsimp only
      rw [if_neg refused, Option.filter_some_neg (by simp)]
      by_cases here : u = waiter
      · simp [here, zombie]
      · simp [here, others u here]
    · dsimp only
      rw [others waiter itself]
      by_cases asleep : (list.memory waiter).state = .blocked ∧
          ((list.memory waiter).waitingFor = (list.memory t).pid ∨ (list.memory waiter).waitingFor = -1)
      · rw [if_pos asleep, store_memory, Option.filter_some_pos (by simpa [itself] using asleep)]
        by_cases here : u = t
        · subst here
          simp [Ne.symm itself, zombie]
        · by_cases woken : u = waiter
          · subst woken
            simp [here, others u here]
          · simp [woken, Ne.symm woken, here, others u here]
      · rw [if_neg asleep, Option.filter_some_neg (by simpa [itself] using asleep)]
        by_cases here : u = t
        · simp [here, zombie]
        · simp [here, others u here]

theorem schedUnblock_memory {id : Nat} (u : Word) :
    (list.schedUnblock id).memory u =
      if (Call.schedUnblock id).wakes list = some u then { list.memory u with state := .ready } else list.memory u := by
  unfold schedUnblock Call.wakes
  cases found : list.first fun task => task.id = id with
  | none => simp only [found, reduceCtorEq, ↓reduceIte]
  | some t =>
    by_cases here : u = t
    · simp [found, here]
    · simp [found, here, Ne.symm here]

theorem Call.fate (call : Call) (fresh : call.Fresh list) (member : t ∈ list.queue) :
    Fate list call t (list.memory t) ((call.run list).memory t) := by
  cases call with
  | taskCreate allocations priority kernelMode =>
    exact (list.taskCreate_creation allocations priority kernelMode).fate (fresh _ rfl) member
  | taskCreateUser allocations priority =>
    exact (list.taskCreate_creation allocations priority false).fate (fresh _ rfl) member
  | taskFork allocations => exact (list.taskFork_creation allocations).fate (fresh _ rfl) member
  | taskExit id exitCode =>
    change Fate list _ t _ ((list.taskExit id exitCode).memory t)
    cases found : list.first fun task => task.id = id with
    | none =>
      simp only [TaskList.taskExit, found]
      exact .turned (.refl _)
    | some z =>
      rw [taskExit_memory found]
      split
      · next here => exact .exits rfl (here ▸ found)
      · split
        · next woken => exact .wakes woken
        · exact .turned (.refl _)
  | taskDestroy id => exact .turned (.refl _)
  | cmdKill pid =>
    change Fate list _ t _ ((list.cmdKill pid).memory t)
    unfold TaskList.cmdKill
    split
    · exact .turned (.refl _)
    · exact .turned (.refl _)
  | taskWait pid =>
    change Fate list _ t _ ((list.taskWait pid).2.memory t)
    have waited := list.taskWait_cases pid
    generalize list.taskWait pid = result at waited
    cases waited with
    | idle => exact .turned (.refl _)
    | reaped => exact .turned (.refl _)
    | childless => exact .turned (.refl _)
    | @blocked current _ running =>
      have switched := (schedule_switched
        (list.store current fun task => { task with waitingFor := pid, state := .blocked })).memory t
      rw [store_memory] at switched
      split at switched
      · next here =>
        subst here
        exact .sleeps running (.waiting pid _) switched
      · exact .turned switched
  | schedBlock =>
    change Fate list _ t _ (list.schedBlock.memory t)
    unfold TaskList.schedBlock
    split
    · exact .turned (.refl _)
    · next current running =>
      have switched := (schedule_switched (list.markBlocked current)).memory t
      rw [markBlocked, store_memory] at switched
      split at switched
      · next here =>
        subst here
        exact .sleeps running (.blocked _) switched
      · exact .turned switched
  | schedUnblock id =>
    change Fate list _ t _ ((list.schedUnblock id).memory t)
    rw [schedUnblock_memory]
    split
    · next woken => exact .wakes woken
    · exact .turned (.refl _)
  | schedTick => exact .turned (list.schedTick_switched.memory t)
  | schedYield => exact .turned (list.schedule_switched.memory t)
  | schedule => exact .turned (list.schedule_switched.memory t)

theorem Call.creation {call : Call} {memory : Allocations} (allocates : call.allocations = some memory) :
    Creation list memory.task (call.run list) := by
  cases call with
  | taskCreate _ priority kernelMode =>
    cases allocates
    exact list.taskCreate_creation memory priority kernelMode
  | taskCreateUser _ priority =>
    cases allocates
    exact list.taskCreate_creation memory priority false
  | taskFork =>
    cases allocates
    exact list.taskFork_creation memory
  | _ => cases allocates

/-- Whoever is on the list after a call was there before or is new. -/
theorem Call.member {call : Call} (member : t ∈ (call.run list).queue) :
    t ∈ list.queue ∨ ∃ memory, call.allocations = some memory ∧ t = memory.task ∧
      Newborn list t ((call.run list).memory t) ∧ (call.run list).nextTid = (list.nextTid + 1) % 2 ^ 32 := by
  cases call.shape list with
  | kept _ queue => exact .inl (queue ▸ member)
  | removed _ queue =>
    rw [queue] at member
    exact .inl (List.mem_of_mem_erase member)
  | @linked memory allocates _ queue =>
    rw [queue] at member
    rcases List.mem_cons.mp member with rfl | old
    · have created : Creation list memory.task (call.run list) := creation allocates
      generalize call.run list = after at created queue ⊢
      cases created with
      | refused => exact absurd queue.symm (List.cons_ne_self _ _)
      | failed => exact absurd queue.symm (List.cons_ne_self _ _)
      | linked newborn =>
        refine .inr ⟨memory, allocates, rfl, ?_, rfl⟩
        simpa using newborn
    · exact .inl old

/-- The counter is passed at most once, and only by a call that creates. -/
theorem Call.counter (call : Call) : (call.run list).nextTid = list.nextTid ∨
    call.allocations.isSome ∧ (call.run list).nextTid = (list.nextTid + 1) % 2 ^ 32 := by
  cases allocates : call.allocations with
  | some memory =>
    have created : Creation list memory.task (call.run list) := creation allocates
    generalize call.run list = after at created
    cases created with
    | refused => exact .inl rfl
    | failed => exact .inr ⟨rfl, rfl⟩
    | linked => exact .inr ⟨rfl, rfl⟩
  | none =>
    left
    cases call with
    | taskCreate => cases allocates
    | taskCreateUser => cases allocates
    | taskFork => cases allocates
    | taskExit id exitCode =>
      change (list.taskExit id exitCode).nextTid = _
      unfold TaskList.taskExit wakeParent
      split
      · rfl
      · split
        · rfl
        · dsimp only
          split <;> rfl
    | taskDestroy id => rfl
    | cmdKill pid =>
      change (list.cmdKill pid).nextTid = _
      unfold TaskList.cmdKill
      split <;> rfl
    | taskWait pid =>
      change (list.taskWait pid).2.nextTid = _
      have waited := list.taskWait_cases pid
      generalize list.taskWait pid = result at waited
      cases waited with
      | blocked => exact (schedule_switched _).nextTid
      | _ => rfl
    | schedBlock =>
      change list.schedBlock.nextTid = _
      unfold TaskList.schedBlock
      split
      · rfl
      · exact (schedule_switched _).nextTid
    | schedUnblock id =>
      change (list.schedUnblock id).nextTid = _
      unfold TaskList.schedUnblock
      split <;> rfl
    | schedTick => exact list.schedTick_switched.nextTid
    | schedYield => exact list.schedule_switched.nextTid
    | schedule => exact list.schedule_switched.nextTid

section Fate

variable {call : Call} {old new : Task}

/-- A call leaves alone who a task is and whose child. -/
structure Kin (old new : Task) : Prop where
  id : new.id = old.id
  pid : new.pid = old.pid
  parentPid : new.parentPid = old.parentPid

theorem Turned.kin (turned : Turned old new) : Kin old new := by
  have same := turned.same
  exact ⟨by rw [same], by rw [same], by rw [same]⟩

theorem Fate.kin (fate : Fate list call t old new) : Kin old new := by
  cases fate with
  | turned turned => exact turned.kin
  | exits => exact ⟨rfl, rfl, rfl⟩
  | wakes => exact ⟨rfl, rfl, rfl⟩
  | sleeps _ sleeps turned =>
    have kin := turned.kin
    cases sleeps with
    | blocked => exact ⟨kin.id, kin.pid, kin.parentPid⟩
    | waiting => exact ⟨kin.id, kin.pid, kin.parentPid⟩

/-- Only `task_exit` makes zombies. -/
theorem Fate.zombie (fate : Fate list call t old new) (zombie : new.state = .zombie) :
    (old.state = .zombie ∧ new.exitCode = old.exitCode) ∨
      ∃ id, call = .taskExit id new.exitCode ∧ (list.first fun task => task.id = id) = some t := by
  cases fate with
  | turned turned =>
    refine .inl ⟨(turned.awake (by simp [zombie])).symm.trans zombie, ?_⟩
    rw [turned.same]
  | @exits _ id exits found => exact .inr ⟨id, exits, found⟩
  | wakes => cases zombie
  | sleeps _ sleeps turned =>
    exfalso
    have asleep := (turned.awake (by simp [zombie])).symm.trans zombie
    cases sleeps with
    | blocked => cases asleep
    | waiting => cases asleep

/-- A task is blocked because it was, or because the current task goes to
sleep. -/
theorem Fate.blocked (fate : Fate list call t old new) (blocked : new.state = .blocked) :
    (old.state = .blocked ∧ new.waitingFor = old.waitingFor) ∨
      list.currentTask = some t ∧ (call = .schedBlock ∨ call = .taskWait new.waitingFor) := by
  cases fate with
  | turned turned =>
    refine .inl ⟨(turned.awake (by simp [blocked])).symm.trans blocked, ?_⟩
    rw [turned.same]
  | exits => cases blocked
  | wakes => cases blocked
  | sleeps running sleeps turned =>
    refine .inr ⟨running, ?_⟩
    cases sleeps with
    | blocked => exact .inl rfl
    | waiting pid =>
      right
      rw [turned.same]

end Fate

end MexOS.Sched.TaskList
