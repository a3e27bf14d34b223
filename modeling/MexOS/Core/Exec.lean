import MexOS.Mm.PageMap
import MexOS.Mm.Statics
import MexOS.Sched.Invariant

/-! `do_exec` of `core/syscall.c` between the calls of the scheduler: which
directory is active while a task runs. -/

namespace MexOS.Core

open MexOS.Machine MexOS.Mm MexOS.Sched

/-- What `elf_load_file` does for one path: the entry point, or none when it
fails, and the memory it leaves. It allocates pages and copies segments, but
never switches the address space. -/
structure Loader where
  load : Paging → Word → Option Word × Paging
  active : ∀ mm pageDir, (load mm pageDir).2.cr3 = mm.cr3 ∧ (load mm pageDir).2.currentDirectory = mm.currentDirectory

/-- `executed` is not part of the program: the task whose `do_exec` was the last
to succeed. -/
structure System where
  sched : Scheduler
  mm : Paging
  executed : Option Nat := none

namespace System

def userStackVaddr : Word := 0xBFFFF000

/-- The entry point goes into a saved register that the model leaves out. -/
def doExec (system : System) (path : Word) (loader : Loader) : Int × System :=
  if path = 0 then (-1, system)
  else
    let newPd := system.mm.createAddressSpace
    if newPd.1 = 0 then (-1, { system with mm := newPd.2 })
    else
      let loaded := loader.load newPd.2 newPd.1
      if loaded.1 = none then (-1, { system with mm := loaded.2.destroyAddressSpace newPd.1 })
      else
        match system.sched.current with
        | none => (-1, { system with mm := loaded.2.destroyAddressSpace newPd.1 })
        | some current =>
          let stack := loaded.2.allocPage newPd.1 userStackVaddr (pagePresent ||| pageWrite ||| pageUser)
          if stack.1 ≠ 0 then (-1, { system with mm := stack.2.destroyAddressSpace newPd.1 })
          else
            (0,
              { sched := system.sched.update current.id fun task => { task with cr3 := newPd.1, kernelMode := false }
                mm := stack.2.switchAddressSpace newPd.1
                executed := some current.id })

/-- While a task that has executed a program is the current one, its directory
is the active one. -/
def Follows (system : System) : Prop :=
  ∀ task, system.sched.current = some task → task.cr3 ≠ 0 →
    system.mm.cr3 = task.cr3 ∧ system.mm.currentDirectory = task.cr3

/-- The calls that neither create nor remove a task. -/
def keepsTasks : Operation → Bool
  | .taskExit .. | .schedBlock | .schedUnblock _ | .schedTick | .schedYield | .schedule => true
  | _ => false

/-- Any task may call `do_exec` while it runs, and any call of the scheduler that
is `allowed` may come in between. -/
inductive Step (allowed : System → Operation → Prop) : System → System → Prop
  | exec (system : System) (path : Word) (loader : Loader) : Step allowed system (system.doExec path loader).2
  | call (system : System) (operation : Operation) : keepsTasks operation = true → allowed system operation →
    Step allowed system { system with sched := operation.run system.sched }

/-- No task has executed a program yet. -/
structure Fresh (system : System) : Prop where
  distinct : (system.sched.taskQueue.map Task.id).Nodup
  kernel : ∀ task ∈ system.sched.taskQueue, task.cr3 = 0
  none_executed : system.executed = none

/-- If the call gives the processor to a task, it is one that has not executed
a program or the last one that has. -/
def Loyal (system : System) (operation : Operation) : Prop :=
  ∀ before next, operation.schedules system.sched = some before → before.pickNextTask = some next →
    next.cr3 = 0 ∨ system.executed = some next.id

/-- The id of each task with its directory. -/
def directories (sched : Scheduler) : List (Nat × Word) := sched.taskQueue.map fun task => (task.id, task.cr3)

variable {system after : System} {sched : Scheduler} {operation : Operation}

theorem directories_update (sched : Scheduler) {change : Task → Task} (keeps : ∀ task, (change task).id = task.id)
    (same : ∀ task, (change task).cr3 = task.cr3) (id : Nat) : directories (sched.update id change) = directories sched := by
  unfold directories Scheduler.update
  dsimp only
  generalize sched.taskQueue = queue
  induction queue with
  | nil => rfl
  | cons head rest ih =>
    rw [updateTask]
    split
    · simp [keeps, same]
    · simp [ih]

theorem directories_schedule (sched : Scheduler) : directories sched.schedule = directories sched := by
  have promoted (before : Scheduler) (next : Nat) : directories (before.promote next) = directories before :=
    directories_update before (by intro; rfl) (by intro; rfl) next
  have demoted : directories sched.demote = directories sched := by
    unfold Scheduler.demote
    split
    · rfl
    · split
      · exact directories_update sched (by intro; rfl) (by intro; rfl) _
      · rfl
  unfold Scheduler.schedule
  split
  · rfl
  · rw [Scheduler.switchTo, promoted, demoted]

theorem directories_countTick (sched : Scheduler) : directories sched.countTick = directories sched := by
  unfold Scheduler.countTick
  dsimp only
  split
  · rfl
  · exact directories_update _ (by intro; rfl) (by intro; rfl) _

/-- The state in which the call runs `schedule` has the same directories. -/
theorem directories_schedules {before : Scheduler} (calls : operation.schedules sched = some before) :
    directories before = directories sched := by
  cases operation with
  | schedBlock =>
    obtain ⟨current, _, marked⟩ := Option.map_eq_some_iff.mp calls
    rw [← marked]
    exact directories_update sched (by intro; rfl) (by intro; rfl) current
  | schedTick =>
    simp only [Operation.schedules, Option.ite_none_right_eq_some, Option.some.injEq] at calls
    rw [← calls.2]
    exact directories_countTick sched
  | schedYield =>
    rw [← Option.some.inj calls]
  | schedule =>
    rw [← Option.some.inj calls]
  | _ => cases calls

theorem currentTask_countTick (sched : Scheduler) : sched.countTick.currentTask = sched.currentTask := by
  unfold Scheduler.countTick
  dsimp only
  split <;> rfl

/-- A call that runs `schedule` gives the processor to the task picked, if there
is one. -/
theorem scheduled_cases {before : Scheduler} (calls : operation.schedules sched = some before) :
    directories (operation.run sched) = directories sched ∧
      ((operation.run sched).currentTask = before.currentTask ∨
        ∃ next, before.pickNextTask = some next ∧ (operation.run sched).currentTask = some next.id) := by
  rw [Operation.run_of_schedules calls]
  refine ⟨(directories_schedule before).trans (directories_schedules calls), ?_⟩
  unfold Scheduler.schedule
  cases picked : before.pickNextTask with
  | none => exact .inl rfl
  | some next => exact .inr ⟨next, rfl, rfl⟩

/-- What a call of the scheduler can do to the current task. -/
theorem call_cases (keeps : keepsTasks operation = true) (sched : Scheduler) :
    directories (operation.run sched) = directories sched ∧
      ((operation.run sched).currentTask = sched.currentTask ∨
        ∃ before next, operation.schedules sched = some before ∧ before.pickNextTask = some next ∧
          (operation.run sched).currentTask = some next.id) := by
  cases calls : operation.schedules sched with
  | some before =>
    obtain ⟨same, kept | ⟨next, picked, current⟩⟩ := scheduled_cases calls
    · refine ⟨same, .inl (kept.trans ?_)⟩
      cases operation with
      | schedBlock =>
        obtain ⟨current, _, marked⟩ := Option.map_eq_some_iff.mp calls
        rw [← marked]
        rfl
      | schedTick =>
        simp only [Operation.schedules, Option.ite_none_right_eq_some, Option.some.injEq] at calls
        rw [← calls.2, currentTask_countTick]
      | schedYield => rw [← Option.some.inj calls]
      | schedule => rw [← Option.some.inj calls]
      | _ => cases calls
    · exact ⟨same, .inr ⟨before, next, rfl, picked, current⟩⟩
  | none =>
    cases operation with
    | taskExit id exitCode =>
      simp only [Operation.run, Scheduler.taskExit]
      split
      · exact ⟨rfl, .inl rfl⟩
      · have left : directories (sched.update id fun task => { task with state := .zombie, exitCode }) = directories sched :=
          directories_update sched (by intro; rfl) (by intro; rfl) id
        unfold Scheduler.wakeParent
        split
        · exact ⟨left, .inl rfl⟩
        · split
          · exact ⟨(directories_update _ (by intro; rfl) (by intro; rfl) _).trans left, .inl rfl⟩
          · exact ⟨left, .inl rfl⟩
    | schedUnblock id => exact ⟨directories_update sched (by intro; rfl) (by intro; rfl) id, .inl rfl⟩
    | schedBlock =>
      have idle : sched.currentTask = none := Option.map_eq_none_iff.mp calls
      simp only [Operation.run, Scheduler.schedBlock, idle]
      exact ⟨trivial, .inl trivial⟩
    | schedTick =>
      simp only [Operation.schedules, ite_eq_right_iff, reduceCtorEq, imp_false] at calls
      simp only [Operation.run, Scheduler.schedTick, calls, Bool.false_eq_true, ↓reduceIte]
      exact ⟨directories_countTick sched, .inl (currentTask_countTick sched)⟩
    | schedYield => cases calls
    | schedule => cases calls
    | _ => cases keeps

/-- The last program that was executed owns the active directory, and no task
before it is the current one. -/
structure Invariant (system : System) : Prop where
  distinct : (system.sched.taskQueue.map Task.id).Nodup
  active : ∀ task ∈ system.sched.taskQueue, system.executed = some task.id →
    system.mm.cr3 = task.cr3 ∧ system.mm.currentDirectory = task.cr3
  current : ∀ task, system.sched.current = some task → task.cr3 = 0 ∨ system.executed = some task.id

theorem Invariant.follows (holds : Invariant system) : Follows system := by
  intro task running nonzero
  obtain ⟨id, _, found⟩ := Option.bind_eq_some_iff.mp running
  rcases holds.current task running with zero | last
  · exact absurd zero nonzero
  · exact holds.active task (List.mem_of_find?_eq_some found) last

theorem Fresh.invariant (fresh : Fresh system) : Invariant system := by
  refine ⟨fresh.distinct, ?_, ?_⟩
  · intro task _ last
    rw [fresh.none_executed] at last
    cases last
  · intro task running
    obtain ⟨id, _, found⟩ := Option.bind_eq_some_iff.mp running
    exact .inl (fresh.kernel task (List.mem_of_find?_eq_some found))

/-- A task of a queue with the same directories has a namesake in the other. -/
theorem namesake {first second : Scheduler} (same : directories first = directories second) {task : Task}
    (member : task ∈ first.taskQueue) : ∃ other ∈ second.taskQueue, other.id = task.id ∧ other.cr3 = task.cr3 := by
  have card : (task.id, task.cr3) ∈ directories first := List.mem_map.mpr ⟨task, member, rfl⟩
  rw [same] at card
  obtain ⟨other, present, equal⟩ := List.mem_map.mp card
  exact ⟨other, present, congrArg Prod.fst equal, congrArg Prod.snd equal⟩

theorem ids_eq {first second : Scheduler} (same : directories first = directories second) :
    first.taskQueue.map Task.id = second.taskQueue.map Task.id := by
  have firsts := congrArg (List.map Prod.fst) same
  simpa [directories, Function.comp_def] using firsts

theorem current_spec {task : Task} (running : sched.current = some task) :
    task ∈ sched.taskQueue ∧ sched.currentTask = some task.id := by
  obtain ⟨id, current, found⟩ := Option.bind_eq_some_iff.mp running
  have same := List.find?_some found
  simp only [decide_eq_true_eq] at same
  exact ⟨List.mem_of_find?_eq_some found, by rw [current, same]⟩

theorem current_of_mem (distinct : (sched.taskQueue.map Task.id).Nodup) {task : Task} (member : task ∈ sched.taskQueue)
    (current : sched.currentTask = some task.id) : sched.current = some task := by
  unfold Scheduler.current
  rw [current]
  change (sched.taskQueue.find? fun other => other.id = task.id) = some task
  cases found : sched.taskQueue.find? fun other => decide (other.id = task.id) with
  | none =>
    have absent := List.find?_eq_none.mp found task member
    simp at absent
  | some other =>
    have same := List.find?_some found
    simp only [decide_eq_true_eq] at same
    rw [List.inj_on_of_nodup_map distinct (List.mem_of_find?_eq_some found) member same]

theorem Invariant.call (holds : Invariant system) (keeps : keepsTasks operation = true) (loyal : Loyal system operation) :
    Invariant { system with sched := operation.run system.sched } := by
  obtain ⟨same, switched⟩ := call_cases keeps system.sched
  have distinct : ((operation.run system.sched).taskQueue.map Task.id).Nodup := by
    rw [ids_eq same]
    exact holds.distinct
  refine ⟨distinct, ?_, ?_⟩
  · intro task member last
    obtain ⟨old, present, id, cr3⟩ := namesake same member
    rw [← cr3]
    exact holds.active old present (by rw [id]; exact last)
  · intro task running
    obtain ⟨member, current⟩ := current_spec running
    obtain ⟨old, present, id, cr3⟩ := namesake same member
    rcases switched with kept | ⟨before, next, calls, picked, switched⟩
    · rw [kept, ← id] at current
      have before := holds.current old (current_of_mem holds.distinct present current)
      rwa [cr3, id] at before
    · rw [switched, ← id] at current
      -- the task that runs now is the one that was picked
      obtain ⟨best, inQueue, bestId, bestCr3⟩ : ∃ best ∈ system.sched.taskQueue, best.id = next.id ∧ best.cr3 = next.cr3 := by
        rcases Scheduler.pickNextTask_cases before with ⟨none_ready, _⟩ | ⟨first, found, best⟩
        · rw [none_ready] at picked
          cases picked
        · rw [picked] at found
          rw [← Option.some.inj found] at best
          exact namesake (directories_schedules calls) best.mem
      have equal : best = old :=
        List.inj_on_of_nodup_map holds.distinct inQueue present (bestId.trans (Option.some.inj current))
      have allowed := loyal before next calls picked
      rw [← bestCr3, ← bestId, equal] at allowed
      rwa [cr3, id] at allowed

/-- What a call of `do_exec` can do to the tasks and to the active directory. -/
theorem doExec_cases (system : System) (path : Word) (loader : Loader) :
    ((system.doExec path loader).2.sched = system.sched ∧ (system.doExec path loader).2.executed = system.executed ∧
      (system.doExec path loader).2.mm.cr3 = system.mm.cr3 ∧
      (system.doExec path loader).2.mm.currentDirectory = system.mm.currentDirectory) ∨
    ∃ current pageDir, system.sched.current = some current ∧
      (system.doExec path loader).2.sched =
        system.sched.update current.id (fun task => { task with cr3 := pageDir, kernelMode := false }) ∧
      (system.doExec path loader).2.executed = some current.id ∧
      (system.doExec path loader).2.mm.cr3 = pageDir ∧
      (system.doExec path loader).2.mm.currentDirectory = pageDir := by
  have created := system.mm.sameStatics_createAddressSpace
  have loaded := loader.active system.mm.createAddressSpace.2 system.mm.createAddressSpace.1
  unfold doExec
  by_cases null : path = 0
  · rw [if_pos null]
    exact .inl ⟨rfl, rfl, rfl, rfl⟩
  rw [if_neg null]
  dsimp only
  by_cases failed : system.mm.createAddressSpace.1 = 0
  · rw [if_pos failed]
    exact .inl ⟨rfl, rfl, created.cr3, created.currentDirectory⟩
  rw [if_neg failed]
  generalize system.mm.createAddressSpace.1 = pageDir at *
  generalize loader.load system.mm.createAddressSpace.2 pageDir = result at *
  have destroyed := result.2.sameStatics_destroyAddressSpace pageDir
  have given : (result.2.destroyAddressSpace pageDir).cr3 = system.mm.cr3 ∧
      (result.2.destroyAddressSpace pageDir).currentDirectory = system.mm.currentDirectory :=
    ⟨(destroyed.cr3.trans loaded.1).trans created.cr3,
      (destroyed.currentDirectory.trans loaded.2).trans created.currentDirectory⟩
  by_cases unloaded : result.1 = none
  · rw [if_pos unloaded]
    exact .inl ⟨rfl, rfl, given⟩
  rw [if_neg unloaded]
  cases running : system.sched.current with
  | none => exact .inl ⟨rfl, rfl, given⟩
  | some current =>
    have stacked := result.2.sameStatics_allocPage pageDir userStackVaddr (pagePresent ||| pageWrite ||| pageUser)
    dsimp only
    split
    · have both := stacked.trans (Paging.sameStatics_destroyAddressSpace _ pageDir)
      exact .inl ⟨rfl, rfl, (both.cr3.trans loaded.1).trans created.cr3,
        (both.currentDirectory.trans loaded.2).trans created.currentDirectory⟩
    · refine .inr ⟨current, pageDir, rfl, rfl, rfl, ?_, ?_⟩
      · rw [Paging.switchAddressSpace, if_neg failed]
      · rw [Paging.switchAddressSpace, if_neg failed]

theorem Invariant.exec (holds : Invariant system) (path : Word) (loader : Loader) :
    Invariant (system.doExec path loader).2 := by
  rcases doExec_cases system path loader with ⟨sched, executed, cr3, directory⟩ |
    ⟨current, pageDir, running, sched, executed, cr3, directory⟩
  · refine ⟨by rw [sched]; exact holds.distinct, ?_, ?_⟩
    · rw [sched, executed, cr3, directory]
      exact holds.active
    · rw [sched, executed]
      exact holds.current
  · obtain ⟨_, currentId⟩ := current_spec running
    have distinct : ((system.doExec path loader).2.sched.taskQueue.map Task.id).Nodup := by
      rw [sched, Scheduler.update, updateTask_ids (by intro; rfl)]
      exact holds.distinct
    refine ⟨distinct, ?_, ?_⟩
    · intro task member last
      rw [executed] at last
      rw [sched, Scheduler.update, Scheduler.updateTask_eq_map holds.distinct] at member
      obtain ⟨old, _, same⟩ := List.mem_map.mp member
      rw [cr3, directory, ← same]
      rw [← same] at last
      by_cases here : old.id = current.id
      · rw [if_pos here]
        exact ⟨rfl, rfl⟩
      · rw [if_neg here] at last
        exact absurd (Option.some.inj last).symm here
    · intro task now
      obtain ⟨_, id⟩ := current_spec now
      right
      rw [executed, ← id, sched]
      exact currentId.symm

/-- In every interleaving in which the processor goes only to tasks that have
not executed a program and to the one that did so last, the active directory is
the one of the current task. -/
theorem address_space_follows_task {start : System} (fresh : Fresh start) (run : Reachable (Step Loyal) start system) :
    Follows system := by
  have holds : Invariant system := by
    induction run with
    | refl => exact fresh.invariant
    | tail _ last ih =>
      cases last with
      | exec path loader => exact ih.exec path loader
      | call operation keeps loyal => exact ih.call keeps loyal
  exact holds.follows

/-- Two tasks of the same priority on a machine with 31 free frames. -/
def twoTasks : System where
  sched :=
    { taskQueue := [{ id := 2, state := .ready, priority := 1, timeSlice := 10 },
        { id := 1, state := .running, priority := 1, timeSlice := 10 }]
      currentTask := some 1
      nextTid := 3 }
  mm := Paging.smallMachine

/-- A program without segments, which is loaded by doing nothing. -/
def emptyProgram : Loader := ⟨fun mm _ => (some 0x8048000, mm), fun _ _ => ⟨rfl, rfl⟩⟩

theorem twoTasks_fresh : Fresh twoTasks := by
  refine ⟨by decide, ?_, rfl⟩
  intro task member
  simp only [twoTasks, List.mem_cons, List.not_mem_nil, or_false] at member
  rcases member with rfl | rfl <;> rfl

/-- The current task executes the program and gives up the processor. -/
def execAndYield (system : System) : System :=
  let executed := (system.doExec 0x8000 emptyProgram).2
  { executed with sched := executed.sched.schedYield }

theorem loyal_yield {next : Task} (picked : system.sched.pickNextTask = some next)
    (allowed : next.cr3 = 0 ∨ system.executed = some next.id) : Loyal system .schedYield := by
  intro before other calls found
  rw [← Option.some.inj calls, picked] at found
  rwa [← Option.some.inj found]

/-- The first task executes a program, the other one gets the processor for a
while, and the first one runs on in its own address space. -/
theorem address_space_follows_first_task :
    ∃ system task, Reachable (Step Loyal) twoTasks system ∧ system.sched.current = some task ∧ task.cr3 = 0x1000 ∧
      system.mm.cr3 = 0x1000 ∧ system.mm.currentDirectory = 0x1000 := by
  let executed := (twoTasks.doExec 0x8000 emptyProgram).2
  let other : System := { executed with sched := executed.sched.schedYield }
  let back : System := { other with sched := other.sched.schedYield }
  have away : Loyal executed .schedYield := by
    refine @loyal_yield executed { id := 2, state := .ready, priority := 1, timeSlice := 10 } ?_ (.inl rfl)
    decide +kernel
  have home : Loyal other .schedYield := by
    refine @loyal_yield other { id := 1, state := .ready, priority := 1, timeSlice := 10, cr3 := 0x1000 } ?_ (.inr ?_)
    · decide +kernel
    · decide +kernel
  have run : Reachable (Step Loyal) twoTasks back :=
    ((Relation.ReflTransGen.single (.exec twoTasks 0x8000 emptyProgram)).tail (.call executed .schedYield rfl away)).tail
      (.call other .schedYield rfl home)
  have running : back.sched.current =
      some { id := 1, state := .running, priority := 1, timeSlice := 10, cr3 := 0x1000 } := by decide +kernel
  have active := address_space_follows_task twoTasks_fresh run _ running (by decide)
  exact ⟨back, _, run, running, rfl, active⟩

/-- Both tasks execute a program, one after the other. When the first one gets
the processor back, the directory of the second one is still active. -/
theorem address_space_stays_behind :
    ¬ ∀ start system, Fresh start → Reachable (Step fun _ _ => True) start system → Follows system := by
  intro always
  let other := execAndYield twoTasks
  let back := execAndYield other
  have turn (system : System) : Reachable (Step fun _ _ => True) system (execAndYield system) :=
    (Relation.ReflTransGen.single (.exec system 0x8000 emptyProgram)).tail (.call _ .schedYield rfl trivial)
  have running : back.sched.current =
      some { id := 1, state := .running, priority := 1, timeSlice := 10, cr3 := 0x1000 } := by decide +kernel
  have follows := always twoTasks back twoTasks_fresh ((turn twoTasks).trans (turn other)) _ running (by decide)
  have active : back.mm.cr3 = 0x4000 := by decide +kernel
  rw [active] at follows
  exact absurd follows.1 (by decide)

end System

end MexOS.Core
