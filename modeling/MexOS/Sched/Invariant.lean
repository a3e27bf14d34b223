import MexOS.Sched.Tasks

/-! What holds of the run queue after every sequence of scheduler calls that
leaves the current task in the queue. -/

namespace MexOS.Sched

open MexOS.Machine

namespace Scheduler

/-- New tasks are put in front with a larger id, and only the current task is
running. -/
structure Sound (sched : Scheduler) : Prop where
  descending : sched.taskQueue.Pairwise fun earlier later => later.id < earlier.id
  below : ∀ task ∈ sched.taskQueue, task.id < sched.nextTid
  running : ∀ task ∈ sched.taskQueue, task.state = .running → sched.currentTask = some task.id

/-- Both updates that a switch to `next` makes. -/
def afterSwitch (sched : Scheduler) (next : Nat) (task : Task) : Task :=
  if task.id = next then { task with state := .running, timeSlice := 10 }
  else if sched.currentTask = some task.id ∧ task.state = .running then { task with state := .ready }
  else task

/-- `schedule` gives the processor to `next` and changes nothing else. -/
structure Scheduled (before after : Scheduler) (next : Task) : Prop where
  best : FirstBest before.taskQueue next
  latest : ∀ task ∈ before.taskQueue, task.state = .ready → task.priority = next.priority → task.id ≤ next.id
  current : after.currentTask = some next.id
  queue : after.taskQueue = before.taskQueue.map (before.afterSwitch next.id)

variable {sched before after : Scheduler}

theorem Sound.nodup (sound : Sound sched) : (sched.taskQueue.map Task.id).Nodup := by
  rw [List.Nodup, List.pairwise_map]
  exact sound.descending.imp fun smaller same => by omega

theorem updateTask_eq_map {queue : List Task} (distinct : (queue.map Task.id).Nodup) (id : Nat) (change : Task → Task) :
    updateTask id change queue = queue.map fun task => if task.id = id then change task else task := by
  induction queue with
  | nil => rfl
  | cons head rest ih =>
    rw [List.map_cons, List.nodup_cons] at distinct
    rw [updateTask, List.map_cons]
    by_cases here : head.id = id
    · have others : rest.map (fun task => if task.id = id then change task else task) = rest.map fun task => task := by
        apply List.map_congr_left
        intro task member
        rw [if_neg]
        intro same
        exact distinct.1 (List.mem_map.mpr ⟨task, member, same.trans here.symm⟩)
      rw [if_pos here, if_pos here, others, List.map_id'']
      intro task
      rfl
    · rw [if_neg here, if_neg here, ih distinct.2]

theorem mem_updateTask {id : Nat} {change : Task → Task} {queue : List Task} {task : Task}
    (member : task ∈ updateTask id change queue) : task ∈ queue ∨ ∃ old ∈ queue, old.id = id ∧ task = change old := by
  induction queue with
  | nil => cases member
  | cons head rest ih =>
    rw [updateTask] at member
    split at member
    · next here =>
      rcases List.mem_cons.mp member with same | later
      · exact .inr ⟨head, List.mem_cons_self, here, same⟩
      · exact .inl (List.mem_cons_of_mem _ later)
    · rcases List.mem_cons.mp member with same | later
      · exact .inl (same ▸ List.mem_cons_self)
      · rcases ih later with old | ⟨old, present, named, same⟩
        · exact .inl (List.mem_cons_of_mem _ old)
        · exact .inr ⟨old, List.mem_cons_of_mem _ present, named, same⟩

/-- Queues with the same ids in the same order stand in descending order
together. -/
theorem descending_congr {queue other : List Task} (ids : other.map Task.id = queue.map Task.id)
    (descending : queue.Pairwise fun earlier later => later.id < earlier.id) :
    other.Pairwise fun earlier later => later.id < earlier.id := by
  have mapped : (queue.map Task.id).Pairwise fun earlier later => later < earlier :=
    List.pairwise_map.mpr descending
  rw [← ids] at mapped
  exact List.pairwise_map.mp mapped

/-- An update that starts no task. -/
theorem Sound.update (sound : Sound sched) {change : Task → Task} (keeps : ∀ task, (change task).id = task.id)
    (starts : ∀ task, (change task).state = .running → task.state = .running) (id : Nat) :
    Sound (sched.update id change) := by
  refine ⟨descending_congr (updateTask_ids keeps id _) sound.descending, ?_, ?_⟩
  · intro task member
    rcases mem_updateTask member with old | ⟨old, present, _, same⟩
    · exact sound.below task old
    · rw [same, keeps]
      exact sound.below old present
  · intro task member running
    rcases mem_updateTask member with old | ⟨old, present, _, same⟩
    · exact sound.running task old running
    · subst same
      rw [keeps]
      exact sound.running old present (starts old running)

theorem Sound.init : Sound init :=
  ⟨List.Pairwise.nil, by simp [Scheduler.init], by simp [Scheduler.init]⟩

theorem Sound.takeTid (sound : Sound sched) (few : sched.nextTid + 1 < 2 ^ 32) : Sound sched.takeTid := by
  refine ⟨sound.descending, ?_, sound.running⟩
  intro task member
  have below := sound.below task member
  rw [Scheduler.takeTid, Nat.mod_eq_of_lt few]
  exact Nat.lt_succ_of_lt below

/-- A new task gets the id that the counter has just passed. -/
theorem Sound.enqueue (sound : Sound sched) (few : sched.nextTid + 1 < 2 ^ 32) {task : Task}
    (id : task.id = sched.nextTid) (ready : task.state = .ready) : Sound (sched.takeTid.enqueue task) := by
  have next : sched.takeTid.nextTid = sched.nextTid + 1 := Nat.mod_eq_of_lt few
  refine ⟨?_, ?_, ?_⟩
  · refine List.pairwise_cons.mpr ⟨?_, sound.descending⟩
    intro other member
    rw [id]
    exact sound.below other member
  · intro other member
    change other.id < sched.takeTid.nextTid
    rcases List.mem_cons.mp member with same | old
    · rw [same, id, next]
      exact Nat.lt_succ_self _
    · rw [next]
      exact Nat.lt_succ_of_lt (sound.below other old)
  · intro other member running
    rcases List.mem_cons.mp member with same | old
    · rw [same, ready] at running
      cases running
    · exact sound.running other old running

theorem Sound.taskDestroy (sound : Sound sched) (id : Nat) : Sound (sched.taskDestroy id) := by
  have sub : (sched.taskDestroy id).taskQueue.Sublist sched.taskQueue := List.eraseP_sublist
  exact ⟨sound.descending.sublist sub, fun task member => sound.below task (sub.mem member),
    fun task member => sound.running task (sub.mem member)⟩

theorem Sound.wakeParent (sound : Sound sched) (task : Task) : Sound (sched.wakeParent task) := by
  unfold Scheduler.wakeParent
  split
  · exact sound
  · split
    · exact sound.update (by intro; rfl) (by intro _ impossible; cases impossible) _
    · exact sound

theorem Sound.taskExit (sound : Sound sched) (id : Nat) (exitCode : Int) : Sound (sched.taskExit id exitCode) := by
  unfold Scheduler.taskExit
  split
  · exact sound
  · exact (sound.update (by intro; rfl) (by intro _ impossible; cases impossible) id).wakeParent _

theorem Sound.markBlocked (sound : Sound sched) (current : Nat) : Sound (sched.markBlocked current) :=
  sound.update (by intro; rfl) (by intro _ impossible; cases impossible) current

theorem Sound.schedUnblock (sound : Sound sched) (id : Nat) : Sound (sched.schedUnblock id) :=
  sound.update (by intro; rfl) (by intro _ impossible; cases impossible) id

theorem Sound.countTick (sound : Sound sched) : Sound sched.countTick := by
  have counted : Sound { sched with tickCount := (sched.tickCount + 1) % 2 ^ 32 } :=
    ⟨sound.descending, sound.below, sound.running⟩
  unfold Scheduler.countTick
  dsimp only
  split
  · exact counted
  · refine counted.update ?_ ?_ _
    · intro task
      rfl
    · intro task running
      exact running

theorem demote_queue (distinct : (sched.taskQueue.map Task.id).Nodup) :
    sched.demote.taskQueue = sched.taskQueue.map fun task =>
      if sched.currentTask = some task.id ∧ task.state = .running then { task with state := .ready } else task := by
  unfold demote
  cases current : sched.currentTask with
  | none => simp
  | some id =>
    by_cases runs : sched.stateOf id = some .running
    · simp only [runs, ↓reduceIte, Scheduler.update, updateTask_eq_map distinct]
      apply List.map_congr_left
      intro task member
      by_cases here : task.id = id
      · have state := stateOf_of_mem distinct member
        rw [here, runs] at state
        simp [here, ← Option.some.inj state]
      · rw [if_neg here, if_neg]
        rintro ⟨same, _⟩
        exact here (Option.some.inj same).symm
    · simp only [runs, ↓reduceIte]
      refine (List.map_id _).symm.trans (List.map_congr_left ?_)
      intro task member
      rw [if_neg]
      · rfl
      · rintro ⟨same, state⟩
        apply runs
        rw [Option.some.inj same, stateOf_of_mem distinct member, state]

/-- With distinct ids both updates of a switch are one pass over the queue. -/
theorem switchTo_queue (distinct : (sched.taskQueue.map Task.id).Nodup) (next : Nat) :
    (sched.switchTo next).taskQueue = sched.taskQueue.map (sched.afterSwitch next) := by
  have ids : (sched.demote.taskQueue.map Task.id).Nodup := by rwa [demote_ids]
  rw [switchTo, promote, Scheduler.update, updateTask_eq_map ids, demote_queue distinct, List.map_map]
  apply List.map_congr_left
  intro task _
  simp only [Function.comp_apply, afterSwitch]
  by_cases demoted : sched.currentTask = some task.id ∧ task.state = .running
  · simp only [demoted, and_self, ↓reduceIte]
  · simp only [demoted, ↓reduceIte]

theorem Sound.scheduled (sound : Sound sched) {next : Task} (best : FirstBest sched.taskQueue next) :
    Scheduled sched (sched.switchTo next.id) next := by
  refine ⟨best, ?_, rfl, switchTo_queue sound.nodup next.id⟩
  intro task member ready same
  obtain ⟨front, back, shape, before, _⟩ := best.split
  have descending := sound.descending
  rw [shape] at member descending
  rcases List.mem_append.mp member with early | late
  · have smaller := before task early ready
    omega
  · rcases List.mem_cons.mp late with itself | behind
    · exact Nat.le_of_eq (congrArg Task.id itself)
    · have order := (List.pairwise_cons.mp (List.pairwise_append.mp descending).2.1).1 task behind
      exact Nat.le_of_lt order

theorem afterSwitch_id (sched : Scheduler) (next : Nat) (task : Task) : (sched.afterSwitch next task).id = task.id := by
  unfold afterSwitch
  split
  · rfl
  · split <;> rfl

theorem nextTid_switchTo (sched : Scheduler) (next : Nat) : (sched.switchTo next).nextTid = sched.nextTid := by
  change sched.demote.nextTid = sched.nextTid
  unfold demote
  split
  · rfl
  · split <;> rfl

theorem nextTid_schedule (sched : Scheduler) : sched.schedule.nextTid = sched.nextTid := by
  unfold Scheduler.schedule
  split
  · rfl
  · exact nextTid_switchTo sched _

theorem nextTid_countTick (sched : Scheduler) : sched.countTick.nextTid = sched.nextTid := by
  unfold Scheduler.countTick
  dsimp only
  split <;> rfl

theorem nextTid_taskExit (sched : Scheduler) (id : Nat) (exitCode : Int) :
    (sched.taskExit id exitCode).nextTid = sched.nextTid := by
  unfold Scheduler.taskExit wakeParent
  split
  · rfl
  · split
    · rfl
    · split <;> rfl

theorem Sound.schedule (sound : Sound sched) : Sound sched.schedule := by
  unfold Scheduler.schedule
  rcases pickNextTask_cases sched with ⟨nothing, _⟩ | ⟨next, picked, best⟩
  · rw [nothing]
    exact sound
  · rw [picked]
    have scheduled := sound.scheduled best
    refine ⟨?_, ?_, ?_⟩
    · refine descending_congr ?_ sound.descending
      rw [scheduled.queue, List.map_map]
      apply List.map_congr_left
      intro task _
      exact afterSwitch_id sched next.id task
    · intro task member
      rw [scheduled.queue] at member
      obtain ⟨old, present, same⟩ := List.mem_map.mp member
      rw [← same, afterSwitch_id, nextTid_switchTo]
      exact sound.below old present
    · intro task member running
      rw [scheduled.queue] at member
      obtain ⟨old, present, same⟩ := List.mem_map.mp member
      subst same
      rw [afterSwitch_id, scheduled.current]
      -- a task that is not picked keeps running only if it was the current one, which is demoted
      by_cases picked : old.id = next.id
      · rw [picked]
      · exfalso
        unfold afterSwitch at running
        rw [if_neg picked] at running
        split at running
        · cases running
        · next kept => exact kept ⟨sound.running old present running, running⟩

end Scheduler

open Scheduler

/-- A call of the scheduler's interface that does not destroy the current
task. -/
def Step (before : Scheduler) (operation : Operation) (after : Scheduler) : Prop :=
  (∀ id, operation = .taskDestroy id → before.currentTask ≠ some id) ∧ operation.run before = after

/-- The counter is passed once by each attempt to create a task, at most. -/
structure Counted (created : Nat) (sched : Scheduler) : Prop extends Sound sched where
  counter : sched.nextTid ≤ created + 1

variable {sched before after : Scheduler}

theorem Counted.mono (counted : Counted first sched) (more : first ≤ second) : Counted second sched :=
  ⟨counted.toSound, Nat.le_trans counted.counter (Nat.succ_le_succ more)⟩

theorem Counted.takeTid (counted : Counted created sched) (few : created + 1 < 2 ^ 31) :
    Counted (created + 1) sched.takeTid := by
  have small := counted.counter
  refine ⟨counted.toSound.takeTid (by omega), ?_⟩
  change (sched.nextTid + 1) % 2 ^ 32 ≤ created + 1 + 1
  omega

theorem Counted.enqueue (counted : Counted created sched) (few : created + 1 < 2 ^ 31) {task : Task}
    (id : task.id = sched.nextTid) (ready : task.state = .ready) :
    Counted (created + 1) (sched.takeTid.enqueue task) := by
  have small := counted.counter
  exact ⟨counted.toSound.enqueue (by omega) id ready, (counted.takeTid few).counter⟩

theorem Counted.taskCreate (counted : Counted created sched) (few : created + 1 < 2 ^ 31) (allocations : Allocations)
    (priority : Nat) (kernelMode : Bool) : Counted (created + 1) (sched.taskCreate allocations priority kernelMode).2 := by
  unfold Scheduler.taskCreate
  split
  · exact counted.mono (Nat.le_succ _)
  · dsimp only
    split
    · exact counted.takeTid few
    · split
      · exact counted.enqueue few rfl rfl
      · split
        · exact counted.takeTid few
        · exact counted.enqueue few rfl rfl

theorem Counted.taskFork (counted : Counted created sched) (few : created + 1 < 2 ^ 31) (allocations : Allocations) :
    Counted (created + 1) (sched.taskFork allocations).2 := by
  unfold Scheduler.taskFork
  split
  · exact counted.mono (Nat.le_succ _)
  · split
    · exact counted.mono (Nat.le_succ _)
    · dsimp only
      split
      · exact counted.takeTid few
      · split
        · split
          · exact counted.takeTid few
          · exact counted.enqueue few rfl rfl
        · exact counted.enqueue few rfl rfl

theorem Counted.of_sound (counted : Counted created sched) (sound : Sound after)
    (same : after.nextTid = sched.nextTid) : Counted created after :=
  ⟨sound, same ▸ counted.counter⟩

theorem Counted.schedule (counted : Counted created sched) : Counted created sched.schedule :=
  counted.of_sound counted.toSound.schedule (nextTid_schedule sched)

theorem Counted.markBlocked (counted : Counted created sched) (current : Nat) :
    Counted created (sched.markBlocked current) :=
  counted.of_sound (counted.toSound.markBlocked current) rfl

theorem Counted.countTick (counted : Counted created sched) : Counted created sched.countTick :=
  counted.of_sound counted.toSound.countTick (nextTid_countTick sched)

/-- What one call makes of the invariant. -/
theorem Counted.run (counted : Counted created sched) (operation : Operation)
    (few : operation.creates = true → created + 1 < 2 ^ 31) :
    Counted (created + if operation.creates then 1 else 0) (operation.run sched) := by
  cases operation with
  | taskCreate allocations priority kernelMode => exact counted.taskCreate (few rfl) allocations priority kernelMode
  | taskCreateUser allocations priority => exact counted.taskCreate (few rfl) allocations priority false
  | taskFork allocations => exact counted.taskFork (few rfl) allocations
  | taskExit id exitCode =>
    exact counted.of_sound (counted.toSound.taskExit id exitCode) (nextTid_taskExit sched id exitCode)
  | taskDestroy id => exact counted.of_sound (counted.toSound.taskDestroy id) rfl
  | schedBlock =>
    change Counted created sched.schedBlock
    unfold Scheduler.schedBlock
    split
    · exact counted
    · exact (counted.markBlocked _).schedule
  | schedUnblock id => exact counted.of_sound (counted.toSound.schedUnblock id) rfl
  | schedTick =>
    change Counted created sched.schedTick
    unfold Scheduler.schedTick
    dsimp only
    split
    · exact counted.countTick.schedule
    · exact counted.countTick
  | schedYield => exact counted.schedule
  | schedule => exact counted.schedule

theorem Counted.of_trace (trace : Trace Step init operations sched) (few : operations.countP Operation.creates < 2 ^ 31) :
    Counted (operations.countP Operation.creates) sched := by
  have invariant := trace.invariant
    (fun operations sched => operations.countP Operation.creates < 2 ^ 31 →
      Counted (operations.countP Operation.creates) sched)
    (fun _ => ⟨Sound.init, Nat.le_refl _⟩) ?_
  · exact invariant few
  · rintro operations before operation after holds ⟨_, rfl⟩ few
    rw [List.countP_append, List.countP_singleton] at few ⊢
    refine (holds (by omega)).run operation ?_
    intro creates
    rw [if_pos creates] at few
    exact few

theorem Scheduler.Sound.of_schedules (sound : Sound sched) {operation : Operation}
    (calls : operation.schedules sched = some before) : Sound before := by
  cases operation with
  | schedBlock =>
    obtain ⟨current, _, marked⟩ := Option.map_eq_some_iff.mp calls
    rw [← marked]
    exact sound.markBlocked current
  | schedTick =>
    simp only [Operation.schedules, Option.ite_none_right_eq_some, Option.some.injEq] at calls
    rw [← calls.2]
    exact sound.countTick
  | schedYield =>
    rw [← Option.some.inj calls]
    exact sound
  | schedule =>
    rw [← Option.some.inj calls]
    exact sound
  | _ => cases calls

/-- All tasks that run have the id of the current one, and ids are distinct. -/
theorem Scheduler.Sound.one_running (sound : Sound sched) :
    (sched.taskQueue.filter fun task => task.state = .running).length ≤ 1 := by
  have ids : ((sched.taskQueue.filter fun task => task.state = .running).map Task.id).Nodup :=
    sound.nodup.sublist (List.filter_sublist.map _)
  cases shape : sched.taskQueue.filter fun task => task.state = .running with
  | nil => exact Nat.zero_le _
  | cons first rest =>
    cases rest with
    | nil => exact Nat.le_refl _
    | cons second rest =>
      have runs (task : Task) (member : task ∈ first :: second :: rest) : sched.currentTask = some task.id := by
        rw [← shape, List.mem_filter] at member
        exact sound.running task member.1 (by simpa using member.2)
      have same : first.id = second.id :=
        Option.some.inj ((runs first (by simp)).symm.trans (runs second (by simp)))
      rw [shape, List.map_cons, List.map_cons, same] at ids
      exact absurd (List.mem_cons_self) (List.nodup_cons.mp ids).1

/-- After every sequence of calls at most one task runs, which is the current
one, all ids are distinct, and whenever a call runs `schedule` while some task
is ready, the best of the ready tasks that stands first in the queue, which is
the one created last, gets the processor and nothing else changes. -/
theorem scheduler_keeps_invariant {operations : List Operation} (run : Trace Step init operations sched)
    (few : operations.countP Operation.creates < 2 ^ 31) :
    (sched.taskQueue.filter fun task => task.state = .running).length ≤ 1 ∧
      (∀ task ∈ sched.taskQueue, task.state = .running → sched.currentTask = some task.id) ∧
      (sched.taskQueue.map Task.id).Nodup ∧
      ∀ (operation : Operation) (before : Scheduler), operation.schedules sched = some before → (∃ task ∈ before.taskQueue, task.state = .ready) →
        ∃ next, Scheduled before (operation.run sched) next := by
  have sound := (Counted.of_trace run few).toSound
  refine ⟨sound.one_running, sound.running, sound.nodup, ?_⟩
  rintro operation before calls ⟨task, member, ready⟩
  rw [Operation.run_of_schedules calls, Scheduler.schedule]
  rcases pickNextTask_cases before with ⟨_, none⟩ | ⟨next, picked, best⟩
  · exact absurd ready (none task member)
  · rw [picked]
    exact ⟨next, (sound.of_schedules calls).scheduled best⟩

/-- Two tasks are created and the second, of higher priority, is scheduled; the
next yield finds the first one ready. -/
theorem scheduler_keeps_invariant_two_tasks :
    ∃ (operations : List Operation) (sched : Scheduler), Trace Step init operations sched ∧
      operations.countP Operation.creates = 2 ∧ sched.currentTask = some 2 ∧
      (sched.taskQueue.filter fun task => task.state = .running).length ≤ 1 ∧
      (∃ task ∈ sched.taskQueue, task.state = .ready) ∧ ∃ next, Scheduled sched sched.schedule next := by
  let memory : Allocations := ⟨16, 32, 48⟩
  let first := (init.taskCreate memory 1 true).2
  let second := (first.taskCreate memory 2 true).2
  have run : Trace Step init ([] ++ [.taskCreate memory 1 true] ++ [.taskCreate memory 2 true] ++ [.schedule])
      second.schedule :=
    ((Trace.nil.snoc ⟨nofun, rfl⟩).snoc ⟨nofun, rfl⟩).snoc ⟨nofun, rfl⟩
  have ready : ∃ task ∈ second.schedule.taskQueue, task.state = .ready := by decide
  have invariant := scheduler_keeps_invariant run (by decide)
  exact ⟨_, _, run, by decide, by decide, invariant.1, ready, invariant.2.2.2 .schedYield _ rfl ready⟩

end MexOS.Sched
