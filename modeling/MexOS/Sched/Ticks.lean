import MexOS.Sched.Fate

/-! The tick counters of `sched/sched.c`: what each call of the scheduler's
interface does to them, and what they say after a run. -/

namespace MexOS.Sched.TaskList

open MexOS.Machine

/-- A step of a run in which the timer ticks. -/
def ticks : Option Call → Bool
  | some .schedTick => true
  | _ => false

/-- The number of ticks in a run. -/
def tickTotal (events : List (Option Call)) : Nat := events.countP ticks

/-- No counter moves. -/
structure SameTicks (list after : TaskList) : Prop where
  count : after.tickCount = list.tickCount
  tasks : ∀ t, (after.memory t).cpuTicks = (list.memory t).cpuTicks

/-- The counters after `total` ticks: no task on the list has more of them. -/
structure Ticked (total : Nat) (list : TaskList) : Prop where
  count : list.tickCount = total % 2 ^ 32
  tasks : ∀ t ∈ list.queue, (list.memory t).cpuTicks ≤ total

variable {list after : TaskList} {t : Word}

theorem SameTicks.refl (list : TaskList) : SameTicks list list := ⟨rfl, fun _ => rfl⟩

theorem SameTicks.trans {middle : TaskList} (first : SameTicks list middle) (second : SameTicks middle after) :
    SameTicks list after :=
  ⟨second.count.trans first.count, fun t => (second.tasks t).trans (first.tasks t)⟩

theorem store_sameTicks (list : TaskList) (t : Word) (change : Task → Task)
    (keeps : ∀ task, (change task).cpuTicks = task.cpuTicks) : SameTicks list (list.store t change) := by
  refine ⟨rfl, fun u => ?_⟩
  rw [store_memory]
  split
  · next here => rw [here, keeps]
  · rfl

theorem demote_sameTicks (list : TaskList) : SameTicks list list.demote := by
  unfold demote
  split
  · exact .refl _
  · split
    · exact list.store_sameTicks _ _ fun _ => rfl
    · exact .refl _

theorem schedule_sameTicks (list : TaskList) : SameTicks list list.schedule := by
  unfold schedule
  split
  · exact .refl _
  · next next _ =>
    have stored := list.demote.store_sameTicks next (fun task => { task with state := .running, timeSlice := 10 })
      fun _ => rfl
    exact list.demote_sameTicks.trans ⟨stored.count, stored.tasks⟩

theorem schedBlock_sameTicks (list : TaskList) : SameTicks list list.schedBlock := by
  unfold schedBlock
  split
  · exact .refl _
  · next current _ =>
    exact (list.store_sameTicks current (fun task => { task with state := .blocked }) fun _ => rfl).trans
      (schedule_sameTicks _)

theorem schedUnblock_sameTicks (list : TaskList) (id : Nat) : SameTicks list (list.schedUnblock id) := by
  unfold schedUnblock
  split
  · exact .refl _
  · exact list.store_sameTicks _ _ fun _ => rfl

theorem wakeParent_sameTicks (list : TaskList) (t : Word) : SameTicks list (list.wakeParent t) := by
  unfold wakeParent
  split
  · exact .refl _
  · dsimp only
    split
    · exact list.store_sameTicks _ _ fun _ => rfl
    · exact .refl _

theorem taskExit_sameTicks (list : TaskList) (id : Nat) (exitCode : Int) : SameTicks list (list.taskExit id exitCode) := by
  unfold taskExit
  split
  · exact .refl _
  · next t _ =>
    exact (list.store_sameTicks t (fun task => { task with state := .zombie, exitCode }) fun _ => rfl).trans
      (wakeParent_sameTicks _ _)

theorem cmdKill_sameTicks (list : TaskList) (pid : Byte) : SameTicks list (list.cmdKill pid) := by
  unfold cmdKill
  split
  · exact .refl _
  · exact ⟨rfl, fun _ => rfl⟩

theorem taskWait_sameTicks (list : TaskList) (pid : Int) : SameTicks list (list.taskWait pid).2 := by
  have waited := list.taskWait_cases pid
  generalize list.taskWait pid = result at waited
  cases waited with
  | idle => exact .refl _
  | reaped => exact ⟨rfl, fun _ => rfl⟩
  | childless => exact .refl _
  | @blocked current _ _ =>
    exact (list.store_sameTicks current (fun task => { task with waitingFor := pid, state := .blocked })
      fun _ => rfl).trans (schedule_sameTicks _)

/-- A call that neither creates a task nor counts a tick. -/
theorem Call.sameTicks {call : Call} (creates : call.allocations = none) (counts : ticks (some call) = false) :
    SameTicks list (call.run list) := by
  cases call with
  | taskCreate => cases creates
  | taskCreateUser => cases creates
  | taskFork => cases creates
  | taskExit id exitCode => exact list.taskExit_sameTicks id exitCode
  | taskDestroy id => exact ⟨rfl, fun _ => rfl⟩
  | cmdKill pid => exact list.cmdKill_sameTicks pid
  | taskWait pid => exact list.taskWait_sameTicks pid
  | schedBlock => exact list.schedBlock_sameTicks
  | schedUnblock id => exact list.schedUnblock_sameTicks id
  | schedTick => cases counts
  | schedYield => exact list.schedule_sameTicks
  | schedule => exact list.schedule_sameTicks

/-- What a call that creates a task in the memory `t` does to the counters. -/
structure CreatedTicks (list : TaskList) (t : Word) (after : TaskList) : Prop where
  count : after.tickCount = list.tickCount
  others : ∀ u, u ≠ t → (after.memory u).cpuTicks = (list.memory u).cpuTicks
  created : t ∈ after.queue → t ∈ list.queue ∨ (after.memory t).cpuTicks = 0

theorem CreatedTicks.refl (list : TaskList) (t : Word) : CreatedTicks list t list := ⟨rfl, fun _ _ => rfl, .inl⟩

/-- A new structure whose counter starts from zero, on the list or not. -/
theorem createdTicks_store {task : Task} (zero : task.cpuTicks = 0) {queue : List Word} {counter : Nat} :
    CreatedTicks list t { list with memory := Function.update list.memory t task, queue, nextTid := counter } := by
  refine ⟨rfl, fun u other => ?_, fun _ => .inr ?_⟩
  · change (Function.update list.memory t task u).cpuTicks = _
    rw [Function.update_of_ne other]
  · change (Function.update list.memory t task t).cpuTicks = 0
    rw [Function.update_self, zero]

theorem taskCreate_createdTicks (list : TaskList) (allocations : Allocations) (priority : Nat) (kernelMode : Bool) :
    CreatedTicks list allocations.task (list.taskCreate allocations priority kernelMode).2 := by
  unfold taskCreate
  dsimp only
  split
  · exact .refl _ _
  · simp only [takeTid_store, store_store]
    split
    · exact createdTicks_store rfl
    · split
      · exact createdTicks_store rfl
      · split
        · exact createdTicks_store rfl
        · exact createdTicks_store rfl

theorem taskFork_createdTicks (list : TaskList) (allocations : Allocations) :
    CreatedTicks list allocations.task (list.taskFork allocations).2 := by
  unfold taskFork
  split
  · exact .refl _ _
  · dsimp only
    split
    · exact .refl _ _
    · simp only [takeTid_store, store_store]
      split
      · exact createdTicks_store rfl
      · split
        · split
          · exact createdTicks_store rfl
          · exact createdTicks_store rfl
        · exact createdTicks_store rfl

theorem Call.createdTicks {call : Call} {memory : Allocations} (creates : call.allocations = some memory) :
    CreatedTicks list memory.task (call.run list) := by
  cases call with
  | taskCreate _ priority kernelMode =>
    cases creates
    exact list.taskCreate_createdTicks memory priority kernelMode
  | taskCreateUser _ priority =>
    cases creates
    exact list.taskCreate_createdTicks memory priority false
  | taskFork =>
    cases creates
    exact list.taskFork_createdTicks memory
  | _ => cases creates

theorem Ticked.sameTicks {total : Nat} (ticked : Ticked total list) (same : SameTicks list after)
    (members : ∀ t ∈ after.queue, t ∈ list.queue) : Ticked total after := by
  refine ⟨same.count.trans ticked.count, fun t member => ?_⟩
  rw [same.tasks]
  exact ticked.tasks t (members t member)

/-- The current task and the whole get one tick more. -/
theorem Ticked.countTick {total : Nat} (ticked : Ticked total list) : Ticked (total + 1) list.countTick := by
  have count : (list.tickCount + 1) % 2 ^ 32 = (total + 1) % 2 ^ 32 := by rw [ticked.count, Nat.mod_add_mod]
  unfold TaskList.countTick
  dsimp only
  split
  · exact ⟨count, fun t member => Nat.le_succ_of_le (ticked.tasks t member)⟩
  · refine ⟨count, fun t member => ?_⟩
    have before := ticked.tasks t member
    rw [store_memory]
    split
    · next here =>
      rw [← here]
      exact (Nat.mod_le _ _).trans (Nat.succ_le_succ before)
    · exact Nat.le_succ_of_le before

theorem Ticked.schedTick {total : Nat} (ticked : Ticked total list) : Ticked (total + 1) list.schedTick := by
  unfold TaskList.schedTick
  dsimp only
  split
  · exact ticked.countTick.sameTicks (schedule_sameTicks _) fun t member => (schedule_queue _) ▸ member
  · exact ticked.countTick

theorem Ticked.run {total : Nat} (ticked : Ticked total list) {call : Call} (fresh : call.Fresh list) :
    Ticked (total + if ticks (some call) then 1 else 0) (call.run list) := by
  cases counts : ticks (some call) with
  | true =>
    cases call with
    | schedTick => exact ticked.schedTick
    | _ => cases counts
  | false =>
    cases creates : call.allocations with
    | none =>
      refine ticked.sameTicks (Call.sameTicks creates counts) fun t member => ?_
      rcases Call.member member with old | ⟨_, allocates, _⟩
      · exact old
      · rw [creates] at allocates
        cases allocates
    | some memory =>
      have created : CreatedTicks list memory.task (call.run list) := Call.createdTicks creates
      have apart : memory.task ∉ list.queue := fresh memory creates
      refine ⟨created.count.trans ticked.count, fun t member => ?_⟩
      by_cases here : t = memory.task
      · subst here
        rcases created.created member with old | zero
        · exact absurd old apart
        · rw [zero]
          exact Nat.zero_le _
      · rw [created.others t here]
        rcases Call.member member with old | ⟨_, allocates, newcomer, _⟩
        · exact ticked.tasks t old
        · rw [creates] at allocates
          exact absurd (newcomer.trans (congrArg Allocations.task (Option.some.inj allocates)).symm) here

/-- After any run, with any scheduling decisions, no task on the list has more
ticks than there have been. -/
theorem ticked_of_trace {memory : Word → Task} {events : List (Option Call)} (run : Trace Step (init memory) events list) :
    Ticked (tickTotal events) list := by
  refine run.invariant (fun events list => Ticked (tickTotal events) list) ⟨rfl, fun t member => absurd member List.not_mem_nil⟩ ?_
  intro events before event after ticked step
  rw [tickTotal, List.countP_append, List.countP_singleton]
  cases step with
  | call fresh => exact ticked.run fresh
  | reuse written apart =>
    refine ⟨ticked.count, fun t member => ?_⟩
    change (written t).cpuTicks ≤ _
    rw [apart t member]
    exact ticked.tasks t member

end MexOS.Sched.TaskList
