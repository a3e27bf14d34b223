import MexOS.Sched.Fate

/-! Tasks inside `task_wait`. The call that ends a child has to wake its parent:
`task_exit` does, `task_destroy` does not. -/

namespace MexOS.Sched

open MexOS.Machine

namespace TaskList

variable {list after : TaskList} {t p : Word}

/-- The list while no id is in use twice. -/
structure Named (list : TaskList) : Prop where
  nodup : list.queue.Nodup
  unique : ∀ t ∈ list.queue, ∀ u ∈ list.queue, (list.memory t).id = (list.memory u).id → t = u
  pid : ∀ t ∈ list.queue, (list.memory t).pid = pidOf (list.memory t).id
  small : ∀ t ∈ list.queue, (list.memory t).id < 2 ^ 32
  counter : list.nextTid < 2 ^ 32

theorem Named.init (memory : Word → Task) : Named (init memory) :=
  ⟨List.nodup_nil, nofun, nofun, nofun, Nat.lt_of_sub_eq_succ rfl⟩

theorem Named.overwrite (named : Named list) {written : Word → Task} (apart : ∀ t ∈ list.queue, written t = list.memory t) :
    Named (list.overwrite written) := by
  refine ⟨named.nodup, ?_, ?_, ?_, named.counter⟩
  · intro t member u present same
    change (written t).id = (written u).id at same
    rw [apart t member, apart u present] at same
    exact named.unique t member u present same
  · intro t member
    change (written t).pid = pidOf (written t).id
    rw [apart t member]
    exact named.pid t member
  · intro t member
    change (written t).id < 2 ^ 32
    rw [apart t member]
    exact named.small t member

theorem pidOf_injective {first second : Nat} (firstSmall : first < 2 ^ 32) (secondSmall : second < 2 ^ 32)
    (same : pidOf first = pidOf second) : first = second := by
  have words := congrArg BitVec.toNat (BitVec.eq_of_toInt_eq same)
  rwa [BitVec.toNat_ofNat, BitVec.toNat_ofNat, Nat.mod_eq_of_lt firstSmall, Nat.mod_eq_of_lt secondSmall] at words

/-- Searching for a task by what only it has. -/
theorem first_of_unique {test : Task → Bool} (member : t ∈ list.queue) (passes : test (list.memory t) = true)
    (unique : ∀ u ∈ list.queue, test (list.memory u) = true → u = t) : list.first test = some t := by
  cases found : list.first test with
  | none =>
    have failed := first_none found t member
    rw [passes] at failed
    cases failed
  | some u =>
    obtain ⟨present, passed⟩ := first_some found
    rw [unique u present passed]

theorem Named.first_id (named : Named list) (member : t ∈ list.queue) :
    (list.first fun task => task.id = (list.memory t).id) = some t := by
  refine first_of_unique member (by simp) ?_
  intro u present same
  exact named.unique u present t member (by simpa using same)

theorem Named.taskFind (named : Named list) (member : t ∈ list.queue) : list.taskFind (list.memory t).pid = some t := by
  refine first_of_unique member (by simp) ?_
  intro u present same
  apply named.unique u present t member
  apply pidOf_injective (named.small u present) (named.small t member)
  rw [← named.pid u present, ← named.pid t member]
  simpa using same

theorem Named.run (named : Named list) {call : Call} (fresh : call.Fresh list)
    (unused : call.allocations.isSome → ∀ t ∈ list.queue, (list.memory t).id ≠ list.nextTid) : Named (call.run list) := by
  have kin (t : Word) (member : t ∈ list.queue) : Kin (list.memory t) ((call.run list).memory t) :=
    (call.fate fresh member).kin
  refine ⟨(call.shape list).nodup fresh named.nodup, ?_, ?_, ?_, ?_⟩
  · intro t member u present same
    rcases Call.member member with old | ⟨memory, allocates, here, newborn, _⟩
    · rcases Call.member present with older | ⟨memory, allocates, here, newborn, _⟩
      · rw [(kin t old).id, (kin u older).id] at same
        exact named.unique t old u older same
      · rw [(kin t old).id, newborn.id] at same
        exact absurd same (unused (by simp [allocates]) t old)
    · rcases Call.member present with older | ⟨other, again, there, _⟩
      · rw [(kin u older).id, newborn.id] at same
        exact absurd same.symm (unused (by simp [allocates]) u older)
      · rw [here, there, Option.some.inj (allocates.symm.trans again)]
  · intro t member
    rcases Call.member member with old | ⟨_, _, _, newborn, _⟩
    · rw [(kin t old).pid, (kin t old).id]
      exact named.pid t old
    · rw [newborn.pid, newborn.id]
  · intro t member
    rcases Call.member member with old | ⟨_, _, _, newborn, _⟩
    · rw [(kin t old).id]
      exact named.small t old
    · rw [newborn.id]
      exact named.counter
  · rcases Call.counter call with same | ⟨_, next⟩
    · rw [same]
      exact named.counter
    · rw [next]
      exact Nat.mod_lt _ (by decide)

/-- A child that `task_wait(pid)` of the task at `p` waits for and that has not
ended. -/
structure LiveChild (list : TaskList) (p : Word) (pid : Int) (t : Word) : Prop where
  member : t ∈ list.queue
  child : waitsFor (list.memory p) pid (list.memory t) = true
  live : (list.memory t).state ≠ .zombie

theorem waitsFor_congr {parent parent' task task' : Task} (same : Kin parent parent') (kin : Kin task task') (pid : Int) :
    waitsFor parent' pid task' = waitsFor parent pid task := by
  unfold waitsFor
  rw [same.pid, kin.parentPid, kin.pid]

/-- `task_exit` of a child finds the parent that waits for it. -/
theorem LiveChild.wakes {pid : Int} {id : Nat} (child : LiveChild list p pid t) (named : Named list)
    (member : p ∈ list.queue) (waiting : (list.memory p).state = .blocked) (awaits : (list.memory p).waitingFor = pid)
    (found : (list.first fun task => task.id = id) = some t) (different : p ≠ t) (exitCode : Int) :
    (Call.taskExit id exitCode).wakes list = some p := by
  have related := child.child
  simp only [waitsFor, decide_eq_true_eq] at related
  have parent : list.taskFind (list.memory t).parentPid = some p := by
    rw [related.1]
    exact named.taskFind member
  simp only [Call.wakes, found, Option.bind_some, parent]
  apply Option.filter_some_pos
  simp only [decide_eq_true_eq]
  refine ⟨different, waiting, ?_⟩
  rw [awaits]
  exact related.2.symm.imp_left Eq.symm

/-- A child that is neither destroyed nor made a zombie. -/
theorem LiveChild.kept {call : Call} {pid : Int} (child : LiveChild list p pid t) (named : Named list)
    (fresh : call.Fresh list) (member : p ∈ list.queue) (spared : call.victim list ≠ some t)
    (live : ((call.run list).memory t).state ≠ .zombie) : LiveChild (call.run list) p pid t := by
  refine ⟨?_, ?_, live⟩
  · cases call.shape list with
    | kept _ queue => exact queue ▸ child.member
    | linked _ _ queue =>
      rw [queue]
      exact List.mem_cons_of_mem _ child.member
    | @removed victim found queue =>
      rw [queue, named.nodup.mem_erase_iff]
      exact ⟨fun same => spared (same ▸ found), child.member⟩
  · rw [waitsFor_congr (call.fate fresh member).kin (call.fate fresh child.member).kin]
    exact child.child

/-- A child outlives every call that does not destroy it: if it exits, the
parent is woken. -/
theorem LiveChild.run {call : Call} {pid : Int} (child : LiveChild list p pid t) (named : Named list)
    (fresh : call.Fresh list) (member : p ∈ list.queue) (waiting : (list.memory p).state = .blocked)
    (awaits : (list.memory p).waitingFor = pid) (blocked : ((call.run list).memory p).state = .blocked)
    (spared : call.victim list ≠ some t) : LiveChild (call.run list) p pid t := by
  apply child.kept named fresh member spared
  intro zombie
  rcases (call.fate fresh child.member).zombie zombie with ⟨already, _⟩ | ⟨id, exits, found⟩
  · exact child.live already
  · generalize ((call.run list).memory t).exitCode = exitCode at exits
    subst exits
    change ((list.taskExit id exitCode).memory p).state = .blocked at blocked
    rw [taskExit_memory found] at blocked
    by_cases here : p = t
    · rw [if_pos here] at blocked
      cases blocked
    · rw [if_neg here, if_pos (child.wakes named member waiting awaits found here exitCode)] at blocked
      cases blocked

/-- With distinct ids `task_wait` frees the zombie that it has found. -/
theorem Named.reaped (named : Named list) {pid : Int} {victim : Word}
    (found : (Call.taskWait pid).victim list = some victim) :
    ∃ current, list.currentTask = some current ∧ list.reapable current pid = some victim := by
  simp only [Call.victim] at found
  obtain ⟨current, running, found⟩ := Option.bind_eq_some_iff.mp found
  obtain ⟨t, zombie, found⟩ := Option.bind_eq_some_iff.mp found
  have itself := named.first_id (first_some zombie).1
  obtain rfl : t = victim := Option.some.inj (itself.symm.trans found)
  exact ⟨current, running, zombie⟩

theorem reapable_zombie {current : Word} {pid : Int} (found : list.reapable current pid = some t) :
    t ∈ list.queue ∧ waitsFor (list.memory current) pid (list.memory t) = true ∧ (list.memory t).state = .zombie := by
  obtain ⟨member, passes⟩ := first_some found
  rw [decide_eq_true_eq] at passes
  exact ⟨member, passes⟩

/-- `task_wait` sleeps only while some child it waits for is alive. -/
theorem taskWait_sleeps {pid : Int} (sleeps : (list.taskWait pid).1 = none) :
    ∃ current t, list.currentTask = some current ∧ LiveChild list current pid t ∧
      Turned { list.memory current with waitingFor := pid, state := .blocked } ((list.taskWait pid).2.memory current) := by
  have waited := list.taskWait_cases pid
  generalize list.taskWait pid = result at sleeps waited
  cases waited with
  | @blocked current t running nothing member waits =>
    refine ⟨current, t, running, ⟨member, waits, ?_⟩, ?_⟩
    · intro zombie
      have missed := first_none nothing t member
      simp [waits, zombie] at missed
    · have switched := (schedule_switched
        (list.store current fun task => { task with waitingFor := pid, state := .blocked })).memory current
      rwa [store_memory, if_pos rfl] at switched
  | _ => cases sleeps

/-- What `task_wait` frees is a zombie. -/
theorem LiveChild.not_reaped {pid other : Int} (child : LiveChild list p pid t) (named : Named list) :
    (Call.taskWait other).victim list ≠ some t := by
  intro found
  obtain ⟨current, _, zombie⟩ := named.reaped found
  exact child.live (reapable_zombie zombie).2.2

end TaskList

open TaskList

/-- `waits` is the argument of the `task_wait` that the task at an address is
inside of, if it is. -/
structure Waiters where
  list : TaskList
  waits : Word → Option Int

namespace Waiters

inductive Event where
  | call (call : Call)
  | wait (pid : Int) (outcome : Option (Int × Option Int))
  | reuse

/-- The turns of `task_wait` are steps of their own. -/
def Call.isWait : Call → Bool
  | .taskWait _ => true
  | _ => false

/-- The `task_wait` that the current task is inside of. -/
def pending (system : Waiters) : Option Int := system.list.currentTask.bind system.waits

/-- A new task starts outside of `task_wait`. -/
def afterCall (system : Waiters) (call : Call) : Waiters where
  list := call.run system.list
  waits :=
    match call.allocations with
    | none => system.waits
    | some memory => Function.update system.waits memory.task none

/-- The current task has returned from `task_wait`, or sleeps in it. -/
def afterWait (system : Waiters) (pid : Int) : Waiters where
  list := (system.list.taskWait pid).2
  waits :=
    match system.list.currentTask with
    | none => system.waits
    | some current => Function.update system.waits current (if (system.list.taskWait pid).1.isSome then none else some pid)

/-- Any call may come at any time, from an interrupt or another task; only the
turns of `task_wait`, and `sched_block`, are those of the current task. -/
inductive Step (system : Waiters) : Event → Waiters → Prop
  | call : call.Fresh system.list → Call.isWait call = false → (call = .schedBlock → system.pending = none) →
    Step system (.call call) (system.afterCall call)
  | wait : (∀ inside ∈ system.pending, inside = pid) →
    Step system (.wait pid (system.list.taskWait pid).1) (system.afterWait pid)
  | reuse (written : Word → Task) : (∀ t ∈ system.list.queue, written t = system.list.memory t) →
    Step system .reuse { system with list := system.list.overwrite written }

def init (memory : Word → Task) : Waiters := ⟨TaskList.init memory, fun _ => none⟩

/-- The task at `p` sleeps inside `task_wait(pid)`. -/
structure Waiter (system : Waiters) (p : Word) (pid : Int) : Prop where
  member : p ∈ system.list.queue
  blocked : (system.list.memory p).state = .blocked
  inside : system.waits p = some pid

def NoneForgotten (system : Waiters) : Prop :=
  ∀ p pid, system.Waiter p pid → ∃ t, system.list.LiveChild p pid t

/-- The id that a new task gets is not in use, and a task that is destroyed is
nobody's last hope. -/
def Minds (system : Waiters) (event : Event) : Prop :=
  ∀ call, event = .call call →
    (call.allocations.isSome → ∀ t ∈ system.list.queue, (system.list.memory t).id ≠ system.list.nextTid) ∧
    ∀ victim, call.victim system.list = some victim → ∀ p pid, system.Waiter p pid → p ≠ victim →
      system.list.LiveChild p pid victim → ∃ t, t ≠ victim ∧ system.list.LiveChild p pid t

/-- What holds while all calls mind the waiters. -/
structure Tidy (system : Waiters) : Prop where
  named : Named system.list
  awaits : ∀ p pid, system.Waiter p pid → (system.list.memory p).waitingFor = pid
  kept : system.NoneForgotten

variable {system after : Waiters}

/-- A task that sleeps in `task_wait` after a call did so before. -/
theorem Waiter.of_afterCall {call : Call} {p : Word} {pid : Int} (waiter : (system.afterCall call).Waiter p pid)
    (fresh : call.Fresh system.list) (other : Call.isWait call = false)
    (outside : call = .schedBlock → system.pending = none) :
    system.Waiter p pid ∧
      ((system.afterCall call).list.memory p).waitingFor = (system.list.memory p).waitingFor := by
  have inside : system.waits p = some pid := by
    have still := waiter.inside
    cases allocates : call.allocations with
    | none => simpa only [afterCall, allocates] using still
    | some memory =>
      simp only [afterCall, allocates, Function.update_apply] at still
      split at still
      · cases still
      · exact still
  rcases Call.member waiter.member with old | ⟨_, _, _, newborn, _⟩
  · rcases (call.fate fresh old).blocked waiter.blocked with ⟨blocked, same⟩ | ⟨running, sleeps⟩
    · exact ⟨⟨old, blocked, inside⟩, same⟩
    · exfalso
      rcases sleeps with blocks | waits
      · have none := outside blocks
        unfold pending at none
        rw [running, Option.bind_some, inside] at none
        cases none
      · rw [waits] at other
        cases other
  · have blocked := waiter.blocked
    have ready := newborn.state
    change ((call.run system.list).memory p).state = .blocked at blocked
    rw [ready] at blocked
    cases blocked

theorem Tidy.afterCall (tidy : system.Tidy) {call : Call} (fresh : call.Fresh system.list)
    (other : Call.isWait call = false) (outside : call = .schedBlock → system.pending = none)
    (minds : system.Minds (.call call)) : (system.afterCall call).Tidy := by
  obtain ⟨unused, hope⟩ := minds call rfl
  refine ⟨tidy.named.run fresh unused, ?_, ?_⟩
  · intro p pid waiter
    obtain ⟨earlier, same⟩ := waiter.of_afterCall fresh other outside
    rw [same]
    exact tidy.awaits p pid earlier
  · intro p pid waiter
    obtain ⟨earlier, _⟩ := waiter.of_afterCall fresh other outside
    have awaits := tidy.awaits p pid earlier
    obtain ⟨t, child⟩ := tidy.kept p pid earlier
    have survives (u : Word) (child : system.list.LiveChild p pid u) (spared : call.victim system.list ≠ some u) :=
      child.run tidy.named fresh earlier.member earlier.blocked awaits waiter.blocked spared
    by_cases destroyed : call.victim system.list = some t
    · have different : p ≠ t := by
        rintro rfl
        exact ((call.shape system.list).gone tidy.named.nodup destroyed).2 waiter.member
      obtain ⟨u, spared, child⟩ := hope t destroyed p pid earlier different child
      exact ⟨u, survives u child fun same => spared (Option.some.inj (same.symm.trans destroyed))⟩
    · exact ⟨t, survives t child destroyed⟩

theorem Waiter.of_afterWait {p : Word} {pid inside : Int} (waiter : (system.afterWait pid).Waiter p inside) :
    (system.Waiter p inside ∧ ((system.afterWait pid).list.memory p).waitingFor = (system.list.memory p).waitingFor) ∨
      p ∈ system.list.queue ∧ system.list.currentTask = some p ∧ (system.list.taskWait pid).1 = none ∧ inside = pid := by
  have member : p ∈ system.list.queue := by
    rcases @Call.member system.list p (.taskWait pid) waiter.member with old | ⟨_, impossible, _⟩
    · exact old
    · cases impossible
  have fate := (Call.taskWait pid).fate nofun member
  have still := waiter.inside
  by_cases here : system.list.currentTask = some p
  · right
    simp only [afterWait, here, Function.update_self] at still
    split at still
    · cases still
    · next sleeps =>
      refine ⟨member, here, ?_, (Option.some.inj still).symm⟩
      simpa using sleeps
  · left
    have inside : system.waits p = some inside := by
      cases running : system.list.currentTask with
      | none => simpa only [afterWait, running] using still
      | some current =>
        have different : p ≠ current := fun same => here (same ▸ running)
        simpa only [afterWait, running, Function.update_of_ne different] using still
    rcases fate.blocked waiter.blocked with ⟨blocked, same⟩ | ⟨running, _⟩
    · exact ⟨⟨member, blocked, inside⟩, same⟩
    · exact absurd running here

theorem Tidy.afterWait (tidy : system.Tidy) (pid : Int) : (system.afterWait pid).Tidy := by
  have fresh : (Call.taskWait pid).Fresh system.list := nofun
  refine ⟨tidy.named.run fresh nofun, ?_, ?_⟩
  · intro p inside waiter
    rcases waiter.of_afterWait with ⟨earlier, same⟩ | ⟨_, running, sleeps, rfl⟩
    · rw [same]
      exact tidy.awaits p inside earlier
    · obtain ⟨current, _, present, _, turned⟩ := taskWait_sleeps sleeps
      obtain rfl : p = current := Option.some.inj (running.symm.trans present)
      change ((system.list.taskWait inside).2.memory p).waitingFor = inside
      rw [turned.same]
  · intro p inside waiter
    rcases waiter.of_afterWait with ⟨earlier, _⟩ | ⟨member, running, sleeps, rfl⟩
    · obtain ⟨t, child⟩ := tidy.kept p inside earlier
      have awaits := tidy.awaits p inside earlier
      exact ⟨t, child.run tidy.named fresh earlier.member earlier.blocked awaits waiter.blocked
        (child.not_reaped tidy.named)⟩
    · obtain ⟨current, t, present, child, _⟩ := taskWait_sleeps sleeps
      obtain rfl : p = current := Option.some.inj (running.symm.trans present)
      refine ⟨t, child.kept tidy.named fresh member (child.not_reaped tidy.named) ?_⟩
      intro zombie
      rcases ((Call.taskWait inside).fate fresh child.member).zombie zombie with ⟨already, _⟩ | ⟨_, impossible, _⟩
      · exact child.live already
      · cases impossible

/-- Others write outside the list, so all that the list shows is as before. -/
theorem Tidy.reuse (tidy : system.Tidy) {written : Word → Task}
    (apart : ∀ t ∈ system.list.queue, written t = system.list.memory t) :
    Tidy { system with list := system.list.overwrite written } := by
  have earlier (p : Word) (pid : Int) (waiter : Waiter { system with list := system.list.overwrite written } p pid) :
      system.Waiter p pid :=
    ⟨waiter.member, apart p waiter.member ▸ waiter.blocked, waiter.inside⟩
  refine ⟨tidy.named.overwrite apart, ?_, ?_⟩
  · intro p pid waiter
    change (written p).waitingFor = pid
    rw [apart p waiter.member]
    exact tidy.awaits p pid (earlier p pid waiter)
  · intro p pid waiter
    obtain ⟨t, child⟩ := tidy.kept p pid (earlier p pid waiter)
    refine ⟨t, child.member, ?_, ?_⟩
    · change waitsFor (written p) pid (written t) = true
      rw [apart p waiter.member, apart t child.member]
      exact child.child
    · change (written t).state ≠ .zombie
      rw [apart t child.member]
      exact child.live

/-- A step whose call minds the waiters. -/
def MindfulStep (system : Waiters) (event : Event) (after : Waiters) : Prop :=
  Step system event after ∧ system.Minds event

theorem Tidy.step {event : Event} (tidy : system.Tidy) (step : MindfulStep system event after) : after.Tidy := by
  obtain ⟨step, minds⟩ := step
  cases step with
  | call fresh other outside => exact tidy.afterCall fresh other outside minds
  | wait => exact tidy.afterWait _
  | reuse written apart => exact tidy.reuse apart

/-- While no destroyed task is the last live child that a task in `task_wait`
waits for, and no id is given out that is in use, every such task has a child
that can still wake it. -/
theorem no_waiter_forgotten {memory : Word → Task} {events : List Event}
    (run : Trace MindfulStep (init memory) events system) : system.NoneForgotten := by
  have tidy : system.Tidy := run.invariant (fun _ system => system.Tidy)
    ⟨Named.init memory, fun _ _ waiter => absurd waiter.member List.not_mem_nil,
      fun _ _ waiter => absurd waiter.member List.not_mem_nil⟩
    (fun _ _ _ _ tidy step => tidy.step step)
  exact tidy.kept

/-- Calls, and turns of `task_wait` with their argument, one after the other, as
long as they are steps of the system. -/
def runAll (system : Waiters) : List (Call ⊕ Int) → Option Waiters
  | [] => some system
  | .inl call :: rest =>
    if call.Fresh system.list ∧ Call.isWait call = false ∧ system.pending = none then (system.afterCall call).runAll rest
    else none
  | .inr pid :: rest => if system.pending.all (· = pid) then (system.afterWait pid).runAll rest else none

theorem runAll_trace {start last : Waiters} {actions : List (Call ⊕ Int)} {events : List Event}
    (earlier : Trace Step start events system) (result : system.runAll actions = some last) :
    ∃ events, Trace Step start events last := by
  induction actions generalizing system events with
  | nil =>
    cases result
    exact ⟨events, earlier⟩
  | cons action rest ih =>
    cases action with
    | inl call =>
      simp only [runAll, Option.ite_none_right_eq_some] at result
      obtain ⟨⟨fresh, other, outside⟩, result⟩ := result
      exact ih (earlier.snoc (.call fresh other fun _ => outside)) result
    | inr pid =>
      simp only [runAll, Option.ite_none_right_eq_some] at result
      refine ih (earlier.snoc (.wait ?_)) result.2
      intro inside present
      simpa [Option.mem_def.mp present] using result.1

theorem Minds.of_spared {call : Call} (spared : call.victim system.list = none)
    (unused : ∀ t ∈ system.list.queue, (system.list.memory t).id ≠ system.list.nextTid) : system.Minds (.call call) := by
  rintro other same
  cases same
  refine ⟨fun _ => unused, fun victim found => ?_⟩
  rw [spared] at found
  cases found

/-- A task creates a child and waits for it. -/
theorem no_waiter_forgotten_parent :
    ∃ events system, Trace MindfulStep (init fun _ => cleared) events system ∧ system.Waiter 16 (-1) ∧
      system.NoneForgotten := by
  let start := init fun _ => cleared
  let parent := Call.taskCreate ⟨16, 0x1000, 0⟩ 1 true
  let child := Call.taskCreate ⟨32, 0x2000, 0⟩ 1 true
  let created := start.afterCall parent
  let running := created.afterCall .schedule
  have first : MindfulStep start (.call parent) created :=
    ⟨.call (by decide) rfl nofun, Minds.of_spared rfl nofun⟩
  have second : MindfulStep created (.call .schedule) running := by
    refine ⟨.call (by decide) rfl nofun, Minds.of_spared rfl ?_⟩
    intro t member
    obtain rfl : t = 16 := List.mem_singleton.mp member
    decide
  have third : MindfulStep running (.call child) (running.afterCall child) := by
    refine ⟨.call (by decide) rfl nofun, Minds.of_spared rfl ?_⟩
    intro t member
    obtain rfl : t = 16 := List.mem_singleton.mp member
    decide
  have fourth : MindfulStep (running.afterCall child) (.wait (-1) none) ((running.afterCall child).afterWait (-1)) :=
    ⟨.wait (by decide), nofun⟩
  have run := (((Trace.nil.snoc first).snoc second).snoc third).snoc fourth
  exact ⟨_, _, run, ⟨by decide, by decide, by decide⟩, no_waiter_forgotten run⟩

/-- The shell kills the child that the parent waits for. -/
def killedChild : List (Call ⊕ Int) :=
  [.inl (.taskCreate ⟨16, 0x1000, 0⟩ 1 true), .inl .schedule, .inl (.taskCreate ⟨32, 0x2000, 0⟩ 1 true), .inl .schedule,
    .inl (.taskCreate ⟨48, 0x3000, 0⟩ 1 true), .inr (-1), .inl .schedule, .inl (.cmdKill 3)]

theorem waiter_forgotten :
    ∃ events system, Trace Step (init fun _ => cleared) events system ∧ ¬ system.NoneForgotten := by
  obtain ⟨system, result⟩ : ∃ system, (init fun _ => cleared).runAll killedChild = some system := ⟨_, rfl⟩
  have checked : ((init fun _ => cleared).runAll killedChild).map (fun system => (system.list.queue,
      (system.list.memory 32).state, system.waits 32, (system.list.memory 32).pid,
      (system.list.memory 32).parentPid, (system.list.memory 16).parentPid)) =
      some ([32, 16], .blocked, some (-1), 2, 1, 0) := by decide
  rw [result, Option.map_some, Option.some.injEq] at checked
  simp only [Prod.mk.injEq] at checked
  obtain ⟨queue, blocked, inside, pid, parent, other⟩ := checked
  obtain ⟨events, run⟩ := runAll_trace .nil result
  refine ⟨events, system, run, ?_⟩
  intro kept
  obtain ⟨t, child⟩ := kept 32 (-1) ⟨by simp [queue], blocked, inside⟩
  have member := child.member
  have related := child.child
  rw [queue] at member
  rcases List.mem_pair.mp member with rfl | rfl
  · simp only [waitsFor, decide_eq_true_eq, pid, parent] at related
    exact absurd related.1 (by decide)
  · simp only [waitsFor, decide_eq_true_eq, pid, other] at related
    exact absurd related.1 (by decide)

end Waiters

end MexOS.Sched
