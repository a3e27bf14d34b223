import MexOS.Sched.Waiting

/-! What `task_wait` returns: the exit code of a child that has exited, once. -/

namespace MexOS.Sched

open MexOS.Machine TaskList

namespace TaskList

variable {list : TaskList} {t : Word}

theorem pidOf_small {id : Nat} (small : id < 2 ^ 31) : pidOf id = id := by
  have value : (BitVec.ofNat 32 id).toNat = id := by
    rw [BitVec.toNat_ofNat]
    exact Nat.mod_eq_of_lt (by omega)
  unfold pidOf
  rw [BitVec.toInt_eq_toNat_of_lt (by omega), value]

/-- The list after `created` attempts to create a task: younger tasks have larger
ids than their parents, and `current_task` is on the list. -/
structure Dated (created : Nat) (list : TaskList) : Prop extends Named list where
  below : ∀ t ∈ list.queue, (list.memory t).id < list.nextTid
  counted : list.nextTid ≤ created + 1
  positive : 0 < list.nextTid
  parents : ∀ t ∈ list.queue, (list.memory t).parentPid < (list.memory t).pid
  anchored : list.Anchored

theorem Dated.init (memory : Word → Task) : Dated 0 (init memory) :=
  ⟨Named.init memory, nofun, Nat.le_refl _, Nat.one_pos, nofun, nofun⟩

theorem Dated.pid_eq (dated : Dated created list) (few : created < 2 ^ 31) (member : t ∈ list.queue) :
    (list.memory t).pid = (list.memory t).id := by
  have below := dated.below t member
  have counted := dated.counted
  rw [dated.pid t member]
  exact pidOf_small (by omega)

/-- A task is not its own child, so `task_wait` does not free its caller. -/
theorem Dated.wait_spares (dated : Dated created list) (pid : Int) : list.Spares (some (.taskWait pid)) := by
  rintro call same victim found running
  cases same
  obtain ⟨current, present, zombie⟩ := dated.toNamed.reaped found
  obtain ⟨member, waits, _⟩ := reapable_zombie zombie
  obtain rfl : current = victim := Option.some.inj (present.symm.trans running)
  simp only [waitsFor, decide_eq_true_eq] at waits
  have older := dated.parents current member
  rw [waits.1] at older
  exact absurd older (Int.lt_irrefl _)

theorem Dated.newborn_parent (dated : Dated created list) (few : created + 1 < 2 ^ 31) {task : Task}
    (fresh : t ∉ list.queue) (newborn : Newborn list t task) : task.parentPid < task.pid := by
  have counted := dated.counted
  have positive := dated.positive
  rw [newborn.pid, pidOf_small (by omega)]
  rcases newborn.parent with ⟨_, none⟩ | ⟨current, running, parent⟩
  · rw [none]
    omega
  · have member := dated.anchored current running
    have different : current ≠ t := fun same => fresh (same ▸ member)
    have older := dated.below current member
    rw [parent, if_neg different, dated.pid_eq (by omega) member]
    omega

/-- What one call makes of it. -/
theorem Dated.run (dated : Dated created list) {call : Call} (fresh : call.Fresh list) (spares : list.Spares (some call))
    (few : call.allocations.isSome → created + 1 < 2 ^ 31) :
    Dated (created + if call.allocations.isSome then 1 else 0) (call.run list) := by
  have counted := dated.counted
  have kin (t : Word) (member : t ∈ list.queue) : Kin (list.memory t) ((call.run list).memory t) :=
    (call.fate fresh member).kin
  have unused : call.allocations.isSome → ∀ t ∈ list.queue, (list.memory t).id ≠ list.nextTid := by
    intro _ t member same
    have below := dated.below t member
    omega
  have counter : (call.run list).nextTid = list.nextTid ∨
      call.allocations.isSome ∧ (call.run list).nextTid = list.nextTid + 1 := by
    rcases call.counter with same | ⟨creates, next⟩
    · exact .inl same
    · have bound := few creates
      rw [Nat.mod_eq_of_lt (by omega)] at next
      exact .inr ⟨creates, next⟩
  refine ⟨dated.toNamed.run fresh unused, ?_, ?_, ?_, ?_, ?_⟩
  · intro t member
    rcases Call.member member with old | ⟨memory, allocates, _, newborn, next⟩
    · rw [(kin t old).id]
      have below := dated.below t old
      rcases counter with same | ⟨_, next⟩ <;> omega
    · have bound := few (by simp [allocates])
      rw [newborn.id, next, Nat.mod_eq_of_lt (by omega)]
      exact Nat.lt_succ_self _
  · rcases counter with same | ⟨creates, next⟩
    · rw [same]
      omega
    · rw [if_pos creates]
      omega
  · have positive := dated.positive
    rcases counter with same | ⟨_, next⟩ <;> omega
  · intro t member
    rcases Call.member member with old | ⟨memory, allocates, here, newborn, _⟩
    · rw [(kin t old).parentPid, (kin t old).pid]
      exact dated.parents t old
    · subst here
      exact dated.newborn_parent (few (by simp [allocates])) (fresh memory allocates) newborn
  · exact ((call.shape list).anchored_iff dated.nodup dated.anchored).mpr spares

theorem Dated.overwrite (dated : Dated created list) {written : Word → Task}
    (apart : ∀ t ∈ list.queue, written t = list.memory t) : Dated created (list.overwrite written) := by
  refine ⟨dated.toNamed.overwrite apart, ?_, dated.counted, dated.positive, ?_, dated.anchored⟩
  · intro t member
    change (written t).id < list.nextTid
    rw [apart t member]
    exact dated.below t member
  · intro t member
    change (written t).parentPid < (written t).pid
    rw [apart t member]
    exact dated.parents t member

end TaskList

namespace Waiters

variable {system after : Waiters} {events : List Event}

/-- The step tries to create a task. -/
def Event.creates : Event → Bool
  | .call made => made.allocations.isSome
  | _ => false

/-- The exit code of a call of `task_exit` on this id. -/
def Call.exitCode (id : Nat) : Call → Option Int
  | .taskExit other exitCode => if other = id then some exitCode else none
  | _ => none

def Event.exitCode (id : Nat) : Event → Option Int
  | .call made => Call.exitCode id made
  | _ => none

/-- The exit code of the latest `task_exit` on this id. -/
def lastExit (events : List Event) (id : Nat) : Option Int := (events.filterMap (Event.exitCode id)).getLast?

theorem lastExit_snoc (events : List Event) (event : Event) (id : Nat) :
    lastExit (events ++ [event]) id = (event.exitCode id).or (lastExit events id) := by
  unfold lastExit
  cases code : event.exitCode id with
  | none => simp [code]
  | some exitCode => simp [code]

/-- A step that does not destroy the current task. -/
def SparingStep (system : Waiters) (event : Event) (after : Waiters) : Prop :=
  Step system event after ∧ ∀ call, event = .call call → system.list.Spares (some call)

/-- Zombies keep the code they exited with, and ids that `task_wait` has
returned are gone. -/
structure Accounted (events : List Event) (system : Waiters) : Prop where
  dated : Dated (events.countP Event.creates) system.list
  exits : ∀ t ∈ system.list.queue, (system.list.memory t).state = .zombie →
    lastExit events (system.list.memory t).id = some (system.list.memory t).exitCode
  returned : ∀ pid child status, Event.wait pid (some (child, status)) ∈ events → 0 ≤ child →
    child < system.list.nextTid ∧ ∀ t ∈ system.list.queue, (system.list.memory t).pid ≠ child

/-- What `task_wait` returns is a zombie child of the caller, with its code, and
that child alone is taken off the list. -/
structure Delivered (system after : Waiters) (pid child : Int) (status : Option Int) (current t : Word) : Prop where
  running : system.list.currentTask = some current
  caller : current ∈ system.list.queue
  member : t ∈ system.list.queue
  zombie : (system.list.memory t).state = .zombie
  parent : (system.list.memory t).parentPid = (system.list.memory current).pid
  named : (system.list.memory t).pid = child
  asked : pid = -1 ∨ pid = child
  status : status = some (system.list.memory t).exitCode
  removed : after.list.queue = system.list.queue.erase t
  others : after.list.memory = system.list.memory

theorem delivered {created : Nat} (dated : Dated created system.list) {pid child : Int} {status : Option Int}
    (result : (system.list.taskWait pid).1 = some (child, status)) (valid : 0 ≤ child) :
    ∃ current t, Delivered system (system.afterWait pid) pid child status current t := by
  have waited := system.list.taskWait_cases pid
  have after : (system.afterWait pid).list = (system.list.taskWait pid).2 := rfl
  generalize system.list.taskWait pid = outcome at result waited after
  cases waited with
  | idle =>
    cases result
    exact absurd valid (by decide)
  | childless =>
    cases result
    exact absurd valid (by decide)
  | blocked => cases result
  | @reaped current t running reapable =>
    cases result
    obtain ⟨member, waits, zombie⟩ := reapable_zombie reapable
    simp only [waitsFor, decide_eq_true_eq] at waits
    have victim : system.list.victim (system.list.memory t).id = some t := dated.toNamed.first_id member
    have erased : system.list.taskDestroy (system.list.memory t).id =
        { system.list with queue := system.list.queue.erase t } := by
      rcases system.list.taskDestroy_cases (system.list.memory t).id with ⟨nothing, _⟩ | ⟨other, found, erased⟩
      · rw [victim] at nothing
        cases nothing
      · rwa [Option.some.inj (found.symm.trans victim)] at erased
    refine ⟨current, t, running, dated.anchored current running, member, zombie, waits.1, rfl, ?_, rfl, ?_, ?_⟩
    · exact waits.2.imp_right Eq.symm
    · rw [after, erased]
    · rw [after, erased]

/-- After any call a zombie has the code of the latest `task_exit` on it. -/
theorem Accounted.exits_run (accounted : Accounted events system) {call : Call} {event : Event}
    (fresh : call.Fresh system.list) (code : ∀ id, event.exitCode id = Call.exitCode id call) :
    ∀ t ∈ (call.run system.list).queue, ((call.run system.list).memory t).state = .zombie →
      lastExit (events ++ [event]) ((call.run system.list).memory t).id =
        some ((call.run system.list).memory t).exitCode := by
  intro t member zombie
  rw [lastExit_snoc, code]
  rcases Call.member member with old | ⟨_, _, _, newborn, _⟩
  · have fate := call.fate fresh old
    rw [fate.kin.id]
    rcases fate.zombie zombie with ⟨already, same⟩ | ⟨id, exits, found⟩
    · cases exited : Call.exitCode (system.list.memory t).id call with
      | none =>
        rw [same, Option.none_or]
        exact accounted.exits t old already
      | some exitCode =>
        -- the zombie exits once more
        cases call with
        | taskExit id latest =>
          simp only [Call.exitCode, Option.ite_none_right_eq_some, Option.some.injEq] at exited
          obtain ⟨rfl, rfl⟩ := exited
          change some latest = some ((system.list.taskExit _ latest).memory t).exitCode
          rw [taskExit_memory (accounted.dated.toNamed.first_id old), if_pos rfl]
        | _ => cases exited
    · have named := (first_some found).2
      rw [decide_eq_true_eq] at named
      have exited : Call.exitCode (system.list.memory t).id call = some ((call.run system.list).memory t).exitCode := by
        generalize ((call.run system.list).memory t).exitCode = exitCode at exits ⊢
        subst exits
        simp [Call.exitCode, named]
      rw [exited, Option.some_or]
  · rw [newborn.state] at zombie
    cases zombie

/-- The ids that were returned stay below the counter, and no new task gets
one of them. -/
theorem Accounted.returned_run (accounted : Accounted events system) {call : Call} (fresh : call.Fresh system.list)
    (few : call.allocations.isSome → events.countP Event.creates + 1 < 2 ^ 31) {pid child : Int} {status : Option Int}
    (member : Event.wait pid (some (child, status)) ∈ events) (valid : 0 ≤ child) :
    child < (call.run system.list).nextTid ∧
      ∀ t ∈ (call.run system.list).queue, ((call.run system.list).memory t).pid ≠ child := by
  obtain ⟨below, gone⟩ := accounted.returned pid child status member valid
  have counted := accounted.dated.counted
  constructor
  · rcases call.counter with same | ⟨creates, next⟩
    · rwa [same]
    · have bound := few creates
      rw [next, Nat.mod_eq_of_lt (by omega)]
      omega
  · intro t present
    rcases Call.member present with old | ⟨memory, allocates, _, newborn, _⟩
    · rw [(call.fate fresh old).kin.pid]
      exact gone t old
    · have bound := few (by simp [allocates])
      rw [newborn.pid, pidOf_small (by omega)]
      omega

theorem Accounted.call (accounted : Accounted events system) {call : Call} (fresh : call.Fresh system.list)
    (spares : system.list.Spares (some call)) (few : (events ++ [Event.call call]).countP Event.creates < 2 ^ 31) :
    Accounted (events ++ [Event.call call]) (system.afterCall call) := by
  rw [List.countP_append, List.countP_singleton] at few
  have bound : call.allocations.isSome → events.countP Event.creates + 1 < 2 ^ 31 := by
    intro creates
    have one : Event.creates (.call call) = true := creates
    rwa [if_pos one] at few
  refine ⟨?_, accounted.exits_run fresh fun _ => rfl, ?_⟩
  · rw [List.countP_append, List.countP_singleton]
    exact accounted.dated.run fresh spares bound
  · intro pid child status member valid
    have earlier : Event.wait pid (some (child, status)) ∈ events := by simpa using member
    exact accounted.returned_run fresh bound earlier valid

theorem Accounted.wait (accounted : Accounted events system) (pid : Int) (few : events.countP Event.creates < 2 ^ 31) :
    Accounted (events ++ [.wait pid (system.list.taskWait pid).1]) (system.afterWait pid) := by
  have fresh : (Call.taskWait pid).Fresh system.list := nofun
  refine ⟨?_, accounted.exits_run fresh fun _ => rfl, ?_⟩
  · rw [List.countP_append, List.countP_singleton]
    exact accounted.dated.run fresh (accounted.dated.wait_spares pid) nofun
  · intro other child status member valid
    rcases List.mem_append.mp member with earlier | now
    · exact accounted.returned_run fresh nofun earlier valid
    · obtain ⟨rfl, result⟩ := Event.wait.inj (List.mem_singleton.mp now)
      obtain ⟨current, t, delivered⟩ := delivered accounted.dated result.symm valid
      have identity (u : Word) (member : u ∈ system.list.queue) := accounted.dated.pid_eq few member
      have below := accounted.dated.below t delivered.member
      constructor
      · rcases (Call.taskWait other).counter with same | ⟨impossible, _⟩
        · change child < ((Call.taskWait other).run system.list).nextTid
          rw [same, ← delivered.named, identity t delivered.member]
          omega
        · cases impossible
      · intro u present same
        rw [delivered.removed, accounted.dated.nodup.mem_erase_iff] at present
        rw [delivered.others, ← delivered.named, identity u present.2, identity t delivered.member] at same
        exact present.1 (accounted.dated.unique u present.2 t delivered.member (by omega))

theorem Accounted.reuse (accounted : Accounted events system) {written : Word → Task}
    (apart : ∀ t ∈ system.list.queue, written t = system.list.memory t) :
    Accounted (events ++ [.reuse]) { system with list := system.list.overwrite written } := by
  refine ⟨?_, ?_, ?_⟩
  · rw [List.countP_append, List.countP_singleton]
    exact accounted.dated.overwrite apart
  · intro t member zombie
    change (written t).state = .zombie at zombie
    change lastExit (events ++ [.reuse]) (written t).id = some (written t).exitCode
    rw [apart t member] at zombie ⊢
    rw [lastExit_snoc]
    exact accounted.exits t member zombie
  · intro pid child status member valid
    have earlier : Event.wait pid (some (child, status)) ∈ events := by simpa using member
    obtain ⟨below, gone⟩ := accounted.returned pid child status earlier valid
    refine ⟨below, ?_⟩
    intro t present
    change (written t).pid ≠ child
    rw [apart t present]
    exact gone t present

theorem Accounted.of_trace {memory : Word → Task} (run : Trace SparingStep (init memory) events system)
    (few : events.countP Event.creates < 2 ^ 31) : Accounted events system := by
  have invariant := run.invariant
    (fun events system => events.countP Event.creates < 2 ^ 31 → Accounted events system)
    (fun _ => ⟨Dated.init memory, nofun, nofun⟩) ?_
  · exact invariant few
  · rintro events before event after holds ⟨step, spares⟩ few
    have fewer : events.countP Event.creates < 2 ^ 31 := by
      rw [List.countP_append] at few
      omega
    cases step with
    | call fresh => exact (holds fewer).call fresh (spares _ rfl) few
    | wait => exact (holds fewer).wait _ fewer
    | reuse written apart => exact (holds fewer).reuse apart

theorem Step.of_wait {event : Event} {pid : Int} {outcome : Option (Int × Option Int)} (step : Step system event after)
    (shape : event = .wait pid outcome) : (system.list.taskWait pid).1 = outcome ∧ after = system.afterWait pid := by
  cases step with
  | wait =>
    obtain ⟨rfl, same⟩ := Event.wait.inj shape
    exact ⟨same, rfl⟩
  | _ => cases shape

/-- When `task_wait` returns a child, that was a zombie child of the caller which
matches the argument, the status is the code of the latest `task_exit` on it, it
alone is taken off the list, and no `task_wait` returns it again. -/
theorem exit_status_delivered_once {memory : Word → Task} {front back : List Event} {last : Waiters} {pid child : Int}
    {status : Option Int} (run : Trace SparingStep (init memory) front system)
    (step : SparingStep system (.wait pid (some (child, status))) after) (valid : 0 ≤ child)
    (rest : Trace SparingStep after back last) (few : (front ++ back).countP Event.creates < 2 ^ 31) :
    (∃ current t, Delivered system after pid child status current t ∧ status = lastExit front (system.list.memory t).id ∧
        child = (system.list.memory t).id) ∧
      ∀ other code, Event.wait other (some (child, code)) ∉ back := by
  rw [List.countP_append] at few
  have accounted := Accounted.of_trace run (by omega)
  constructor
  · obtain ⟨result, rfl⟩ := step.1.of_wait rfl
    obtain ⟨current, t, delivered⟩ := delivered accounted.dated result valid
    refine ⟨current, t, delivered, ?_, ?_⟩
    · rw [delivered.status, accounted.exits t delivered.member delivered.zombie]
    · rw [← delivered.named]
      exact accounted.dated.pid_eq (by omega) delivered.member
  · intro other code again
    obtain ⟨between, later, before, next, shape, reach, second⟩ := rest.mem again
    have counts : back.countP Event.creates = between.countP Event.creates + later.countP Event.creates := by
      rw [shape, List.countP_append, List.countP_cons_of_neg (by simp [Event.creates])]
    have whole := Accounted.of_trace ((run.snoc step).append reach) (by
      rw [List.countP_append, List.countP_append, List.countP_singleton]
      simp only [Event.creates, Bool.false_eq_true, ↓reduceIte]
      omega)
    obtain ⟨result, rfl⟩ := second.1.of_wait rfl
    obtain ⟨current, t, twice⟩ := delivered whole.dated result valid
    obtain ⟨_, gone⟩ := whole.returned pid child status (by simp) valid
    exact gone t twice.member twice.named

theorem SparingStep.of_call {call : Call} (fresh : call.Fresh system.list) (other : Call.isWait call = false)
    (outside : call = .schedBlock → system.pending = none) (spared : call.victim system.list = none) :
    SparingStep system (.call call) (system.afterCall call) := by
  refine ⟨.call fresh other outside, ?_⟩
  rintro _ same _ same' victim found
  cases same
  cases same'
  rw [spared] at found
  cases found

/-- A child exits with code seven and its parent waits for any child. -/
theorem exit_status_delivered_seven :
    ∃ front system after, Trace SparingStep (init fun _ => cleared) front system ∧
      SparingStep system (.wait (-1) (some (2, some 7))) after ∧
      (∃ current t, Delivered system after (-1) 2 (some 7) current t) ∧ lastExit front 2 = some 7 := by
  let parent := (init fun _ => cleared).afterCall (.taskCreate ⟨16, 0x1000, 0⟩ 1 true)
  let child := (parent.afterCall .schedule).afterCall (.taskCreate ⟨32, 0x2000, 0⟩ 1 true)
  let exited := child.afterCall (.taskExit 2 7)
  have first : SparingStep (init fun _ => cleared) (.call (.taskCreate ⟨16, 0x1000, 0⟩ 1 true)) parent :=
    .of_call (by decide) rfl nofun rfl
  have starts : SparingStep parent (.call .schedule) (parent.afterCall .schedule) := .of_call (by decide) rfl nofun rfl
  have second : SparingStep (parent.afterCall .schedule) (.call (.taskCreate ⟨32, 0x2000, 0⟩ 1 true)) child :=
    .of_call (by decide) rfl nofun rfl
  have exits : SparingStep child (.call (.taskExit 2 7)) exited := .of_call (by decide) rfl nofun rfl
  have result : (exited.list.taskWait (-1)).1 = some (2, some 7) := by decide
  have reaps : SparingStep exited (.wait (-1) (some (2, some 7))) (exited.afterWait (-1)) :=
    ⟨result ▸ .wait (by decide), nofun⟩
  have run := (((Trace.nil.snoc first).snoc starts).snoc second).snoc exits
  obtain ⟨⟨current, t, delivered, _⟩, _⟩ := exit_status_delivered_once run reaps (by decide) .nil (by decide)
  exact ⟨_, _, _, run, reaps, ⟨current, t, delivered⟩, by decide⟩

end Waiters

end MexOS.Sched
