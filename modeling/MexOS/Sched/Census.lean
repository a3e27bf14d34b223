import MexOS.Sched.Fate

/-! Tasks that have exited. `task_exit` makes a zombie, but nothing in a task says
later that it has exited: a wake-up makes any task ready. -/

namespace MexOS.Sched

open MexOS.Machine TaskList

/-- `exited` marks the structures whose task `task_exit` has ended. -/
structure Census where
  list : TaskList
  exited : Word → Bool

namespace Census

def init (memory : Word → Task) : Census := ⟨TaskList.init memory, fun _ => false⟩

/-- Who has exited after a call; a new task has not. -/
def exitedAfter (census : Census) : Call → Word → Bool
  | .taskExit id _ =>
    match census.list.first fun task => task.id = id with
    | none => census.exited
    | some t => Function.update census.exited t true
  | call =>
    match call.allocations with
    | none => census.exited
    | some memory => Function.update census.exited memory.task false

def run (census : Census) (call : Call) : Census := ⟨call.run census.list, census.exitedAfter call⟩

/-- No task on the list that has exited is ready or running. -/
def Dead (census : Census) : Prop :=
  ∀ t ∈ census.list.queue, census.exited t = true →
    (census.list.memory t).state ≠ .ready ∧ (census.list.memory t).state ≠ .running

/-- The call makes nobody ready who has exited. -/
def Lets (census : Census) (call : Call) : Prop := ∀ t, call.wakes census.list = some t → census.exited t = false

variable {census : Census} {call : Call} {t : Word}

theorem wakes_mem {list : TaskList} (woken : call.wakes list = some t) : t ∈ list.queue := by
  cases call with
  | schedUnblock id =>
    simp only [Call.wakes] at woken
    exact (first_some woken).1
  | taskExit id exitCode =>
    simp only [Call.wakes] at woken
    obtain ⟨z, _, woken⟩ := Option.bind_eq_some_iff.mp woken
    exact (first_some (Option.filter_eq_some_iff.mp woken).1).1
  | _ => cases woken

/-- Somebody who is awake after a call was awake before, or is woken by it. -/
theorem awake_of_fate {list : TaskList} {old new : Task} (fate : Fate list call t old new)
    (awake : new.state = .ready ∨ new.state = .running) :
    (old.state = .ready ∨ old.state = .running) ∨ call.wakes list = some t := by
  cases fate with
  | turned turned =>
    left
    rcases turned.state with same | ⟨before, _⟩
    · rwa [same] at awake
    · exact before
  | exits =>
    rcases awake with impossible | impossible <;> cases impossible
  | wakes woken => exact .inr woken
  | sleeps _ sleeps turned =>
    exfalso
    cases sleeps with
    | blocked =>
      rcases turned.state with same | ⟨impossible | impossible, _⟩
      · rw [same] at awake
        rcases awake with impossible | impossible <;> cases impossible
      · cases impossible
      · cases impossible
    | waiting =>
      rcases turned.state with same | ⟨impossible | impossible, _⟩
      · rw [same] at awake
        rcases awake with impossible | impossible <;> cases impossible
      · cases impossible
      · cases impossible

/-- Whom a call wakes is ready after it. -/
theorem wakes_ready {list : TaskList} (woken : call.wakes list = some t) : ((call.run list).memory t).state = .ready := by
  cases call with
  | schedUnblock id =>
    change ((list.schedUnblock id).memory t).state = .ready
    rw [schedUnblock_memory, if_pos woken]
  | taskExit id exitCode =>
    have known := woken
    simp only [Call.wakes] at known
    obtain ⟨z, found, known⟩ := Option.bind_eq_some_iff.mp known
    have other := (Option.filter_eq_some_iff.mp known).2
    rw [decide_eq_true_eq] at other
    change ((list.taskExit id exitCode).memory t).state = .ready
    rw [taskExit_memory found, if_neg other.1, if_pos woken]
  | _ => cases woken

theorem wakes_stays {list : TaskList} (woken : call.wakes list = some t) : t ∈ (call.run list).queue := by
  have member := wakes_mem woken
  cases call.shape list with
  | kept _ queue => exact queue ▸ member
  | linked _ _ queue =>
    rw [queue]
    exact List.mem_cons_of_mem _ member
  | removed found =>
    cases call with
    | taskDestroy => cases woken
    | cmdKill => cases woken
    | taskWait => cases woken
    | _ => cases found

/-- Who has exited is never forgotten while the task is on the list, and only
`task_exit` adds to it. -/
theorem exitedAfter_cases (fresh : call.Fresh census.list) (member : t ∈ census.list.queue) :
    (census.exitedAfter call t = census.exited t) ∨ ∃ id exitCode, call = .taskExit id exitCode ∧
      (census.list.first fun task => task.id = id) = some t ∧ census.exitedAfter call t = true := by
  have created (memory : Allocations) (allocates : call.allocations = some memory) :
      Function.update census.exited memory.task false t = census.exited t := by
    rw [Function.update_of_ne]
    rintro rfl
    exact fresh memory allocates member
  cases call with
  | taskExit id exitCode =>
    cases found : census.list.first fun task => task.id = id with
    | none => simp [exitedAfter, found]
    | some z =>
      by_cases here : t = z
      · subst here
        exact .inr ⟨id, exitCode, rfl, found, by simp [exitedAfter, found]⟩
      · simp [exitedAfter, found, here]
  | taskCreate allocations => exact .inl (created allocations rfl)
  | taskCreateUser allocations => exact .inl (created allocations rfl)
  | taskFork allocations => exact .inl (created allocations rfl)
  | _ => exact .inl rfl

theorem exitedAfter_newborn {memory : Allocations} (allocates : call.allocations = some memory) :
    census.exitedAfter call memory.task = false := by
  cases call with
  | taskCreate =>
    cases allocates
    simp [exitedAfter, Call.allocations]
  | taskCreateUser =>
    cases allocates
    simp [exitedAfter, Call.allocations]
  | taskFork =>
    cases allocates
    simp [exitedAfter, Call.allocations]
  | _ => cases allocates

/-- A call keeps the dead dead exactly if it lets them lie. -/
theorem Dead.run_iff (dead : census.Dead) (fresh : call.Fresh census.list) :
    (census.run call).Dead ↔ census.Lets call := by
  constructor
  · intro still t woken
    cases exited : census.exited t with
    | false => rfl
    | true =>
      exfalso
      have present := wakes_mem woken
      have marked : census.exitedAfter call t = true := by
        rcases exitedAfter_cases fresh present with same | ⟨_, _, _, _, marked⟩
        · rw [same, exited]
        · exact marked
      exact (still t (wakes_stays woken) marked).1 (wakes_ready woken)
  · intro lets t member exited
    change ((call.run census.list).memory t).state ≠ .ready ∧ ((call.run census.list).memory t).state ≠ .running
    rcases Call.member member with old | ⟨memory, allocates, here, _⟩
    · rcases exitedAfter_cases fresh old with same | ⟨id, exitCode, exits, found, _⟩
      · have known : census.exited t = true := same.symm.trans exited
        have asleep := dead t old known
        rw [← not_or]
        intro awake
        rcases awake_of_fate (call.fate fresh old) awake with before | woken
        · exact not_or.mpr asleep before
        · rw [lets t woken] at known
          cases known
      · subst exits
        change ((census.list.taskExit id exitCode).memory t).state ≠ .ready ∧
          ((census.list.taskExit id exitCode).memory t).state ≠ .running
        rw [taskExit_memory found, if_pos rfl]
        simp
    · subst here
      have unmarked := @exitedAfter_newborn census call memory allocates
      change census.exitedAfter call memory.task = true at exited
      rw [unmarked] at exited
      cases exited

end Census

end MexOS.Sched
