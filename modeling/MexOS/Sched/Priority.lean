import MexOS.Sched.TaskList
import Mathlib.Logic.Function.Iterate

/-! Who gets the processor from `schedule`. The task that gives it up is not
among those that `pick_next_task` looks at, so it may wait behind a task of lower
priority, and equal tasks do not take turns once there are three of them. -/

namespace MexOS.Sched.TaskList

open MexOS.Machine

variable {list before : TaskList}

theorem Call.run_of_schedules {call : Call} (calls : call.schedules list = some before) :
    call.run list = before.schedule := by
  cases call with
  | schedBlock =>
    obtain ⟨current, running, marked⟩ := Option.map_eq_some_iff.mp calls
    rw [← marked]
    simp only [run, TaskList.schedBlock, running]
  | schedTick =>
    simp only [schedules, Option.ite_none_right_eq_some, Option.some.injEq] at calls
    obtain ⟨expired, same⟩ := calls
    rw [← same]
    simp only [run, TaskList.schedTick, expired, ↓reduceIte]
  | taskWait pid =>
    obtain ⟨current, running, turn⟩ := Option.bind_eq_some_iff.mp calls
    simp only [run, TaskList.taskWait, running]
    split at turn
    · cases turn
    · rw [Option.some.inj turn]
  | schedYield =>
    rw [← Option.some.inj calls]
    rfl
  | schedule =>
    rw [← Option.some.inj calls]
    rfl
  | _ => cases calls

/-- A task that runs is at least as urgent as every ready task. -/
def Respected (list : TaskList) : Prop :=
  ∀ current, list.currentTask = some current → (list.memory current).state = .running →
    ∀ t ∈ list.queue, (list.memory t).state = .ready → (list.memory t).priority ≤ (list.memory current).priority

/-- If the running task has to give way to a ready one, then some ready task is
at least as urgent as it is. -/
def Challenged (list : TaskList) : Prop :=
  ∀ current, list.currentTask = some current → current ∈ list.queue → (list.memory current).state = .running →
    (∃ t ∈ list.queue, (list.memory t).state = .ready) →
      ∃ t ∈ list.queue, (list.memory t).state = .ready ∧ (list.memory current).priority ≤ (list.memory t).priority

/-- After a switch the ready tasks are those from before without the picked one,
and the task that ran. -/
theorem Picks.respected_iff (picks : list.Picks next) :
    (list.demote.promote next).Respected ↔ ∀ current, list.currentTask = some current → current ∈ list.queue →
      (list.memory current).state = .running → (list.memory current).priority ≤ (list.memory next).priority := by
  have queue : (list.demote.promote next).queue = list.queue := list.demote_queue
  have priority (t : Word) : ((list.demote.promote next).memory t).priority = (list.memory t).priority := by
    rw [promote_memory next t picks.ready]
    split
    · rfl
    · split <;> rfl
  constructor
  · intro respected current running member runs
    have different : current ≠ next := by
      rintro rfl
      rw [picks.ready] at runs
      cases runs
    have ready : ((list.demote.promote next).memory current).state = .ready := by
      rw [promote_memory next current picks.ready, if_neg different, if_pos ⟨running, runs⟩]
    have promoted : ((list.demote.promote next).memory next).state = .running := by
      rw [promote_memory next next picks.ready, if_pos rfl]
    have upper := respected next rfl promoted current (queue ▸ member) ready
    rwa [priority, priority] at upper
  · intro outgoing current running _ t member ready
    obtain rfl : next = current := Option.some.inj running
    rw [queue] at member
    rw [priority, priority]
    rw [promote_memory next t picks.ready] at ready
    split at ready
    · cases ready
    · split at ready
      · next ran => exact outgoing t ran.1 member ran.2
      · exact picks.best t member ready

/-- Whenever a call runs `schedule`, the task it leaves running is at least as
urgent as every ready task exactly if the task that gave up the processor was
not the most urgent one. -/
theorem priority_respected_iff {call : Call} (calls : call.schedules list = some before) :
    (call.run list).Respected ↔ before.Challenged := by
  rw [Call.run_of_schedules calls]
  rcases before.schedule_cases with ⟨same, none⟩ | ⟨next, picks, switched⟩
  · rw [same]
    refine ⟨?_, ?_⟩
    · rintro _ current _ _ _ ⟨t, member, ready⟩
      exact absurd ready (none t member)
    · intro _ current _ _ t member ready
      exact absurd ready (none t member)
  · rw [switched, picks.respected_iff]
    constructor
    · intro outgoing current running member runs _
      exact ⟨next, picks.member, picks.ready, outgoing current running member runs⟩
    · intro challenged current running member runs
      obtain ⟨t, present, ready, upper⟩ := challenged current running member runs ⟨next, picks.member, picks.ready⟩
      exact Nat.le_trans upper (picks.best t present ready)

def twoPriorities : List Call :=
  [.taskCreate ⟨16, 0x1000, 0⟩ 5 true, .schedule, .taskCreate ⟨32, 0x2000, 0⟩ 1 true]

theorem priority_respected_equal_tasks :
    ∃ list, (init fun _ => cleared).runAll [.taskCreate ⟨16, 0x1000, 0⟩ 5 true, .schedule,
        .taskCreate ⟨32, 0x2000, 0⟩ 5 true] = some list ∧
      (Call.run list .schedYield).currentTask = some 32 ∧ (Call.run list .schedYield).Respected := by
  refine ⟨_, rfl, by decide, (priority_respected_iff rfl).mpr ?_⟩
  intro current running _ _ _
  obtain rfl : (16 : Word) = current := Option.some.inj running
  exact ⟨32, by decide, by decide, by decide⟩

/-- A yield hands the processor from priority five to priority one. -/
theorem priority_not_respected : ∃ list, Trace Step (init fun _ => cleared) (twoPriorities.map some) list ∧
      ¬ (Call.run list .schedYield).Respected := by
  refine ⟨_, runAll_reaches rfl, ?_⟩
  intro respected
  have wrong := respected 32 (by decide) (by decide) 16 (by decide) (by decide)
  revert wrong
  decide

/-- `k` tasks of one priority, one of them running as the current task and the
others ready. -/
structure Equals (list : TaskList) (k : Nat) : Prop where
  length : list.queue.length = k
  distinct : list.queue.Nodup
  level : ∃ priority, ∀ t ∈ list.queue, (list.memory t).priority = priority
  turn : ∃ current ∈ list.queue, list.currentTask = some current ∧ (list.memory current).state = .running ∧
    ∀ t ∈ list.queue, t ≠ current → (list.memory t).state = .ready

/-- Each task of the list is current after exactly one of the next `k` calls. -/
def RoundRobin (list : TaskList) (k : Nat) : Prop :=
  ∀ t ∈ list.queue, ∃! call, call < k ∧ (schedule^[call + 1] list).currentTask = some t

theorem foldl_better_level {queue : List Word} {found : Word}
    (level : ∀ t ∈ queue, (list.memory t).priority = (list.memory found).priority) :
    queue.foldl list.better (some found) = some found := by
  induction queue with
  | nil => rfl
  | cons head rest ih =>
    have equal := level head List.mem_cons_self
    have kept : list.better (some found) head = some found := by
      simp only [better, equal, gt_iff_lt, Nat.lt_irrefl, ↓reduceIte, ite_self]
    rw [List.foldl_cons, kept]
    exact ih fun t member => level t (List.mem_cons_of_mem _ member)

/-- Among equals the first ready task of the list is picked. -/
theorem foldl_better_first {queue : List Word} {priority : Nat}
    (level : ∀ t ∈ queue, (list.memory t).priority = priority) :
    queue.foldl list.better none = queue.find? fun t => (list.memory t).state = .ready := by
  induction queue with
  | nil => rfl
  | cons head rest ih =>
    have levelRest (t : Word) (member : t ∈ rest) := level t (List.mem_cons_of_mem _ member)
    rw [List.foldl_cons, List.find?_cons]
    by_cases ready : (list.memory head).state = .ready
    · have taken : list.better none head = some head := by simp only [better, ready, ↓reduceIte]
      simp only [taken, ready, decide_true]
      apply foldl_better_level
      intro t member
      rw [levelRest t member, level head List.mem_cons_self]
    · have passed : list.better none head = none := by simp only [better, ready, ↓reduceIte]
      simp only [passed, ready, decide_false]
      exact ih levelRest

/-- The first two tasks of the list hand the processor to each other; whoever
else has it gives it to the first. -/
theorem Equals.switch (equals : list.Equals k) {a b : Word} {rest : List Word} (shape : list.queue = a :: b :: rest) :
    list.schedule.Equals k ∧ list.schedule.currentTask = some (if list.currentTask = some a then b else a) := by
  obtain ⟨priority, level⟩ := equals.level
  obtain ⟨current, member, running, runs, others⟩ := equals.turn
  have distinct := equals.distinct
  have picked : list.pickNextTask = some (if list.currentTask = some a then b else a) := by
    rw [pickNextTask, foldl_better_first level, shape, List.find?_cons]
    rw [shape, List.nodup_cons] at distinct
    by_cases same : current = a
    · have ready : (list.memory b).state = .ready := by
        refine others b (by simp [shape]) ?_
        rintro rfl
        exact distinct.1 (same ▸ List.mem_cons_self)
      rw [same] at running runs
      simp [running, runs, ready]
    · have ready := others a (by simp [shape]) (Ne.symm same)
      simp [running, ready, same]
  generalize (if list.currentTask = some a then b else a) = next at picked
  rcases list.schedule_cases with ⟨_, none⟩ | ⟨other, picks, switched⟩
  · rcases list.pickNextTask_cases with ⟨nothing, _⟩ | ⟨other, picks⟩
    · rw [picked] at nothing
      cases nothing
    · exact absurd picks.ready (none other picks.member)
  · obtain rfl : next = other := Option.some.inj (picked.symm.trans picks.picked)
    have memory (t : Word) := promote_memory next t picks.ready
    rw [switched]
    have queue : (list.demote.promote next).queue = list.queue := list.demote_queue
    refine ⟨⟨?_, ?_, ⟨priority, ?_⟩, next, ?_, rfl, ?_, ?_⟩, rfl⟩
    · rw [queue, equals.length]
    · rw [queue]
      exact equals.distinct
    · intro t present
      rw [queue] at present
      rw [memory t, ← level t present]
      split
      · rfl
      · split <;> rfl
    · rw [queue]
      exact picks.member
    · rw [memory next, if_pos rfl]
    · intro t present different
      rw [queue] at present
      rw [memory t, if_neg different]
      split
      · rfl
      · next idle =>
        apply others t present
        rintro rfl
        exact idle ⟨running, runs⟩

theorem Equals.iterate (equals : list.Equals k) {a b : Word} {rest : List Word} (shape : list.queue = a :: b :: rest)
    (calls : Nat) : (schedule^[calls] list).Equals k ∧ (schedule^[calls] list).queue = a :: b :: rest := by
  induction calls with
  | zero => exact ⟨equals, shape⟩
  | succ calls ih =>
    rw [Function.iterate_succ_apply']
    exact ⟨(ih.1.switch ih.2).1, (schedule_queue _).trans ih.2⟩

/-- The processor never gets past the second task of the list. -/
theorem Equals.current_after (equals : list.Equals k) {a b : Word} {rest : List Word}
    (shape : list.queue = a :: b :: rest) (calls : Nat) :
    (schedule^[calls + 1] list).currentTask = some a ∨ (schedule^[calls + 1] list).currentTask = some b := by
  obtain ⟨still, same⟩ := equals.iterate shape calls
  rw [Function.iterate_succ_apply', (still.switch same).2]
  split
  · exact .inr rfl
  · exact .inl rfl

theorem Equals.alone (equals : list.Equals k) {a : Word} (shape : list.queue = [a]) :
    list.schedule = list ∧ list.currentTask = some a := by
  obtain ⟨current, member, running, runs, _⟩ := equals.turn
  rw [shape, List.mem_singleton] at member
  subst member
  refine ⟨?_, running⟩
  rcases list.schedule_cases with ⟨same, _⟩ | ⟨next, picks, _⟩
  · exact same
  · have ready := picks.ready
    have only := picks.member
    rw [shape, List.mem_singleton] at only
    rw [only, runs] at ready
    cases ready

theorem Equals.pair (equals : list.Equals k) {a b : Word} (shape : list.queue = [a, b]) :
    ∃ current other, current ≠ other ∧ (∀ t ∈ list.queue, t = current ∨ t = other) ∧
      list.schedule.currentTask = some other ∧ list.schedule.schedule.currentTask = some current := by
  have distinct : a ≠ b := by simpa [shape] using equals.distinct
  obtain ⟨after, once⟩ := equals.switch shape
  have twice := (after.switch ((schedule_queue list).trans shape)).2
  obtain ⟨current, present, running, _⟩ := equals.turn
  rw [shape] at present
  rw [once, running] at twice
  rw [running] at once
  rcases List.mem_pair.mp present with rfl | rfl
  · refine ⟨current, b, distinct, ?_, by simpa using once, ?_⟩
    · intro t member
      simpa [shape] using member
    · simpa [Ne.symm distinct] using twice
  · refine ⟨current, a, Ne.symm distinct, ?_, ?_, ?_⟩
    · intro t member
      rw [shape] at member
      exact (List.mem_pair.mp member).symm
    · simpa [Ne.symm distinct] using once
    · simpa [Ne.symm distinct] using twice

/-- Equal tasks take turns exactly if there are at most two of them. -/
theorem round_robin_iff (equals : list.Equals k) : list.RoundRobin k ↔ k ≤ 2 := by
  have length := equals.length
  cases shape : list.queue with
  | nil =>
    obtain ⟨_, member, _⟩ := equals.turn
    rw [shape] at member
    cases member
  | cons a rest =>
    cases rest with
    | nil =>
      rw [shape] at length
      obtain rfl : 1 = k := length
      refine ⟨fun _ => by decide, ?_⟩
      intro _ t member
      obtain ⟨same, running⟩ := equals.alone shape
      rw [shape, List.mem_singleton] at member
      subst member
      refine ⟨0, ⟨by decide, ?_⟩, fun call early => Nat.lt_one_iff.mp early.1⟩
      change list.schedule.currentTask = some t
      rw [same, running]
    | cons b rest =>
      cases rest with
      | nil =>
        rw [shape] at length
        obtain rfl : 2 = k := length
        refine ⟨fun _ => Nat.le_refl _, ?_⟩
        intro _ t member
        obtain ⟨current, other, different, both, first, second⟩ := equals.pair shape
        rcases both t member with rfl | rfl
        · refine ⟨1, ⟨by decide, second⟩, ?_⟩
          rintro call ⟨early, hit⟩
          rcases (by omega : call = 0 ∨ call = 1) with rfl | rfl
          · have same : some other = some t := first.symm.trans hit
            exact absurd (Option.some.inj same).symm different
          · rfl
        · refine ⟨0, ⟨by decide, first⟩, ?_⟩
          rintro call ⟨early, hit⟩
          rcases (by omega : call = 0 ∨ call = 1) with rfl | rfl
          · rfl
          · have same : some current = some t := second.symm.trans hit
            exact absurd (Option.some.inj same) different
      | cons c rest =>
        rw [shape] at length
        simp only [List.length_cons] at length
        refine ⟨?_, fun few => absurd few (by omega)⟩
        -- the third task is never current
        intro turns
        exfalso
        have distinct := equals.distinct
        rw [shape] at distinct
        simp only [List.nodup_cons, List.mem_cons, not_or] at distinct
        obtain ⟨call, ⟨_, hit⟩, _⟩ := turns c (by simp [shape])
        rcases equals.current_after shape call with first | second
        · rw [hit, Option.some.injEq] at first
          exact distinct.1.2.1 first.symm
        · rw [hit, Option.some.injEq] at second
          exact distinct.2.1.1 second.symm

def equalTasks (count : Nat) : List Call :=
  (List.range count).map (fun place => .taskCreate ⟨BitVec.ofNat 32 (16 * (place + 1)), 0x1000, 0⟩ 1 true) ++ [.schedule]

def equalList (count : Nat) : TaskList :=
  ((init fun _ => cleared).runAll (equalTasks count)).getD (init fun _ => cleared)

theorem round_robin_two_tasks :
    Trace Step (init fun _ => cleared) ((equalTasks 2).map some) (equalList 2) ∧
      (equalList 2).Equals 2 ∧ (equalList 2).RoundRobin 2 := by
  have queue : (equalList 2).queue = [32, 16] := rfl
  have equals : (equalList 2).Equals 2 := by
    refine ⟨by decide, by decide, ⟨1, ?_⟩, 32, by decide, by decide, by decide, ?_⟩
    · simp only [queue, List.forall_mem_cons]
      exact ⟨rfl, rfl, nofun⟩
    · simp only [queue, List.forall_mem_cons]
      exact ⟨by decide, fun _ => rfl, nofun⟩
  exact ⟨runAll_reaches rfl, equals, (round_robin_iff equals).mpr (Nat.le_refl _)⟩

/-- Of three tasks the one that was created first is never scheduled again. -/
theorem round_robin_starves_third :
    Trace Step (init fun _ => cleared) ((equalTasks 3).map some) (equalList 3) ∧
      (equalList 3).Equals 3 ∧ ¬ (equalList 3).RoundRobin 3 := by
  have queue : (equalList 3).queue = [48, 32, 16] := rfl
  refine ⟨runAll_reaches rfl, ⟨by decide, by decide, ⟨1, ?_⟩, 48, by decide, by decide, by decide, ?_⟩, ?_⟩
  · simp only [queue, List.forall_mem_cons]
    exact ⟨rfl, rfl, rfl, nofun⟩
  · simp only [queue, List.forall_mem_cons]
    exact ⟨by decide, fun _ => rfl, fun _ => rfl, nofun⟩
  · intro turns
    obtain ⟨call, ⟨early, hit⟩, _⟩ := turns 16 (by decide)
    rcases (by omega : call = 0 ∨ call = 1 ∨ call = 2) with rfl | rfl | rfl
    · revert hit
      decide
    · revert hit
      decide
    · revert hit
      decide

end MexOS.Sched.TaskList
