import MexOS.Sched.TaskMemory

/-! Who owns which part of the heap while tasks come and go: the structures and
stacks of the tasks on the list are allocations that nobody shares. -/

namespace MexOS.Sched

open MexOS.Machine MexOS.Mm

namespace TaskList

variable {list : TaskList} {allocations : Allocations}

theorem owned_congr {after : TaskList} (queue : after.queue = list.queue)
    (same : ∀ t ∈ list.queue, (after.memory t).stacks = (list.memory t).stacks) : after.owned = list.owned := by
  unfold owned
  rw [queue]
  apply List.flatMap_congr
  intro t member
  rw [same t member]

theorem Joined.owned {after : TaskList} (joined : Joined list after allocations)
    (fresh : allocations.task ∉ list.queue) : after.owned = allocations.owned ++ list.owned := by
  have rest : (list.queue.flatMap fun t => (after.memory t).stacks ++ [t]) = list.owned := by
    apply List.flatMap_congr
    intro t member
    rw [joined.kept t fun same => fresh (same ▸ member)]
  rw [TaskList.owned, joined.queue, List.flatMap_cons, rest, Task.stacks, joined.kernelStack, joined.userStack]
  rfl

theorem mem_owned {t : Word} (member : t ∈ list.queue) : t ∈ list.owned :=
  List.mem_flatMap.mpr ⟨t, member, by simp⟩

end TaskList

namespace TaskHeap

variable {range : HeapRange} {others : List Word} {state after : TaskHeap} {used : List (Nat × Nat)}
  {blocks new : List Block}

/-- The tasks own allocations of the heap, each one alone. -/
structure Owned (range : HeapRange) (others : List Word) (state : TaskHeap) (used : List (Nat × Nat))
    (blocks : List Block) : Prop where
  use : HeapUse range state.heap used blocks
  pointers : (used.map pointer).Perm (state.list.owned ++ others)
  anchored : state.list.Anchored
  kernelMode : ∀ t ∈ state.list.queue, (state.list.memory t).kernelMode = true →
    (state.list.memory t).userStack = 0

/-- The same tasks on the list and the same blocks in the heap. -/
structure Same (before after : TaskHeap) : Prop where
  queue : after.list.queue = before.list.queue
  tasks : ∀ t ∈ before.list.queue, after.list.memory t = before.list.memory t
  blocks : ∀ blocks, after.heap.Holds blocks ↔ before.heap.Holds blocks

namespace Owned

theorem mem_used (owned : Owned range others state used blocks) (member : t ∈ state.list.queue) :
    t ∈ used.map pointer := by
  rw [owned.pointers.mem_iff]
  exact List.mem_append_left _ (TaskList.mem_owned member)

theorem unjoined {list : TaskList} {heap : Heap} {t : Word} (owned : Owned range others state used blocks)
    (unjoined : TaskList.Unjoined state.list list t) (fresh : t = 0 ∨ t ∉ used.map pointer)
    (use : HeapUse range heap used blocks) : Owned range others ⟨list, heap⟩ used blocks := by
  have kept (u : Word) (member : u ∈ state.list.queue) : list.memory u = state.list.memory u := by
    apply unjoined.kept
    rcases fresh with null | fresh
    · exact .inl null
    · exact .inr fun same => fresh (same ▸ owned.mem_used member)
  refine ⟨use, ?_, ?_, ?_⟩
  · rw [TaskList.owned_congr unjoined.queue fun u member => by rw [kept u member]]
    exact owned.pointers
  · intro current running
    change current ∈ list.queue
    rw [unjoined.queue]
    exact owned.anchored current (unjoined.current ▸ running)
  · intro u member
    change u ∈ list.queue at member
    rw [unjoined.queue] at member
    change (list.memory u).kernelMode = true → (list.memory u).userStack = 0
    rw [kept u member]
    exact owned.kernelMode u member

theorem joined {list : TaskList} {heap : Heap} {allocations : Allocations} {taken : List (Nat × Nat)}
    (owned : Owned range others state used blocks) (joined : TaskList.Joined state.list list allocations)
    (pieces : taken.map pointer = allocations.owned) (use : HeapUse range heap (taken ++ used) new) :
    Owned range others ⟨list, heap⟩ (taken ++ used) new := by
  have apart := use.distinct
  rw [List.map_append, List.nodup_append] at apart
  have fresh : allocations.task ∉ state.list.queue := by
    intro member
    have here : allocations.task ∈ taken.map pointer := by
      rw [pieces]
      exact List.mem_append_right _ (List.mem_singleton_self _)
    exact apart.2.2 _ here _ (owned.mem_used member) rfl
  refine ⟨use, ?_, ?_, ?_⟩
  · rw [joined.owned fresh, List.map_append, pieces, List.append_assoc]
    exact owned.pointers.append_left _
  · intro current running
    change current ∈ list.queue
    rw [joined.queue]
    exact List.mem_cons_of_mem _ (owned.anchored current (joined.current ▸ running))
  · intro u member
    change u ∈ list.queue at member
    change (list.memory u).kernelMode = true → (list.memory u).userStack = 0
    rw [joined.queue] at member
    rcases List.mem_cons.mp member with here | old
    · rw [here, joined.userStack]
      exact joined.kernelMode
    · rw [joined.kept u fun same => fresh (same ▸ old)]
      exact owned.kernelMode u old

theorem scheduled (owned : Owned range others state used blocks) : Owned range others state.schedule used blocks := by
  have switched := state.list.schedule_switched
  have kernelStack (t : Word) : (state.list.schedule.memory t).kernelStack = (state.list.memory t).kernelStack := by
    rw [(switched.memory t).same]
  have userStack (t : Word) : (state.list.schedule.memory t).userStack = (state.list.memory t).userStack := by
    rw [(switched.memory t).same]
  refine ⟨owned.use, ?_, ?_, ?_⟩
  · change (used.map pointer).Perm (state.list.schedule.owned ++ others)
    rw [TaskList.owned_congr switched.queue fun t _ => by rw [Task.stacks, kernelStack, userStack, Task.stacks]]
    exact owned.pointers
  · intro current running
    change current ∈ state.list.schedule.queue
    rw [switched.queue]
    rcases switched.current with same | ⟨next, member, chosen⟩
    · exact owned.anchored current (same ▸ running)
    · obtain rfl : next = current := Option.some.inj (chosen.symm.trans running)
      exact member
  · intro t member
    change t ∈ state.list.schedule.queue at member
    change (state.list.schedule.memory t).kernelMode = true → (state.list.schedule.memory t).userStack = 0
    rw [switched.queue] at member
    rw [userStack, (switched.memory t).same]
    exact owned.kernelMode t member

/-- `task_destroy` gives back what the task owns. -/
theorem taskDestroy_eq (state : TaskHeap) {id : Nat} {t : Word} (found : state.list.victim id = some t)
    (stack : (state.list.memory t).kernelStack ≠ 0) :
    state.taskDestroy id = (state.heap.kfreeAll ((state.list.memory t).stacks ++ [t])).map
      fun heap => ⟨state.list.taskDestroy id, heap⟩ := by
  unfold taskDestroy
  simp only [found, stack, ne_eq, not_false_eq_true, ↓reduceIte, Option.bind_eq_bind]
  cases freed : state.heap.kfree (state.list.memory t).kernelStack with
  | none => simp [Task.stacks, Heap.kfreeAll, freed]
  | some heap =>
    by_cases user : (state.list.memory t).userStack = 0
    · simp only [user, not_true_eq_false, ↓reduceIte, Option.bind_some, Task.stacks, Heap.kfreeAll, freed,
        List.cons_append, List.nil_append]
      cases heap.kfree t <;> rfl
    · simp only [user, not_false_eq_true, ↓reduceIte, Option.bind_some, Task.stacks, Heap.kfreeAll, freed,
        List.cons_append, List.nil_append]
      cases heap.kfree (state.list.memory t).userStack with
      | none => rfl
      | some heap =>
        simp only [Option.bind_some]
        cases heap.kfree t <;> rfl

theorem kernelStack_ne_zero {t : Word} (owned : Owned range others state used blocks)
    (member : t ∈ state.list.queue) : (state.list.memory t).kernelStack ≠ 0 := by
  have listed : (state.list.memory t).kernelStack ∈ state.list.owned :=
    List.mem_flatMap.mpr ⟨t, member, by simp [Task.stacks]⟩
  obtain ⟨entry, inUse, same⟩ := List.mem_map.mp (owned.pointers.mem_iff.mpr (List.mem_append_left others listed))
  rw [← same]
  exact owned.use.pointer_ne_zero inUse

theorem destroyed {id : Nat} {t : Word} (owned : Owned range others state used blocks)
    (found : state.list.victim id = some t) (spared : state.list.currentTask ≠ some t) :
    ∃ after left new, state.taskDestroy id = some after ∧ Owned range others after left new := by
  obtain ⟨member, _⟩ := TaskList.first_some found
  have removed : state.list.taskDestroy id = { state.list with queue := state.list.queue.erase t } := by
    rcases state.list.taskDestroy_cases id with ⟨nothing, _⟩ | ⟨victim, same, erased⟩
    · rw [found] at nothing
      cases nothing
    · obtain rfl : t = victim := Option.some.inj (found.symm.trans same)
      exact erased
  have divided : state.list.owned.Perm
      ((state.list.memory t).stacks ++ [t] ++ (state.list.taskDestroy id).owned) := by
    rw [removed]
    exact (List.perm_cons_erase member).flatMap_right _
  have listed := owned.pointers.trans (divided.append_right others)
  rw [List.append_assoc] at listed
  obtain ⟨freed, left, parts, first, rest⟩ := HeapUse.split listed
  obtain ⟨heap, new, result, use⟩ := owned.use.kfreeAll parts
  rw [first] at result
  refine ⟨⟨state.list.taskDestroy id, heap⟩, left, new, ?_, use, ?_, ?_, ?_⟩
  · rw [taskDestroy_eq state found (owned.kernelStack_ne_zero member), result]
    rfl
  · rw [rest]
  · rw [removed]
    intro current running
    apply (List.mem_erase_of_ne _).mpr (owned.anchored current running)
    rintro rfl
    exact spared running
  · rw [removed]
    intro u present
    exact owned.kernelMode u (List.mem_of_mem_erase present)

end Owned

/-- How a call that asks for memory ends. -/
inductive Outcome (range : HeapRange) (others : List Word) (state : TaskHeap) (used : List (Nat × Nat))
    (blocks : List Block) (user : Bool) (allocations : Allocations) (after : TaskHeap) : Prop
  | refused : allocations.Lacks user → Same state after → Owned range others after used blocks →
    Outcome range others state used blocks user allocations after
  | created {taken : List (Nat × Nat)} {new : List Block} : ¬ allocations.Lacks user →
    TaskList.Joined state.list after.list allocations → taken.map pointer = allocations.owned →
    Owned range others after (taken ++ used) new → Outcome range others state used blocks user allocations after

theorem Outcome.of_supplied {list : TaskList} {heap : Heap} {allocations : Allocations} {user : Bool}
    (owned : Owned range others state used blocks) (supplied : Supplied range used blocks user allocations heap)
    (unjoined : allocations.Lacks user → TaskList.Unjoined state.list list allocations.task)
    (joined : ¬ allocations.Lacks user → (user = false → allocations.userStack = 0) →
      TaskList.Joined state.list list allocations) :
    Outcome range others state used blocks user allocations ⟨list, heap⟩ := by
  cases supplied with
  | refused lacks fresh use =>
    have unjoined := unjoined lacks
    refine .refused lacks ⟨unjoined.queue, ?_, ?_⟩ (owned.unjoined unjoined fresh use)
    · intro t member
      apply unjoined.kept
      rcases fresh with null | fresh
      · exact .inl null
      · exact .inr fun same => fresh (same ▸ owned.mem_used member)
    · intro some
      constructor
      · intro holds
        rw [← use.sound.holds.unique holds]
        exact owned.use.sound.holds
      · intro holds
        rw [← owned.use.sound.holds.unique holds]
        exact use.sound.holds
  | supplied whole plain pieces use =>
    have joined := joined whole plain
    exact .created whole joined pieces (owned.joined joined pieces use)

/-- The parent of a fork is not the structure that the child gets. -/
theorem Owned.ne_task {heap : Heap} {allocations : Allocations} {user : Bool} {t : Word}
    (owned : Owned range others state used blocks) (supplied : Supplied range used blocks user allocations heap)
    (member : t ∈ state.list.queue) : t ≠ allocations.task := by
  have inUse := owned.mem_used member
  rintro rfl
  cases supplied with
  | refused lacks fresh use =>
    rcases fresh with null | fresh
    · obtain ⟨entry, listed, same⟩ := List.mem_map.mp inUse
      exact owned.use.pointer_ne_zero listed (same.trans null)
    · exact fresh inUse
  | supplied whole plain pieces use =>
    have apart := use.distinct
    rw [List.map_append, List.nodup_append] at apart
    apply apart.2.2 _ _ _ inUse rfl
    rw [pieces]
    exact List.mem_append_right _ (List.mem_singleton_self _)

theorem forksUser_iff (state : TaskHeap) (current : Word) : state.forksUser current = true ↔
    ¬ (state.list.memory current).kernelMode ∧ (state.list.memory current).userStack ≠ 0 := by
  simp [forksUser]

/-- Every call that asks for memory returns. -/
theorem Call.outcome {call : Call} {content : Nat → Nat → Byte} {user : Bool}
    (owned : Owned range others state used blocks) (asks : call.request state = some (content, user)) :
    ∃ allocations after, call.allocations state = some (allocations, user) ∧ call.run state = some after ∧
      Outcome range others state used blocks user allocations after := by
  obtain ⟨allocations, heap, result, supplied⟩ := allocateTask_spec owned.use content user
  have gets : call.allocations state = some (allocations, user) := by
    simp [Call.allocations, asks, result]
  cases call with
  | taskCreate bytes priority kernelMode =>
    obtain ⟨rfl, rfl⟩ := Prod.mk.inj (Option.some.inj asks)
    refine ⟨allocations, ⟨(state.list.taskCreate allocations priority kernelMode).2, heap⟩, gets, ?_, ?_⟩
    · simp [Call.run, TaskHeap.taskCreate, result]
    · refine .of_supplied owned supplied ?_ ?_
      · intro lacks
        exact (TaskList.taskCreate_unjoined priority lacks).2
      · intro whole plain
        exact (TaskList.taskCreate_joined priority whole fun kernel => plain (by simp [kernel])).2
  | taskCreateUser bytes priority =>
    obtain ⟨rfl, rfl⟩ := Prod.mk.inj (Option.some.inj asks)
    refine ⟨allocations, ⟨(state.list.taskCreateUser allocations priority).2, heap⟩, gets, ?_, ?_⟩
    · simp [Call.run, TaskHeap.taskCreateUser, result]
    · refine .of_supplied owned supplied ?_ ?_
      · intro lacks
        exact (@TaskList.taskCreate_unjoined state.list allocations priority false lacks).2
      · intro whole plain
        exact (@TaskList.taskCreate_joined state.list allocations priority false whole fun kernel => by cases kernel).2
  | taskFork bytes =>
    obtain ⟨current, running, shape⟩ := Option.map_eq_some_iff.mp asks
    obtain ⟨rfl, rfl⟩ := Prod.mk.inj shape
    have member := owned.anchored current running
    have different := owned.ne_task supplied member
    have asked := state.forksUser_iff current
    refine ⟨allocations, ⟨(state.list.taskFork allocations).2, heap⟩, gets, ?_, ?_⟩
    · simp [Call.run, TaskHeap.taskFork, running, result]
    · refine .of_supplied owned supplied ?_ ?_
      · intro lacks
        exact (TaskList.taskFork_unjoined running different asked lacks).2
      · intro whole plain
        exact (TaskList.taskFork_joined running different asked whole plain (owned.kernelMode current member)).2
  | taskDestroy id => cases asks
  | schedule => cases asks

/-- A call that spares the current task returns and keeps the ownership. -/
theorem Call.keeps {call : Call} (owned : Owned range others state used blocks) (spares : call.Spares state) :
    ∃ after used new, call.run state = some after ∧ Owned range others after used new := by
  have created (content : Nat → Nat → Byte) (user : Bool) (asks : call.request state = some (content, user)) :
      ∃ after used new, call.run state = some after ∧ Owned range others after used new := by
    obtain ⟨allocations, after, _, result, outcome⟩ := Call.outcome owned asks
    cases outcome with
    | refused _ _ owned => exact ⟨after, _, _, result, owned⟩
    | created _ _ _ owned => exact ⟨after, _, _, result, owned⟩
  cases call with
  | taskCreate content priority kernelMode => exact created _ _ rfl
  | taskCreateUser content priority => exact created _ _ rfl
  | taskFork content =>
    cases running : state.list.currentTask with
    | none => exact ⟨state, used, blocks, by simp [Call.run, TaskHeap.taskFork, running], owned⟩
    | some current => exact created content (state.forksUser current) (by simp [Call.request, running])
  | taskDestroy id =>
    cases found : state.list.victim id with
    | none => exact ⟨state, used, blocks, by simp [Call.run, TaskHeap.taskDestroy, found], owned⟩
    | some t => exact owned.destroyed found (spares t found)
  | schedule => exact ⟨_, used, blocks, rfl, owned.scheduled⟩

theorem Owned.pushed {t stack : Word} {offset : Nat} (owned : Owned range others state used blocks)
    (member : t ∈ state.list.queue) (owns : stack ∈ (state.list.memory t).stacks)
    (inside : offset < (state.heap.size (stack - 12)).toNat) (value : Byte) :
    Owned range others { state with heap := { state.heap with
      memory := storeByte state.heap.memory (stack + BitVec.ofNat 32 offset) value } } used blocks := by
  have listed : stack ∈ state.list.owned := List.mem_flatMap.mpr ⟨t, member, List.mem_append_left _ owns⟩
  obtain ⟨⟨place, bytes⟩, inUse, rfl⟩ :=
    List.mem_map.mp (owned.pointers.mem_iff.mpr (List.mem_append_left others listed))
  obtain ⟨front, back, found, here⟩ := Block.mem_usedBlocks (owned.use.used.mem_iff.mp inUse)
  have amount : (state.heap.size (pointer (place, bytes) - 12)).toNat = bytes := by
    have sound := owned.use.sound
    rw [found] at sound
    rw [pointer, here]
    exact sound.payload_eq
  exact ⟨owned.use.store inUse (by omega) value, owned.pointers, owned.anchored, owned.kernelMode⟩

theorem Step.keeps (owned : Owned range others state used blocks) (step : Step state after) :
    ∃ used new, Owned range others after used new := by
  cases step with
  | call spares result =>
    obtain ⟨_, left, new, same, owned⟩ := Call.keeps owned spares
    obtain rfl := Option.some.inj (result.symm.trans same)
    exact ⟨left, new, owned⟩
  | push offset value member owns inside => exact ⟨used, blocks, owned.pushed member owns inside value⟩

/-- What a run over a heap in order gets to. -/
theorem run_owned {heap : Heap} (sound : HeapSound range ⟨heap, others⟩ blocks) (memory : Word → Task)
    (reach : Reachable Step (start memory heap) state) : ∃ used new, Owned range others state used new := by
  apply reach.invariant
  · obtain ⟨used, use, listed⟩ := HeapUse.exists_of_sound sound
    refine ⟨used, blocks, use, listed, ?_, ?_⟩
    · intro current running
      cases running
    · intro t member
      cases member
  · intro before after ⟨used, new, owned⟩ step
    exact step.keeps owned

/-- What was created is taken back by `task_destroy` with its id. -/
theorem Owned.restored {allocations : Allocations} {taken : List (Nat × Nat)}
    (owned : Owned range others state used blocks) (joined : TaskList.Joined state.list after.list allocations)
    (pieces : taken.map pointer = allocations.owned) (later : Owned range others after (taken ++ used) new) :
    ∃ back, after.taskDestroy (after.list.memory allocations.task).id = some back ∧ Same state back := by
  have found : after.list.victim (after.list.memory allocations.task).id = some allocations.task := by
    rw [TaskList.victim, TaskList.first, joined.queue]
    exact List.find?_cons_of_pos (by simp)
  have member : allocations.task ∈ after.list.queue := by
    rw [joined.queue]
    exact List.mem_cons_self
  have claims : (after.list.memory allocations.task).stacks ++ [allocations.task] = taken.map pointer := by
    rw [pieces, Task.stacks, joined.kernelStack, joined.userStack]
    rfl
  obtain ⟨heap, left, freed, use⟩ := later.use.kfreeAll (.refl _)
  rw [← claims] at freed
  have apart := later.use.distinct
  rw [List.map_append, List.nodup_append] at apart
  refine ⟨⟨after.list.taskDestroy (after.list.memory allocations.task).id, heap⟩, ?_, ?_, ?_, ?_⟩
  · rw [Owned.taskDestroy_eq after found (later.kernelStack_ne_zero member), freed]
    rfl
  · change after.list.queue.eraseP _ = state.list.queue
    rw [joined.queue, List.eraseP_cons_of_pos (by simp)]
  · intro t present
    apply joined.kept
    rintro rfl
    apply apart.2.2 _ _ _ (owned.mem_used present) rfl
    rw [← claims]
    exact List.mem_append_right _ (List.mem_singleton_self _)
  · intro some
    have same := owned.use.determined use (.refl _)
    subst same
    constructor
    · intro holds
      rw [← use.sound.holds.unique holds]
      exact owned.use.sound.holds
    · intro holds
      rw [← owned.use.sound.holds.unique holds]
      exact use.sound.holds

/-- In every run the tasks on the list own what they point to: their structures
and stacks are allocations of the heap, no two the same. A call that does not
get all its memory leaves the list and the blocks of the heap as they were, and
so does a call that does when `task_destroy` follows. -/
theorem task_memory_owned {heap : Heap} (sound : HeapSound range ⟨heap, others⟩ blocks) (memory : Word → Task)
    (reach : Reachable Step (start memory heap) state) :
    (∃ blocks, state.heap.Holds blocks ∧ state.list.owned.Nodup ∧ ∀ p ∈ state.list.owned, p ∉ others ∧
      ∃ place ∈ Block.usedAddresses 12 range.start.toNat blocks, p = payloadOf place) ∧
    (∀ call : Call, call.Spares state → (call.run state).isSome) ∧
    ∀ (call : Call) allocations user, call.allocations state = some (allocations, user) →
      (allocations.Lacks user → ∃ after, call.run state = some after ∧ Same state after) ∧
      (¬ allocations.Lacks user → ∃ t after back, call.run state = some after ∧
        after.list.queue = t :: state.list.queue ∧ after.taskDestroy (after.list.memory t).id = some back ∧
        Same state back) := by
  obtain ⟨used, new, owned⟩ := run_owned sound memory reach
  refine ⟨⟨new, owned.use.sound.holds, ?_, ?_⟩, ?_, ?_⟩
  · have apart := owned.pointers.nodup_iff.mp owned.use.distinct
    exact (List.nodup_append.mp apart).1
  · intro p member
    have apart := List.nodup_append.mp (owned.pointers.nodup_iff.mp owned.use.distinct)
    refine ⟨fun foreign => apart.2.2 p member p foreign rfl, ?_⟩
    obtain ⟨entry, inUse, same⟩ := List.mem_map.mp (owned.pointers.mem_iff.mpr (List.mem_append_left others member))
    refine ⟨entry.1, ?_, same.symm⟩
    rw [← Block.map_usedBlocks]
    exact List.mem_map_of_mem (owned.use.used.mem_iff.mp inUse)
  · intro call spares
    obtain ⟨after, _, _, result, _⟩ := Call.keeps owned spares
    rw [result]
    rfl
  · intro call allocations user gets
    obtain ⟨⟨content, asked⟩, asks, answered⟩ := Option.bind_eq_some_iff.mp gets
    obtain ⟨others, after, same, result, outcome⟩ := Call.outcome owned asks
    obtain ⟨rfl, rfl⟩ := Prod.mk.inj (Option.some.inj (gets.symm.trans same))
    cases outcome with
    | refused lacks unchanged _ => exact ⟨fun _ => ⟨after, result, unchanged⟩, fun whole => absurd lacks whole⟩
    | created whole joined pieces later =>
      obtain ⟨back, destroyed, unchanged⟩ := owned.restored joined pieces later
      exact ⟨fun lacks => absurd lacks whole, fun _ => ⟨_, after, back, result, joined.queue, destroyed, unchanged⟩⟩

theorem megabyte_aligned : (0x400000 : Word).toNat % 4 = 0 := by decide

/-- A heap of one megabyte. -/
def megabyte : HeapRange where
  start := 0x400000
  size := 0x100000
  positive := by decide
  startAligned := megabyte_aligned
  sizeAligned := by decide
  least := by decide
  inside := by decide

/-- A kernel task is created over the heap that `heap_init` leaves. -/
theorem task_memory_owned_kernel_task :
    ∃ after, (Call.taskCreate (fun _ _ => 0) 5 true).run
        (start (fun _ => TaskList.cleared) (HeapClients.start megabyte fun _ => 0).heap) = some after ∧
      after.list.owned.Nodup := by
  have sound := HeapSound.initial megabyte fun _ => 0
  have returns := (task_memory_owned sound (fun _ => TaskList.cleared) .refl).2.1
    (.taskCreate (fun _ _ => 0) 5 true) trivial
  obtain ⟨after, result⟩ := Option.isSome_iff_exists.mp returns
  obtain ⟨⟨_, _, apart, _⟩, _⟩ := task_memory_owned sound (fun _ => TaskList.cleared)
    (.single (@Step.call _ _ (.taskCreate (fun _ _ => 0) 5 true) trivial result))
  exact ⟨after, result, apart⟩

end TaskHeap

end MexOS.Sched
