import MexOS.Mm.HeapUse
import MexOS.Sched.CurrentTask

/-! The memory of the tasks: `task_create`, `task_create_user` and `task_fork`
take structures and stacks from the heap, and `task_destroy` gives them back. -/

namespace MexOS.Sched

open MexOS.Machine MexOS.Mm

/-- `sizeof(struct task)` -/
def taskBytes : Nat := 100

/-- `KERNEL_STACK_SIZE` and `USER_STACK_SIZE` -/
def stackBytes : Nat := 0x4000

/-- The memory of a new task, asked for in the order of `task_create`,
`task_create_user` and `task_fork`; after a failure they give back what they
have. `content` is what the calls have stored behind their pointers at each
point, where the bytes they leave alone count as stored again. -/
def allocateTask (heap : Heap) (content : Nat → Nat → Byte) (user : Bool) : Option (Allocations × Heap) := do
  let (t, heap) ← heap.kmalloc (BitVec.ofNat 32 taskBytes)
  if t = 0 then some (⟨0, 0, 0⟩, heap)
  else
    let heap := heap.fill t (content 0) taskBytes
    let (kernelStack, heap) ← heap.kmalloc (BitVec.ofNat 32 stackBytes)
    let heap := heap.fill t (content 1) taskBytes
    if kernelStack = 0 then
      let heap ← heap.kfree t
      some (⟨t, 0, 0⟩, heap)
    else
      let heap := heap.fill kernelStack (content 2) stackBytes
      if user then
        let (userStack, heap) ← heap.kmalloc (BitVec.ofNat 32 stackBytes)
        let heap := heap.fill t (content 3) taskBytes
        if userStack = 0 then
          let heap ← heap.kfree kernelStack
          let heap ← heap.kfree t
          some (⟨t, kernelStack, 0⟩, heap)
        else
          let heap := (heap.fill kernelStack (content 4) stackBytes).fill userStack (content 5) stackBytes
          some (⟨t, kernelStack, userStack⟩, heap.fill t (content 6) taskBytes)
      else some (⟨t, kernelStack, 0⟩, heap.fill t (content 6) taskBytes)

/-- One of the allocations that were asked for is NULL. -/
def Allocations.Lacks (allocations : Allocations) (user : Bool) : Prop :=
  allocations.task = 0 ∨ allocations.kernelStack = 0 ∨ user = true ∧ allocations.userStack = 0

instance (allocations : Allocations) (user : Bool) : Decidable (allocations.Lacks user) :=
  inferInstanceAs (Decidable (_ ∨ _))

/-- The stacks of a task. -/
def Task.stacks (task : Task) : List Word := task.kernelStack :: if task.userStack = 0 then [] else [task.userStack]

/-- What the tasks of the list own: each its stacks and its structure. -/
def TaskList.owned (list : TaskList) : List Word := list.queue.flatMap fun t => (list.memory t).stacks ++ [t]

/-- The list of tasks and the heap that their memory is in. -/
structure TaskHeap where
  list : TaskList
  heap : Heap

namespace TaskHeap

def taskCreate (state : TaskHeap) (content : Nat → Nat → Byte) (priority : Nat) (kernelMode : Bool) :
    Option (Option Word × TaskHeap) := do
  let (allocations, heap) ← allocateTask state.heap content !kernelMode
  let (created, list) := state.list.taskCreate allocations priority kernelMode
  some (created, ⟨list, heap⟩)

def taskCreateUser (state : TaskHeap) (content : Nat → Nat → Byte) (priority : Nat) :
    Option (Option Word × TaskHeap) := do
  let (allocations, heap) ← allocateTask state.heap content true
  let (created, list) := state.list.taskCreateUser allocations priority
  some (created, ⟨list, heap⟩)

/-- Whether `task_fork` asks for a user stack. -/
def forksUser (state : TaskHeap) (current : Word) : Bool :=
  ¬ (state.list.memory current).kernelMode ∧ (state.list.memory current).userStack ≠ 0

def taskFork (state : TaskHeap) (content : Nat → Nat → Byte) : Option (Int × TaskHeap) :=
  match state.list.currentTask with
  | none => some (-1, state)
  | some current => do
    let (allocations, heap) ← allocateTask state.heap content (state.forksUser current)
    let (result, list) := state.list.taskFork allocations
    some (result, ⟨list, heap⟩)

def taskDestroy (state : TaskHeap) (id : Nat) : Option TaskHeap :=
  match state.list.victim id with
  | none => some state
  | some t => do
    let task := state.list.memory t
    let heap ← if task.kernelStack ≠ 0 then state.heap.kfree task.kernelStack else some state.heap
    let heap ← if task.userStack ≠ 0 then heap.kfree task.userStack else some heap
    let heap ← heap.kfree t
    some ⟨state.list.taskDestroy id, heap⟩

def schedule (state : TaskHeap) : TaskHeap := { state with list := state.list.schedule }

inductive Call where
  | taskCreate (content : Nat → Nat → Byte) (priority : Nat) (kernelMode : Bool)
  | taskCreateUser (content : Nat → Nat → Byte) (priority : Nat)
  | taskFork (content : Nat → Nat → Byte)
  | taskDestroy (id : Nat)
  | schedule

namespace Call

/-- The state after the call; `none` when it does not return. -/
def run (state : TaskHeap) : Call → Option TaskHeap
  | taskCreate content priority kernelMode => (state.taskCreate content priority kernelMode).map Prod.snd
  | taskCreateUser content priority => (state.taskCreateUser content priority).map Prod.snd
  | taskFork content => (state.taskFork content).map Prod.snd
  | taskDestroy id => state.taskDestroy id
  | schedule => some state.schedule

/-- What the call stores in the memory it asks for, and whether it asks for a
user stack. -/
def request (state : TaskHeap) : Call → Option ((Nat → Nat → Byte) × Bool)
  | taskCreate content _ kernelMode => some (content, !kernelMode)
  | taskCreateUser content _ => some (content, true)
  | taskFork content => state.list.currentTask.map fun current => (content, state.forksUser current)
  | _ => none

/-- The memory that the call gets, if it asks for any. -/
def allocations (state : TaskHeap) (call : Call) : Option (Allocations × Bool) := do
  let (content, user) ← call.request state
  let (allocations, _) ← allocateTask state.heap content user
  some (allocations, user)

/-- The call does not free the current task. -/
def Spares (state : TaskHeap) : Call → Prop
  | taskDestroy id => ∀ victim, state.list.victim id = some victim → state.list.currentTask ≠ some victim
  | _ => True

end Call

/-- A call that spares the current task, or a store on a stack of a task. -/
inductive Step (state : TaskHeap) : TaskHeap → Prop
  | call {call : Call} : call.Spares state → call.run state = some after → Step state after
  | push (offset : Nat) (value : Byte) : t ∈ state.list.queue → stack ∈ (state.list.memory t).stacks →
    offset < (state.heap.size (stack - 12)).toNat →
    Step state { state with heap := { state.heap with
      memory := storeByte state.heap.memory (stack + BitVec.ofNat 32 offset) value } }

/-- No task yet, over a heap that others may use. -/
def start (memory : Word → Task) (heap : Heap) : TaskHeap := ⟨.init memory, heap⟩

end TaskHeap

/-- The pointers to what was allocated, as the new task owns them. -/
def Allocations.owned (allocations : Allocations) : List Word :=
  allocations.kernelStack :: (if allocations.userStack = 0 then [] else [allocations.userStack]) ++ [allocations.task]

/-- What `allocateTask` does to the heap: nothing, or it takes what the
allocations say. -/
inductive Supplied (range : HeapRange) (used : List (Nat × Nat)) (blocks : List Block) (user : Bool)
    (allocations : Allocations) (heap : Heap) : Prop
  | refused : allocations.Lacks user → allocations.task = 0 ∨ allocations.task ∉ used.map pointer →
    HeapUse range heap used blocks → Supplied range used blocks user allocations heap
  | supplied {taken : List (Nat × Nat)} {new : List Block} : ¬ allocations.Lacks user →
    (user = false → allocations.userStack = 0) → taken.map pointer = allocations.owned →
    HeapUse range heap (taken ++ used) new → Supplied range used blocks user allocations heap

section Allocation

variable {range : HeapRange} {heap : Heap} {used : List (Nat × Nat)} {blocks : List Block}

theorem allocateTask_spec (use : HeapUse range heap used blocks) (content : Nat → Nat → Byte) (user : Bool) :
    ∃ allocations other, allocateTask heap content user = some (allocations, other) ∧
      Supplied range used blocks user allocations other := by
  obtain ⟨t, first, taken, spec⟩ := use.kmalloc (BitVec.ofNat 32 taskBytes) (by decide)
  simp only [allocateTask, taken, Option.bind_eq_bind, Option.bind_some]
  rcases spec with ⟨null, same⟩ | ⟨taskNonnull, place, bytes, new, rfl, enough, useTask⟩
  · subst null
    exact ⟨_, _, rfl, .refused (.inl rfl) (.inl rfl) same⟩
  rw [if_neg taskNonnull]
  have enough : taskBytes ≤ bytes := enough
  have fresh : payloadOf place ∉ used.map pointer := (List.nodup_cons.mp useTask.distinct).1
  have useTask := useTask.fill List.mem_cons_self enough (content 0)
  obtain ⟨kernelStack, second, taken, spec⟩ := useTask.kmalloc (BitVec.ofNat 32 stackBytes) (by decide)
  simp only [taken, Option.bind_some]
  rcases spec with ⟨null, useTask⟩ | ⟨kernelNonnull, kernelPlace, kernelBytes, _, rfl, kernelEnough, useKernel⟩
  · subst null
    have useTask := useTask.fill List.mem_cons_self enough (content 1)
    obtain ⟨other, after, freed, back⟩ := useTask.kfree List.mem_cons_self
    rw [List.erase_cons_head] at back
    simp only [↓reduceIte, freed, Option.bind_some]
    refine ⟨_, _, rfl, .refused (.inr (.inl rfl)) (.inr fresh) ?_⟩
    rw [use.determined back (.refl _)]
    exact back
  rw [if_neg kernelNonnull]
  have kernelEnough : stackBytes ≤ kernelBytes := kernelEnough
  have inside : (place, bytes) ∈ (kernelPlace, kernelBytes) :: (place, bytes) :: used := by simp
  have useKernel := (useKernel.fill inside enough (content 1)).fill List.mem_cons_self kernelEnough (content 2)
  cases user with
  | false =>
    have whole : ¬ Allocations.Lacks ⟨payloadOf place, payloadOf kernelPlace, 0⟩ false := by
      rintro (null | null | ⟨no, _⟩)
      · exact taskNonnull null
      · exact kernelNonnull null
      · cases no
    exact ⟨_, _, rfl, @Supplied.supplied _ _ _ _ _ _ [(kernelPlace, kernelBytes), (place, bytes)] _ whole
      (fun _ => rfl) rfl (useKernel.fill inside enough (content 6))⟩
  | true =>
    obtain ⟨userStack, third, taken, spec⟩ := useKernel.kmalloc (BitVec.ofNat 32 stackBytes) (by decide)
    simp only [↓reduceIte, taken, Option.bind_some]
    rcases spec with ⟨null, useKernel⟩ | ⟨nonnull, userPlace, userBytes, _, rfl, userEnough, useUser⟩
    · subst null
      have useKernel := useKernel.fill inside enough (content 3)
      obtain ⟨other, _, freed, useTask⟩ := useKernel.kfree List.mem_cons_self
      rw [List.erase_cons_head] at useTask
      obtain ⟨last, after, freedTask, back⟩ := useTask.kfree List.mem_cons_self
      rw [List.erase_cons_head] at back
      simp only [↓reduceIte, freed, freedTask, Option.bind_some]
      refine ⟨_, _, rfl, .refused (.inr (.inr ⟨rfl, rfl⟩)) (.inr fresh) ?_⟩
      rw [use.determined back (.refl _)]
      exact back
    · rw [if_neg nonnull]
      have insideUser : (place, bytes) ∈ (userPlace, userBytes) :: (kernelPlace, kernelBytes) :: (place, bytes) :: used := by
        simp
      have insideKernel : (kernelPlace, kernelBytes) ∈
          (userPlace, userBytes) :: (kernelPlace, kernelBytes) :: (place, bytes) :: used := by simp
      have useUser := ((useUser.fill insideUser enough (content 3)).fill insideKernel kernelEnough (content 4)).fill
        List.mem_cons_self userEnough (content 5)
      have useUser := useUser.fill insideUser enough (content 6)
      have whole : ¬ Allocations.Lacks ⟨payloadOf place, payloadOf kernelPlace, payloadOf userPlace⟩ true := by
        rintro (null | null | ⟨_, null⟩)
        · exact taskNonnull null
        · exact kernelNonnull null
        · exact nonnull null
      have pieces : [(kernelPlace, kernelBytes), (userPlace, userBytes), (place, bytes)].map pointer =
          Allocations.owned ⟨payloadOf place, payloadOf kernelPlace, payloadOf userPlace⟩ := by
        rw [Allocations.owned, if_neg nonnull]
        rfl
      refine ⟨_, _, rfl, .supplied whole ?_ pieces (useUser.perm (List.Perm.swap _ _ _))⟩
      intro no
      cases no

end Allocation

namespace TaskList

/-- The list after a creation that failed; only the structure that is free
again may have changed. -/
structure Unjoined (list after : TaskList) (t : Word) : Prop where
  queue : after.queue = list.queue
  current : after.currentTask = list.currentTask
  kept : ∀ u, t = 0 ∨ u ≠ t → after.memory u = list.memory u

/-- The list after a creation with these allocations. -/
structure Joined (list after : TaskList) (allocations : Allocations) : Prop where
  queue : after.queue = allocations.task :: list.queue
  current : after.currentTask = list.currentTask
  kept : ∀ u, u ≠ allocations.task → after.memory u = list.memory u
  kernelStack : (after.memory allocations.task).kernelStack = allocations.kernelStack
  userStack : (after.memory allocations.task).userStack = allocations.userStack
  kernelMode : (after.memory allocations.task).kernelMode = true → allocations.userStack = 0

variable {list : TaskList} {allocations : Allocations}

theorem taskCreate_unjoined (priority : Nat) {kernelMode : Bool} (lacks : allocations.Lacks !kernelMode) :
    (list.taskCreate allocations priority kernelMode).1 = none ∧
      Unjoined list (list.taskCreate allocations priority kernelMode).2 allocations.task := by
  unfold taskCreate
  dsimp only
  split
  · exact ⟨rfl, rfl, rfl, fun _ _ => rfl⟩
  · next nonnull =>
    have kept (after : TaskList) (memory : ∀ u, u ≠ allocations.task → after.memory u = list.memory u) (u : Word)
        (other : allocations.task = 0 ∨ u ≠ allocations.task) : after.memory u = list.memory u :=
      memory u (other.resolve_left nonnull)
    split
    · refine ⟨rfl, rfl, rfl, kept _ ?_⟩
      intro u other
      simp [takeTid, other]
    · next stack =>
      obtain ⟨user, missing⟩ := (lacks.resolve_left nonnull).resolve_left stack
      split
      · next kernel =>
        rw [kernel] at user
        cases user
      · refine ⟨rfl, rfl, rfl, kept _ ?_⟩
        intro u other
        simp [takeTid, other]

theorem taskCreate_joined (priority : Nat) {kernelMode : Bool} (whole : ¬ allocations.Lacks !kernelMode)
    (plain : kernelMode = true → allocations.userStack = 0) :
    (list.taskCreate allocations priority kernelMode).1 = some allocations.task ∧
      Joined list (list.taskCreate allocations priority kernelMode).2 allocations := by
  have nonnull : allocations.task ≠ 0 := fun null => whole (.inl null)
  have stack : allocations.kernelStack ≠ 0 := fun null => whole (.inr (.inl null))
  unfold taskCreate
  dsimp only
  rw [if_neg nonnull, if_neg stack]
  cases kernelMode with
  | true =>
    rw [if_pos rfl]
    refine ⟨rfl, rfl, rfl, ?_, ?_, ?_, fun _ => plain rfl⟩
    · intro u other
      simp [takeTid, link, other]
    · simp [takeTid, link]
    · simp [takeTid, link, cleared, plain]
  | false =>
    have present : allocations.userStack ≠ 0 := fun null => whole (.inr (.inr ⟨rfl, null⟩))
    rw [if_neg Bool.false_ne_true, if_neg present]
    refine ⟨rfl, rfl, rfl, ?_, ?_, ?_, ?_⟩
    · intro u other
      simp [takeTid, link, other]
    · simp [takeTid, link]
    · simp [takeTid, link]
    · simp [takeTid, link]

/-- `task_fork` asks the structure of the parent, which is not that of the
child, whether it needs a user stack. -/
theorem forkParent_memory {current t : Word} (different : current ≠ t) (first second : Task → Task) :
    ((list.store t first).takeTid.store t second).memory current = list.memory current := by
  simp [takeTid, different]

theorem taskFork_unjoined {current : Word} (running : list.currentTask = some current)
    (different : current ≠ allocations.task) {user : Bool}
    (asks : user = true ↔ ¬ (list.memory current).kernelMode ∧ (list.memory current).userStack ≠ 0)
    (lacks : allocations.Lacks user) :
    (list.taskFork allocations).1 = -1 ∧ Unjoined list (list.taskFork allocations).2 allocations.task := by
  unfold taskFork
  split
  · next idle =>
    rw [running] at idle
    cases idle
  next found runs =>
  obtain rfl : current = found := Option.some.inj (running.symm.trans runs)
  dsimp only
  split
  · exact ⟨rfl, rfl, rfl, fun _ _ => rfl⟩
  · next nonnull =>
    have kept (after : TaskList) (memory : ∀ u, u ≠ allocations.task → after.memory u = list.memory u) (u : Word)
        (other : allocations.task = 0 ∨ u ≠ allocations.task) : after.memory u = list.memory u :=
      memory u (other.resolve_left nonnull)
    split
    · refine ⟨rfl, rfl, rfl, kept _ ?_⟩
      intro u other
      simp [takeTid, other]
    · next stack =>
      obtain ⟨wants, missing⟩ := (lacks.resolve_left nonnull).resolve_left stack
      rw [forkParent_memory different, if_pos (asks.mp wants), if_pos missing]
      refine ⟨rfl, rfl, rfl, kept _ ?_⟩
      intro u other
      simp [takeTid, other]

theorem taskFork_joined {current : Word} (running : list.currentTask = some current)
    (different : current ≠ allocations.task) {user : Bool}
    (asks : user = true ↔ ¬ (list.memory current).kernelMode ∧ (list.memory current).userStack ≠ 0)
    (whole : ¬ allocations.Lacks user) (plain : user = false → allocations.userStack = 0)
    (kernel : (list.memory current).kernelMode = true → (list.memory current).userStack = 0) :
    (list.taskFork allocations).1 = pidOf list.nextTid ∧
      Joined list (list.taskFork allocations).2 allocations := by
  have nonnull : allocations.task ≠ 0 := fun null => whole (.inl null)
  have stack : allocations.kernelStack ≠ 0 := fun null => whole (.inr (.inl null))
  unfold taskFork
  split
  · next idle =>
    rw [running] at idle
    cases idle
  next found runs =>
  obtain rfl : current = found := Option.some.inj (running.symm.trans runs)
  dsimp only
  rw [if_neg nonnull, if_neg stack, forkParent_memory different]
  cases user with
  | true =>
    have present : allocations.userStack ≠ 0 := fun null => whole (.inr (.inr ⟨rfl, null⟩))
    have wants := asks.mp rfl
    rw [if_pos wants, if_neg present]
    refine ⟨?_, rfl, rfl, ?_, ?_, ?_, ?_⟩
    · simp [takeTid]
    · intro u other
      simp [takeTid, link, other]
    · simp [takeTid, link]
    · simp [takeTid, link]
    · simp [takeTid, link, wants.1]
  | false =>
    have refuses : ¬ (¬ (list.memory current).kernelMode ∧ (list.memory current).userStack ≠ 0) := by
      intro wants
      cases asks.mpr wants
    have nothing : (list.memory current).userStack = 0 := by
      cases mode : (list.memory current).kernelMode with
      | true => exact kernel mode
      | false => simpa [mode] using refuses
    rw [if_neg refuses]
    refine ⟨?_, rfl, rfl, ?_, ?_, ?_, fun _ => plain rfl⟩
    · simp [takeTid]
    · intro u other
      simp [takeTid, link, other]
    · simp [takeTid, link]
    · simp [takeTid, link, nothing, plain]

end TaskList

end MexOS.Sched
