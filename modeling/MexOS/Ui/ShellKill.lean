import MexOS.Ui.Basic
import MexOS.Sched.Waiting

/-! The command `kill` of `ui/shell.c`. The number of its operand is kept in a
byte. -/

namespace MexOS.Ui.Shell

open MexOS.Machine MexOS.Sched

/-- `parse_args` with room for `room` more words. -/
def parseArgs : Nat → List Byte → List (List Byte)
  | 0, _ => []
  | room + 1, cmd =>
    let p := cmd.dropWhile fun c => c = 32
    if p = [] then []
    else (p.takeWhile fun c => c ≠ 32) :: parseArgs room ((p.dropWhile fun c => c ≠ 32).drop 1)

/-- The loop that reads the operand of `kill`; `none` when it is no number. -/
def readPid (pid : Byte) : List Byte → Option Byte
  | [] => some pid
  | c :: rest => if c < 48 ∨ 57 < c then none else readPid (pid * 10 + (c - 48)) rest

def killedText (pid : Byte) : List Byte := ascii "Task " ++ decimal (pid.setWidth 32) ++ ascii " terminated.\n"

def missingText (pid : Byte) : List Byte := ascii "No such task with PID " ++ decimal (pid.setWidth 32) ++ ascii ".\n"

/-- What `cmd_kill` writes. -/
def killText (list : TaskList) (pid : Byte) : List Byte :=
  match list.taskFind pid.toNat with
  | none => missingText pid
  | some _ => killedText pid

/-- `execute_command` for a line whose first word is `kill`: the tasks behind
it, and what it writes. -/
def executeKill (list : TaskList) (cmd : List Byte) : TaskList × List Byte :=
  match parseArgs 16 cmd with
  | _ :: operand :: _ =>
    match readPid 0 operand with
    | none => (list, ascii "kill: invalid PID\n")
    | some pid => (list.cmdKill pid, killText list pid)
  | _ => (list, ascii "kill: missing PID operand\n")

/-- The number that decimal digits denote. -/
def number (digits : List Byte) : Nat := digits.foldl (fun value digit => 10 * value + (digit.toNat - 48)) 0

def IsDigits (digits : List Byte) : Prop := digits ≠ [] ∧ ∀ digit ∈ digits, 48 ≤ digit ∧ digit ≤ 57

/-- The pid of each task is its id, as `task_create` and `task_fork` set it. -/
def PidsFromIds (list : TaskList) : Prop := ∀ t ∈ list.queue, (list.memory t).pid = pidOf (list.memory t).id

/-- `kill` with these digits takes the task with that pid off the list, or says
that there is none. -/
structure KillsNamed (list : TaskList) (digits : List Byte) : Prop where
  named : (∃ t ∈ list.queue, (list.memory t).pid = number digits) →
    ∃ t ∈ list.queue, (list.memory t).pid = number digits ∧
      (executeKill list (ascii "kill " ++ digits)).1 = { list with queue := list.queue.erase t }
  missing : (∀ t ∈ list.queue, (list.memory t).pid ≠ number digits) →
    (executeKill list (ascii "kill " ++ digits)).1 = list ∧
      ∃ pid, (executeKill list (ascii "kill " ++ digits)).2 = missingText pid

variable {list : TaskList} {digits : List Byte}

theorem readPid_eq (digits : List Byte) (decimal : ∀ digit ∈ digits, 48 ≤ digit ∧ digit ≤ 57) (value : Nat) :
    readPid (BitVec.ofNat 8 value) digits =
      some (BitVec.ofNat 8 (digits.foldl (fun value digit => 10 * value + (digit.toNat - 48)) value)) := by
  induction digits generalizing value with
  | nil => rfl
  | cons digit rest ih =>
    obtain ⟨lower, upper⟩ := decimal digit List.mem_cons_self
    have low : 48 ≤ digit.toNat := BitVec.le_def.mp lower
    have high : digit.toNat ≤ 57 := BitVec.le_def.mp upper
    have valid : ¬ (digit < 48 ∨ 57 < digit) := by
      rw [BitVec.lt_def, BitVec.lt_def]
      simp
      omega
    have turn : BitVec.ofNat 8 value * 10 + (digit - 48) = BitVec.ofNat 8 (10 * value + (digit.toNat - 48)) := by
      apply BitVec.eq_of_toNat_eq
      have gap : (digit - 48).toNat = digit.toNat - 48 := BitVec.toNat_sub_of_le lower
      rw [BitVec.toNat_add, BitVec.toNat_mul, gap, BitVec.toNat_ofNat, BitVec.toNat_ofNat]
      simp
      omega
    rw [readPid, if_neg valid, turn, List.foldl_cons]
    exact ih (fun digit member => decimal digit (List.mem_cons_of_mem _ member)) _

theorem parseArgs_kill (isDigits : IsDigits digits) : parseArgs 16 (ascii "kill " ++ digits) = [ascii "kill", digits] := by
  obtain ⟨filled, decimal⟩ := isDigits
  have visible : ∀ digit ∈ digits, digit ≠ 32 := by
    rintro digit member rfl
    exact absurd (decimal 32 member).1 (by decide)
  have front : digits.dropWhile (fun c => c = 32) = digits := by
    obtain ⟨first, rest, rfl⟩ := List.exists_cons_of_ne_nil filled
    exact List.dropWhile_cons_of_neg (by simpa using visible first List.mem_cons_self)
  have word : digits.takeWhile (fun c => c ≠ 32) = digits :=
    List.takeWhile_eq_self_iff.mpr fun digit member => by simpa using visible digit member
  have behind : digits.dropWhile (fun c => c ≠ 32) = [] :=
    List.dropWhile_eq_nil_iff.mpr fun digit member => by simpa using visible digit member
  have second (room : Nat) : parseArgs (room + 2) digits = [digits] := by
    rw [parseArgs]
    simp only [front, word, behind, filled]
    rfl
  change _ :: parseArgs 15 digits = _
  rw [second 13]
  rfl

theorem executeKill_digits (isDigits : IsDigits digits) : executeKill list (ascii "kill " ++ digits) =
    (list.cmdKill (BitVec.ofNat 8 (number digits)), killText list (BitVec.ofNat 8 (number digits))) := by
  have read : readPid 0 digits = some (BitVec.ofNat 8 (number digits)) := readPid_eq digits isDigits.2 0
  rw [executeKill, parseArgs_kill isDigits]
  simp only [read]

/-- The pids come from the ids on every list that the scheduler builds. -/
theorem pids_of_trace {memory : Word → Task} {events : List (Option TaskList.Call)}
    (run : Trace TaskList.Step (TaskList.init memory) events list) : PidsFromIds list := by
  refine run.invariant (fun _ list => PidsFromIds list) (fun t member => absurd member List.not_mem_nil) ?_
  intro _ before event after pids step t member
  cases step with
  | @call call fresh =>
    rcases TaskList.Call.member member with old | ⟨_, _, _, newborn, _⟩
    · have kin := (call.fate fresh old).kin
      rw [kin.pid, kin.id]
      exact pids t old
    · rw [newborn.pid, newborn.id]
  | reuse written apart =>
    change (written t).pid = pidOf (written t).id
    rw [apart t member]
    exact pids t member

/-- The loop of `cmd_kill` for a number that fits into its parameter. -/
theorem cmdKill_cases (pids : PidsFromIds list) (pid : Byte) :
    ((∀ t ∈ list.queue, (list.memory t).pid ≠ pid.toNat) ∧ list.cmdKill pid = list ∧ killText list pid = missingText pid) ∨
      ∃ t ∈ list.queue, (list.memory t).pid = pid.toNat ∧ list.cmdKill pid = { list with queue := list.queue.erase t } := by
  cases found : list.taskFind pid.toNat with
  | none =>
    refine .inl ⟨?_, ?_, ?_⟩
    · intro t member same
      simpa [same] using TaskList.first_none found t member
    · simp only [TaskList.cmdKill, found]
    · simp only [killText, found]
  | some t =>
    obtain ⟨member, same⟩ := TaskList.first_some found
    have killed : list.cmdKill pid = list.taskDestroy (list.memory t).id := by simp only [TaskList.cmdKill, found]
    rcases list.taskDestroy_cases (list.memory t).id with ⟨nothing, _⟩ | ⟨victim, chosen, erased⟩
    · have passed := TaskList.first_none nothing t member
      simp at passed
    · obtain ⟨present, id⟩ := TaskList.first_some chosen
      refine .inr ⟨victim, present, ?_, killed.trans erased⟩
      rw [pids victim present, of_decide_eq_true id, ← pids t member]
      exact of_decide_eq_true same

theorem erase_ne_self {t : Word} (member : t ∈ list.queue) : { list with queue := list.queue.erase t } ≠ list := by
  intro same
  have shorter := congrArg (fun list => list.queue.length) same
  simp only [List.length_erase_of_mem member] at shorter
  have filled := List.length_pos_of_mem member
  omega

theorem erase_injective {t u : Word} (member : t ∈ list.queue)
    (same : { list with queue := list.queue.erase t } = { list with queue := list.queue.erase u }) : t = u := by
  by_contra apart
  have queues : list.queue.erase t = list.queue.erase u := congrArg TaskList.queue same
  have counts := congrArg (List.count t) queues
  rw [List.count_erase_self, List.count_erase_of_ne apart] at counts
  have some := List.count_pos_iff.mpr member
  omega

/-- A number that does not fit into a byte never leads to the task that it
names, but to the one that its last byte names. -/
theorem KillsNamed.unnamed (kills : KillsNamed list digits) (pids : PidsFromIds list) (isDigits : IsDigits digits)
    (large : ¬ number digits < 256) : ∀ t ∈ list.queue,
      (list.memory t).pid ≠ number digits ∧ (list.memory t).pid ≠ (number digits % 256 : Nat) := by
  have cases := cmdKill_cases pids (BitVec.ofNat 8 (number digits))
  have executed := @executeKill_digits list digits isDigits
  rw [BitVec.toNat_ofNat] at cases
  rcases cases with ⟨absent, same, _⟩ | ⟨victim, member, wrong, erased⟩
  · refine fun t member => ⟨fun named => ?_, absent t member⟩
    obtain ⟨other, present, _, removed⟩ := kills.named ⟨t, member, named⟩
    rw [executed, same] at removed
    exact absurd removed.symm (erase_ne_self present)
  · by_cases named : ∃ t ∈ list.queue, (list.memory t).pid = number digits
    · obtain ⟨other, present, right, removed⟩ := kills.named named
      rw [executed, erased] at removed
      rw [erase_injective member removed, right] at wrong
      omega
    · have kept := (kills.missing fun t member same => named ⟨t, member, same⟩).1
      rw [executed, erased] at kept
      exact absurd kept (erase_ne_self member)

/-- `kill` keeps to the task that it names if and only if the number fits into a
byte, or neither it nor its last byte is the pid of a task. -/
theorem killsNamed_iff (list : TaskList) (pids : PidsFromIds list) (digits : List Byte) (isDigits : IsDigits digits) :
    KillsNamed list digits ↔ number digits < 256 ∨ ∀ t ∈ list.queue,
      (list.memory t).pid ≠ number digits ∧ (list.memory t).pid ≠ (number digits % 256 : Nat) := by
  have cases := cmdKill_cases pids (BitVec.ofNat 8 (number digits))
  have executed := @executeKill_digits list digits isDigits
  rw [BitVec.toNat_ofNat] at cases
  constructor
  · intro kills
    by_cases small : number digits < 256
    · exact .inl small
    · exact .inr (kills.unnamed pids isDigits small)
  · rintro (small | apart)
    · rw [Nat.mod_eq_of_lt small] at cases
      rcases cases with ⟨absent, same, text⟩ | ⟨victim, member, right, erased⟩
      · refine ⟨fun named => ?_, fun _ => ?_⟩
        · obtain ⟨t, member, named⟩ := named
          exact absurd named (absent t member)
        · rw [executed]
          exact ⟨same, _, text⟩
      · refine ⟨fun _ => ⟨victim, member, right, ?_⟩, fun absent => absurd right (absent victim member)⟩
        rw [executed]
        exact erased
    · rcases cases with ⟨_, same, text⟩ | ⟨victim, member, wrong, _⟩
      · refine ⟨fun named => ?_, fun _ => ?_⟩
        · obtain ⟨t, member, named⟩ := named
          exact absurd named (apart t member).1
        · rw [executed]
          exact ⟨same, _, text⟩
      · exact absurd wrong (apart victim member).2

/-- The list with the first task that was created, at address 4096. -/
def oneTask : TaskList := ((TaskList.init fun _ => TaskList.cleared).taskCreate ⟨4096, 8192, 0⟩ 1 true).2

theorem oneTask_pids : PidsFromIds oneTask := by
  intro t member
  obtain rfl := List.mem_singleton.mp member
  rfl

theorem killsNamed_one : KillsNamed oneTask (ascii "1") :=
  (killsNamed_iff oneTask oneTask_pids (ascii "1") ⟨by decide, by decide⟩).mpr (.inl (by decide))

/-- `kill 257` destroys task 1. -/
theorem kill_truncates : ¬ ∀ (list : TaskList) (digits : List Byte), PidsFromIds list → IsDigits digits →
    KillsNamed list digits := by
  intro claim
  have kills := claim oneTask (ascii "257") oneTask_pids ⟨by decide, by decide⟩
  have absent : ∀ t ∈ oneTask.queue, (oneTask.memory t).pid ≠ number (ascii "257") := by
    intro t member
    obtain rfl := List.mem_singleton.mp member
    decide
  have kept := congrArg TaskList.queue (kills.missing absent).1
  exact absurd kept (by decide)

end MexOS.Ui.Shell
