import MexOS.Sched.Ticks

/-! The CPU statistics of `sys/sysmon.c`. The percentage multiplies before it
divides, in 32 bits. -/

namespace MexOS.Sys

open MexOS.Machine MexOS.Sched

/-- `cpu_stats_t` -/
structure CpuStats where
  uptimeTicks : Word
  idleTicks : Word
  kernelTicks : Word
  usagePercent : Word

def schedGetTotalTicks (list : TaskList) : Word := BitVec.ofNat 32 list.tickCount

def schedGetIdleTask (list : TaskList) : Option Word := list.first fun task => task.priority = 0

/-- `timerTicks` is what `timer_get_ticks` answers. -/
def sysmonGetCpuStats (list : TaskList) (timerTicks : Word) : CpuStats :=
  let totalTicks := schedGetTotalTicks list
  let idleTicks : Word :=
    match schedGetIdleTask list with
    | some idle => BitVec.ofNat 32 (list.memory idle).cpuTicks
    | none => 0
  { uptimeTicks := timerTicks
    idleTicks
    usagePercent := if 0 < totalTicks then (totalTicks - idleTicks) * 100 / totalTicks else 0
    kernelTicks := totalTicks - idleTicks }

/-- The ticks of the idle task, if there is one. -/
def idleTicks (list : TaskList) : Nat :=
  match schedGetIdleTask list with
  | some idle => (list.memory idle).cpuTicks
  | none => 0

/-- The percentage is that of the ticks that were not idle, rounded down. -/
def UsageExact (stats : CpuStats) (total idle : Nat) : Prop :=
  stats.usagePercent.toNat = (if total = 0 then 0 else 100 * (total - idle) / total) ∧ stats.usagePercent.toNat ≤ 100

variable {list : TaskList}

/-- A product that wraps loses at least one multiple of the divisor. -/
theorem wrapped_div_iff {product total : Nat} (positive : 0 < total) (small : total < 2 ^ 32) :
    product % 2 ^ 32 / total = product / total ↔ product < 2 ^ 32 := by
  constructor
  · intro same
    by_contra large
    have less : product % 2 ^ 32 + total ≤ product := by omega
    have quotients := Nat.div_le_div_right (c := total) less
    rw [Nat.add_div_right _ positive, same] at quotients
    omega
  · intro fits
    rw [Nat.mod_eq_of_lt fits]

theorem idleTicks_le {total : Nat} (ticked : TaskList.Ticked total list) : idleTicks list ≤ total := by
  unfold idleTicks
  split
  · next idle found => exact ticked.tasks idle (TaskList.first_some found).1
  · exact Nat.zero_le _

theorem sysmonGetCpuStats_idle (list : TaskList) (timerTicks : Word) :
    (sysmonGetCpuStats list timerTicks).idleTicks = BitVec.ofNat 32 (idleTicks list) := by
  change (match schedGetIdleTask list with
    | some idle => BitVec.ofNat 32 (list.memory idle).cpuTicks
    | none => 0 : Word) = _
  unfold idleTicks
  split
  · rfl
  · rfl

theorem usagePercent_eq {total : Nat} (ticked : TaskList.Ticked total list) (few : total < 2 ^ 32) (timerTicks : Word) :
    (sysmonGetCpuStats list timerTicks).usagePercent.toNat =
      if total = 0 then 0 else 100 * (total - idleTicks list) % 2 ^ 32 / total := by
  have idle := idleTicks_le ticked
  have all : (schedGetTotalTicks list).toNat = total := by
    rw [schedGetTotalTicks, ticked.count, BitVec.toNat_ofNat, Nat.mod_mod, Nat.mod_eq_of_lt few]
  have rest : (BitVec.ofNat 32 (idleTicks list)).toNat = idleTicks list := by
    rw [BitVec.toNat_ofNat, Nat.mod_eq_of_lt (by omega)]
  have busy : (schedGetTotalTicks list - BitVec.ofNat 32 (idleTicks list)).toNat = total - idleTicks list := by
    rw [BitVec.toNat_sub_of_le (BitVec.le_def.mpr (by rw [all, rest]; exact idle)), all, rest]
  change (if 0 < schedGetTotalTicks list then
    (schedGetTotalTicks list - (sysmonGetCpuStats list timerTicks).idleTicks) * 100 / schedGetTotalTicks list else 0).toNat = _
  rw [sysmonGetCpuStats_idle]
  have positive : 0 < schedGetTotalTicks list ↔ ¬ total = 0 := by
    rw [BitVec.lt_def, all]
    exact Nat.pos_iff_ne_zero
  by_cases none : total = 0
  · rw [if_pos none, if_neg fun some => positive.mp some none]
    rfl
  · rw [if_neg none, if_pos (positive.mpr none), BitVec.toNat_udiv, BitVec.toNat_mul, busy, all, Nat.mul_comm]
    rfl

/-- After any run of fewer than 2^32 ticks the idle task has no more ticks than
there were, and the percentage is right if and only if the product fits. -/
theorem cpu_usage_iff {memory : Word → Task} {events : List (Option TaskList.Call)}
    (run : Trace TaskList.Step (TaskList.init memory) events list) (few : TaskList.tickTotal events < 2 ^ 32)
    (timerTicks : Word) : idleTicks list ≤ TaskList.tickTotal events ∧
      (UsageExact (sysmonGetCpuStats list timerTicks) (TaskList.tickTotal events) (idleTicks list) ↔
        100 * (TaskList.tickTotal events - idleTicks list) < 2 ^ 32) := by
  have ticked := TaskList.ticked_of_trace run
  have percent := usagePercent_eq ticked few timerTicks
  generalize TaskList.tickTotal events = total at *
  refine ⟨idleTicks_le ticked, ?_⟩
  rw [UsageExact, percent]
  by_cases none : total = 0
  · simp [none]
  · rw [if_neg none, if_neg none]
    constructor
    · exact fun exact => (wrapped_div_iff (Nat.pos_of_ne_zero none) few).mp exact.1
    · intro fits
      have same := (wrapped_div_iff (Nat.pos_of_ne_zero none) few).mpr fits
      refine ⟨same, ?_⟩
      rw [same]
      calc 100 * (total - idleTicks list) / total ≤ 100 * total / total :=
            Nat.div_le_div_right (Nat.mul_le_mul_left 100 (Nat.sub_le _ _))
        _ = 100 := Nat.mul_div_cancel _ (Nat.pos_of_ne_zero none)

/-- The timer ticks `count` times before a task has the processor. -/
theorem trace_ticks {start : TaskList} {events : List (Option TaskList.Call)} (earlier : Trace TaskList.Step start events list)
    (still : list.currentTask = none) (count : Nat) (small : list.tickCount + count < 2 ^ 32) :
    Trace TaskList.Step start (events ++ List.replicate count (some .schedTick))
      { list with tickCount := list.tickCount + count } := by
  induction count with
  | zero =>
    rw [List.replicate_zero, List.append_nil]
    exact earlier
  | succ count ih =>
    have trace := ih (by omega)
    have ticked : TaskList.Call.run { list with tickCount := list.tickCount + count } .schedTick =
        { list with tickCount := list.tickCount + (count + 1) } := by
      have counted : TaskList.countTick { list with tickCount := list.tickCount + count } =
          { list with tickCount := list.tickCount + (count + 1) } := by
        rw [TaskList.countTick]
        simp only [still]
        rw [Nat.mod_eq_of_lt (by omega), Nat.add_assoc]
      change TaskList.schedTick _ = _
      rw [TaskList.schedTick]
      simp only [counted]
      rw [TaskList.currentField, still]
      rfl
    have fresh : TaskList.Call.Fresh { list with tickCount := list.tickCount + count } .schedTick :=
      fun memory asked => absurd asked (Option.not_mem_none memory)
    have next := trace.snoc (.call fresh)
    rwa [ticked, List.append_assoc, ← List.replicate_succ'] at next

/-- The idle task has been created at address 4096. -/
def idleTask : TaskList := ((TaskList.init fun _ => TaskList.cleared).taskCreate ⟨4096, 8192, 0⟩ 0 true).2

theorem idleTask_trace : Trace TaskList.Step (TaskList.init fun _ => TaskList.cleared)
    [some (.taskCreate ⟨4096, 8192, 0⟩ 0 true)] idleTask :=
  .snoc .nil (.call fun _ _ => List.not_mem_nil)

/-- Three ticks, none of them idle. -/
theorem cpu_usage_three : idleTicks { idleTask with tickCount := 3 } ≤ 3 ∧
    (UsageExact (sysmonGetCpuStats { idleTask with tickCount := 3 } 3) 3 0 ↔ 100 * (3 - 0) < 2 ^ 32) :=
  cpu_usage_iff (trace_ticks idleTask_trace rfl 3 (by decide)) (by decide) 3

/-- After 42949673 ticks the percentage is zero instead of a hundred. -/
theorem cpu_usage_wraps : ¬ ∀ (memory : Word → Task) (events : List (Option TaskList.Call)) (list : TaskList),
    Trace TaskList.Step (TaskList.init memory) events list → TaskList.tickTotal events < 2 ^ 32 →
    ∀ timerTicks, UsageExact (sysmonGetCpuStats list timerTicks) (TaskList.tickTotal events) (idleTicks list) := by
  intro claim
  have total : TaskList.tickTotal ([some (.taskCreate ⟨4096, 8192, 0⟩ 0 true)] ++
      List.replicate 42949673 (some .schedTick)) = 42949673 := by
    rw [TaskList.tickTotal, List.countP_append, List.countP_replicate]
    rfl
  have exact := claim _ _ _ (trace_ticks idleTask_trace rfl 42949673 (by decide)) (by rw [total]; decide) 0
  rw [total] at exact
  have shown : (sysmonGetCpuStats { idleTask with tickCount := idleTask.tickCount + 42949673 } 0).usagePercent.toNat = 0 := by
    decide +kernel
  rw [UsageExact, shown] at exact
  have idle : idleTicks { idleTask with tickCount := idleTask.tickCount + 42949673 } = 0 := by decide +kernel
  rw [idle] at exact
  exact absurd exact.1 (by decide +kernel)

end MexOS.Sys
