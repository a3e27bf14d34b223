import Mathlib.Data.List.DropRight
import MexOS.Ui.BasicStore

/-! Running the stored program. A line either lets the loop of
`basic_run_program` go on, ends it, or starts it again; from this follows when
the run comes to an end. -/

namespace MexOS.Ui

open MexOS.Machine

/-- A line that gives a variable a value. -/
def assigns (text : List Byte) : Bool :=
  isLetter ((skipSpaces text).headD 0) ∧ (skipSpaces (skipSpaces text).tail).headD 0 = 61

/-- What a line does to the loop that runs it. -/
inductive LineEffect where
  | continues
  | fails
  | clears
  | runs
deriving DecidableEq

/-- The tests of `basic_execute_line` in their order. -/
def lineEffect (line : List Byte) : LineEffect :=
  let line := skipSpaces line
  if line = [] ∨ (ascii "PRINT").isPrefixOf line then .continues
  else if (ascii "LET").isPrefixOf line then if assigns (line.drop 3) then .continues else .fails
  else if isLetter (line.headD 0) ∧ (skipSpaces line.tail).headD 0 = 61 then .continues
  else if (ascii "RUN").isPrefixOf line then .runs
  else if (ascii "LIST").isPrefixOf line then .continues
  else if (ascii "CLEAR").isPrefixOf line then .clears
  else .fails

namespace Basic

/-- The same stored program at the same place of its run. -/
structure SameRun (basic after : Basic) : Prop where
  lines : after.lines = basic.lines
  lineCount : after.lineCount = basic.lineCount
  pc : after.pc = basic.pc
  running : after.running = basic.running

theorem SameRun.refl (basic : Basic) : basic.SameRun basic := ⟨rfl, rfl, rfl, rfl⟩

theorem SameRun.trans {basic middle after : Basic} (first : basic.SameRun middle) (second : middle.SameRun after) :
    basic.SameRun after :=
  ⟨second.lines.trans first.lines, second.lineCount.trans first.lineCount, second.pc.trans first.pc,
    second.running.trans first.running⟩

theorem SameRun.program {basic after : Basic} (same : basic.SameRun after) (i : Nat) : after.program i = basic.program i := by
  rw [Basic.program, same.lines]
  rfl

theorem write_sameRun (basic : Basic) (text : List Byte) : basic.SameRun (basic.write text) := ⟨rfl, rfl, rfl, rfl⟩

theorem listProgram_sameRun (basic : Basic) : basic.SameRun basic.listProgram := by
  rw [listProgram]
  split
  · exact (basic.write_sameRun _).trans (write_sameRun _ _)
  · refine List.foldlRecOn _ _ (basic.write_sameRun _) ?_
    intro listed same i _
    exact same.trans (write_sameRun _ _)

theorem executeLet_sameRun (basic : Basic) (text : List Byte) : basic.SameRun (basic.executeLet text).2 := by
  rw [executeLet]
  split
  · exact .refl _
  · dsimp only
    split
    · exact .refl _
    · exact ⟨rfl, rfl, rfl, rfl⟩

theorem executeLet_ret (basic : Basic) (text : List Byte) :
    (basic.executeLet text).1 = if assigns text then 0 else -1 := by
  rw [executeLet, assigns]
  by_cases letter : isLetter ((skipSpaces text).headD 0)
  · by_cases equals : (skipSpaces (skipSpaces text).tail).headD 0 = 61
    · rw [if_neg (not_not.mpr letter), if_neg (not_not.mpr equals), if_pos (decide_eq_true ⟨letter, equals⟩)]
    · rw [if_neg (not_not.mpr letter), if_pos equals, if_neg]
      exact fun both => equals (of_decide_eq_true both).2
  · rw [if_pos letter, if_neg]
    exact fun both => letter (of_decide_eq_true both).1

theorem executeLet_fails {basic : Basic} {text : List Byte} (malformed : assigns text = false) :
    basic.executeLet text = (-1, basic) := by
  rw [executeLet]
  by_cases letter : isLetter ((skipSpaces text).headD 0)
  · have different : (skipSpaces (skipSpaces text).tail).headD 0 ≠ 61 := by
      intro equals
      rw [assigns, decide_eq_true ⟨letter, equals⟩] at malformed
      exact Bool.false_ne_true malformed.symm
    rw [if_neg (not_not.mpr letter), if_pos different]
  · rw [if_pos letter]

/-- What `basic_execute_line` answers for a line of each kind. -/
def Outcome (run : Basic → Option Basic) (basic : Basic) : LineEffect → Option (Int × Basic) → Prop
  | .continues, result => ∃ after, result = some (0, after) ∧ basic.SameRun after
  | .fails, result => result = some (-1, basic)
  | .clears, result => result = some (0, basic.clearProgram)
  | .runs, result => result = (run basic).map fun after => (0, after)

theorem outcome_let (run : Basic → Option Basic) (basic : Basic) (text : List Byte) :
    Outcome run basic (if assigns text then .continues else .fails) (some (basic.executeLet text)) := by
  by_cases wellFormed : assigns text
  · rw [if_pos wellFormed]
    refine ⟨(basic.executeLet text).2, congrArg some (Prod.ext ?_ rfl), basic.executeLet_sameRun text⟩
    exact (basic.executeLet_ret text).trans (if_pos wellFormed)
  · rw [if_neg wellFormed, executeLet_fails (Bool.not_eq_true _ ▸ wellFormed)]
    rfl

theorem executeLineWith_outcome (run : Basic → Option Basic) (basic : Basic) (line : List Byte) :
    Outcome run basic (lineEffect line) (executeLineWith run basic line) := by
  rw [lineEffect, executeLineWith]
  generalize trimmed : skipSpaces line = text
  have fixed : skipSpaces text = text := by rw [← trimmed, skipSpaces, skipSpaces, List.dropWhile_idempotent]
  by_cases empty : text = []
  · rw [if_pos (.inl empty), if_pos empty]
    exact ⟨basic, rfl, .refl basic⟩
  by_cases print : (ascii "PRINT").isPrefixOf text
  · rw [if_pos (.inr print), if_neg empty, if_pos print]
    exact ⟨_, rfl, write_sameRun _ _⟩
  rw [if_neg (not_or.mpr ⟨empty, print⟩), if_neg empty, if_neg print]
  by_cases letWord : (ascii "LET").isPrefixOf text
  · rw [if_pos letWord, if_pos letWord]
    exact outcome_let run basic _
  rw [if_neg letWord, if_neg letWord]
  by_cases assigned : isLetter (text.headD 0) ∧ (skipSpaces text.tail).headD 0 = 61
  · have wellFormed : assigns text := by
      rw [assigns, fixed]
      exact decide_eq_true assigned
    rw [if_pos assigned, if_pos assigned]
    have outcome := outcome_let run basic text
    rwa [if_pos wellFormed] at outcome
  rw [if_neg assigned, if_neg assigned]
  split
  · rfl
  split
  · exact ⟨_, rfl, basic.listProgram_sameRun⟩
  split
  · rfl
  · rfl

/-- A stored line runs the program, and every line before it goes on. -/
def RunsAgain (basic : Basic) : Prop :=
  ∃ k < basic.lineCount, lineEffect (basic.program k) = .runs ∧ ∀ j < k, lineEffect (basic.program j) = .continues

/-- The start of a run inside a run. -/
def restart (fuel : Nat) (basic : Basic) : Option Basic := runFrom fuel { basic with running := true, pc := 0 }

section Turn

variable {basic : Basic} {fuel : Nat}

theorem runFrom_stops (ended : ¬ (basic.pc < basic.lineCount ∧ basic.running)) :
    runFrom (fuel + 1) basic = some { basic with running := false } := by
  rw [runFrom, if_neg ended]

/-- What the loop does with the result of a line. -/
def afterLine (fuel : Nat) (result : Int × Basic) : Option Basic :=
  if result.1 < 0 then
    some { result.2.write (ascii "Error at line " ++ decimal (result.2.lineNumber result.2.pc) ++ ascii "\n") with running := false }
  else runFrom fuel { result.2 with pc := result.2.pc + 1 }

theorem runFrom_turn (inside : basic.pc < basic.lineCount) (running : basic.running) : runFrom (fuel + 1) basic =
    (executeLineWith (restart fuel) basic (basic.program basic.pc)).bind (afterLine fuel) := by
  rw [runFrom, if_pos ⟨inside, running⟩]
  rfl

theorem runFrom_continues (inside : basic.pc < basic.lineCount) (running : basic.running)
    (effect : lineEffect (basic.program basic.pc) = .continues) :
    ∃ after, basic.SameRun after ∧ runFrom (fuel + 1) basic = runFrom fuel { after with pc := after.pc + 1 } := by
  have outcome := executeLineWith_outcome (restart fuel) basic (basic.program basic.pc)
  rw [effect] at outcome
  obtain ⟨after, executed, same⟩ := outcome
  refine ⟨after, same, ?_⟩
  rw [runFrom_turn inside running, executed]
  rfl

theorem runFrom_runs (inside : basic.pc < basic.lineCount) (running : basic.running)
    (effect : lineEffect (basic.program basic.pc) = .runs) (endless : restart fuel basic = none) :
    runFrom (fuel + 1) basic = none := by
  have outcome := executeLineWith_outcome (restart fuel) basic (basic.program basic.pc)
  rw [effect] at outcome
  rw [runFrom_turn inside running, outcome, endless]
  rfl

/-- A line that fails or clears the program is the last one. -/
theorem runFrom_ends (inside : basic.pc < basic.lineCount) (running : basic.running)
    (effect : lineEffect (basic.program basic.pc) = .fails ∨ lineEffect (basic.program basic.pc) = .clears) :
    ∃ after, runFrom (fuel + 2) basic = some after ∧ after.running = false := by
  have outcome := executeLineWith_outcome (restart (fuel + 1)) basic (basic.program basic.pc)
  rw [runFrom_turn inside running]
  rcases effect with fails | clears
  · rw [fails] at outcome
    rw [outcome]
    exact ⟨_, rfl, rfl⟩
  · rw [clears] at outcome
    rw [outcome]
    have cleared : ¬ (basic.clearProgram.pc + 1 < basic.clearProgram.lineCount ∧ basic.clearProgram.running) :=
      fun both => Nat.not_lt_zero _ both.1
    exact ⟨_, @runFrom_stops { basic.clearProgram with pc := basic.clearProgram.pc + 1 } fuel cleared, rfl⟩

end Turn

/-- The lines from `pc` on are left behind one by one until one of them is the
last. -/
theorem runFrom_returns (turns : Nat) {basic : Basic} (left : basic.lineCount - basic.pc ≤ turns)
    (ends : ∀ k < basic.lineCount, lineEffect (basic.program k) = .runs →
      ∃ j < k, basic.pc ≤ j ∧ lineEffect (basic.program j) ≠ .continues) :
    ∃ after, runFrom (turns + 2) basic = some after ∧ after.running = false := by
  induction turns generalizing basic with
  | zero => exact ⟨_, runFrom_stops fun both => by omega, rfl⟩
  | succ turns ih =>
    by_cases more : basic.pc < basic.lineCount ∧ basic.running
    · obtain ⟨inside, running⟩ := more
      cases effect : lineEffect (basic.program basic.pc) with
      | continues =>
        obtain ⟨after, same, step⟩ := @runFrom_continues basic (turns + 2) inside running effect
        rw [step]
        have next : after.pc + 1 = basic.pc + 1 := congrArg Nat.succ same.pc
        refine ih ?_ ?_
        · dsimp only
          rw [same.lineCount, next]
          omega
        · intro k bound runs
          rw [show Basic.program { after with pc := after.pc + 1 } k = basic.program k from same.program k] at runs
          obtain ⟨j, before, lower, other⟩ := ends k (same.lineCount ▸ bound) runs
          have passed : j ≠ basic.pc := fun here => other (here ▸ effect)
          refine ⟨j, before, ?_, ?_⟩
          · dsimp only
            rw [next]
            omega
          · rwa [show Basic.program { after with pc := after.pc + 1 } j = basic.program j from same.program j]
      | fails => exact runFrom_ends inside running (.inl effect)
      | clears => exact runFrom_ends inside running (.inr effect)
      | runs =>
        obtain ⟨j, before, lower, _⟩ := ends _ inside effect
        exact absurd before (not_lt.mpr lower)
    · exact ⟨_, runFrom_stops more, rfl⟩

/-- The line that runs the program is reached again and again. -/
theorem runFrom_endless (fuel : Nat) {basic : Basic} {k : Nat} (running : basic.running) (reached : basic.pc ≤ k)
    (inside : k < basic.lineCount) (runs : lineEffect (basic.program k) = .runs)
    (before : ∀ j < k, lineEffect (basic.program j) = .continues) : runFrom fuel basic = none := by
  induction fuel generalizing basic with
  | zero => rfl
  | succ fuel ih =>
    rcases Nat.lt_or_eq_of_le reached with earlier | here
    · obtain ⟨after, same, step⟩ := @runFrom_continues basic fuel (earlier.trans inside) running (before _ earlier)
      have program (j : Nat) : Basic.program { after with pc := after.pc + 1 } j = basic.program j := same.program j
      rw [step]
      refine ih ?_ ?_ ?_ ?_ ?_
      · exact same.running.trans running
      · exact same.pc ▸ earlier
      · exact same.lineCount ▸ inside
      · rwa [program]
      · intro j bound
        rw [program]
        exact before j bound
    · subst here
      exact runFrom_runs inside running runs (ih rfl (Nat.zero_le _) inside runs before)

/-- A run of the stored program comes to an end exactly when it does not start
itself again. -/
theorem runProgram_returns_iff (basic : Basic) :
    (∃ fuel after, runProgram fuel basic = some after ∧ after.running = false) ↔ ¬ basic.RunsAgain := by
  constructor
  · rintro ⟨fuel, after, returned, _⟩ ⟨k, inside, runs, before⟩
    have endless := @runFrom_endless fuel { basic with running := true, pc := 0 } k rfl (Nat.zero_le _) inside runs before
    rw [runProgram, endless] at returned
    cases returned
  · intro once
    refine ⟨basic.lineCount + 2, @runFrom_returns basic.lineCount { basic with running := true, pc := 0 } (Nat.sub_le _ _) ?_⟩
    intro k inside runs
    by_contra none
    refine once ⟨k, inside, runs, fun j before => ?_⟩
    by_contra other
    exact none ⟨j, before, Nat.zero_le _, other⟩

/-- The program that consists of the line "RUN". -/
def runOnly : Basic := (zero.addLine 10 (CString.ofBytes (ascii "RUN"))).2

theorem runOnly_never_returns : ¬ ∃ fuel after, runProgram fuel runOnly = some after ∧ after.running = false := by
  rintro ⟨fuel, after, returned, _⟩
  have line : runOnly.program 0 = ascii "RUN" := (program_setProgram _ 0 0 _).trans (by decide)
  have runs : lineEffect (runOnly.program 0) = .runs := (congrArg lineEffect line).trans (by decide)
  have endless := @runFrom_endless fuel { runOnly with running := true, pc := 0 } 0 rfl (Nat.le_refl _) Nat.one_pos runs
    fun j before => absurd before (Nat.not_lt_zero j)
  rw [runProgram, endless] at returned
  cases returned

end Basic

end MexOS.Ui
