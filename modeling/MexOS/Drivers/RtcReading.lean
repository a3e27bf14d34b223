import MexOS.Drivers.Rtc
import Mathlib.Logic.Function.Iterate

/-! A time that is read twice is one that the clock had. -/

namespace MexOS.Drivers.Rtc

open MexOS.Machine PortProgram

section Updates

/-- Only updates have changed the registers. -/
structure Later (before after : Clock) : Prop where
  advance : after.advance = before.advance
  updates : before.updates ≤ after.updates
  registers : after.registers = before.advance^[after.updates - before.updates] before.registers

theorem Later.refl (c : Clock) : Later c c := ⟨rfl, Nat.le_refl _, by rw [Nat.sub_self]; rfl⟩

theorem Later.trans {first second third : Clock} (left : Later first second) (right : Later second third) : Later first third := by
  refine ⟨right.advance.trans left.advance, Nat.le_trans left.updates right.updates, ?_⟩
  have split : third.updates - first.updates = (third.updates - second.updates) + (second.updates - first.updates) := by
    have := left.updates
    have := right.updates
    omega
  rw [right.registers, left.registers, left.advance, split, Function.iterate_add_apply]

theorem Later.still {before after : Clock} (later : Later before after) (same : after.updates = before.updates) :
    after.registers = before.registers := by
  rw [later.registers, same, Nat.sub_self]
  rfl

theorem later_pass (c : Clock) : Later c c.pass := by
  rw [Clock.pass]
  split
  · exact ⟨rfl, Nat.le_refl _, by rw [Nat.sub_self]; rfl⟩
  · exact ⟨rfl, Nat.le_add_right .., by rw [Nat.add_sub_cancel_left]⟩

/-- The ports that choose a register or lose time. -/
def Chooses (port : Port) : Prop := port = portIndex ∨ port = 0x80

/-- A program that leaves the data port alone only lets time pass. -/
theorem later_run (index : Port) {program : PortProgram α}
    (outputs : program.Outputs Chooses) (c : Clock) : Later c (program.run (Clock.bus index) c).2 := by
  refine outputs.run Later Later.refl (fun _ _ _ => Later.trans) (fun width port c => ?_) (fun width port value c other => ?_) c
  · change Later c (Clock.read width port c).2
    rw [Clock.read]
    split <;> exact later_pass c
  · change Later c (Clock.write index width port value c)
    have passed := later_pass c
    have data : port ≠ portData := by
      rcases other with rfl | rfl <;> decide
    rw [Clock.write, if_neg data]
    split
    · exact ⟨passed.advance, passed.updates, passed.registers⟩
    · exact passed

end Updates

section Programs

theorem outputs_readRegister (reg : Byte) : (readRegister reg).Outputs Chooses :=
  ⟨.inl rfl, .inr rfl, fun _ => trivial⟩

theorem outputs_waitUipClear (left : Nat) : (waitUipClear left).Outputs Chooses := by
  induction left with
  | zero => exact trivial
  | succ left ih =>
    refine Outputs.bind (m := isUpdating) (Outputs.bind (outputs_readRegister _) fun _ => trivial) fun updating => ?_
    split
    · exact Outputs.bind (m := ioDelay) ⟨.inr rfl, trivial⟩ fun _ => ih
    · exact trivial

/-- The reads of a pass after that of the seconds. -/
def restFields (second : Byte) : PortProgram Fields := do
  let minute ← readRegister regMinutes
  let hour ← readRegister regHours
  let day ← readRegister regDay
  let month ← readRegister regMonth
  let year ← readRegister regYear
  let weekday ← readRegister regWeekday
  pure { second, minute, hour, day, month, year, weekday }

theorem outputs_restFields (second : Byte) : (restFields second).Outputs Chooses :=
  Outputs.bind (outputs_readRegister _) fun _ => Outputs.bind (outputs_readRegister _) fun _ =>
    Outputs.bind (outputs_readRegister _) fun _ => Outputs.bind (outputs_readRegister _) fun _ =>
    Outputs.bind (outputs_readRegister _) fun _ => Outputs.bind (outputs_readRegister _) fun _ => trivial

theorem outputs_readFields : readFields.Outputs Chooses :=
  Outputs.bind (outputs_readRegister _) outputs_restFields

theorem outputs_attempt : attempt.Outputs Chooses := by
  refine Outputs.bind (outputs_waitUipClear _) fun _ => Outputs.bind (outputs_readRegister _) fun _ =>
    Outputs.bind outputs_readFields fun _ => Outputs.bind (outputs_readRegister _) fun _ =>
    Outputs.bind outputs_readFields fun _ => ?_
  simp only
  split <;> exact trivial

theorem outputs_readTimeFrom (left : Nat) : (readTimeFrom left).Outputs Chooses := by
  induction left with
  | zero =>
    exact Outputs.bind (outputs_readRegister _) fun _ => Outputs.bind outputs_readFields fun _ =>
      Outputs.bind (outputs_readRegister _) fun _ => trivial
  | succ left ih =>
    refine Outputs.bind outputs_attempt fun result => ?_
    cases result with
    | none => exact ih
    | some time => exact trivial

theorem index_pass (c : Clock) : c.pass.index = c.index := by
  rw [Clock.pass]
  split <;> rfl

theorem selected {reg : Byte} (small : reg.getLsbD 7 = false) : (reg ||| nmiDisable).setWidth 8 &&& 0x7F = reg := by
  rw [BitVec.setWidth_eq]
  ext i inside
  have one : i = 0 ∨ i = 1 ∨ i = 2 ∨ i = 3 ∨ i = 4 ∨ i = 5 ∨ i = 6 ∨ i = 7 := by omega
  rcases one with rfl | rfl | rfl | rfl | rfl | rfl | rfl | rfl <;> simp [nmiDisable]
  rw [← BitVec.getLsbD_eq_getElem, small]

/-- A register is read as it is when the data port is. -/
theorem run_readRegister (reg : Byte) (plain : reg ≠ regStatusA) (small : reg.getLsbD 7 = false) (c : Clock) :
    ((readRegister reg).run (Clock.bus portIndex) c).1 = ((readRegister reg).run (Clock.bus portIndex) c).2.registers reg := by
  have index : (Clock.write portIndex 8 portIndex (reg ||| nmiDisable) c).index = reg := by
    rw [Clock.write, if_pos rfl]
    exact selected small
  have delay (c : Clock) : Clock.write portIndex 8 0x80 0 c = c.pass := by
    rw [Clock.write, if_neg (by decide), if_neg (by decide)]
  change (Clock.read 8 portData (Clock.write portIndex 8 0x80 0 (Clock.write portIndex 8 portIndex (reg ||| nmiDisable) c))).1 =
    (Clock.read 8 portData (Clock.write portIndex 8 0x80 0 (Clock.write portIndex 8 portIndex (reg ||| nmiDisable) c))).2.registers reg
  rw [delay, Clock.read, if_pos rfl, index_pass, index]
  simp only [BitVec.setWidth_eq]
  rw [Clock.shown, if_neg plain]

end Programs

section Attempt

theorem samples_of_outputs {program : PortProgram α} (outputs : program.Outputs Chooses) (c : Clock) :
    c.updates ≤ (program.run (Clock.bus portIndex) c).2.updates ∧
      ((program.run (Clock.bus portIndex) c).2.updates = c.updates →
        (program.run (Clock.bus portIndex) c).2.registers = c.registers) :=
  ⟨(later_run portIndex outputs c).updates, (later_run portIndex outputs c).still⟩

theorem samples_readRegister (reg : Byte) (plain : reg ≠ regStatusA) (small : reg.getLsbD 7 = false) :
    Samples (Clock.bus portIndex) Clock.updates Clock.registers (readRegister reg) fun registers => registers reg := by
  intro c
  obtain ⟨before, same⟩ := samples_of_outputs (outputs_readRegister reg) c
  refine ⟨before, fun still => ⟨?_, same still⟩⟩
  rw [run_readRegister reg plain small, same still]

def binaryOf (registers : Registers) : Bool := registers regStatusB &&& statusBBinary != 0

def fieldsOf (registers : Registers) : Fields where
  second := registers regSeconds
  minute := registers regMinutes
  hour := registers regHours
  day := registers regDay
  month := registers regMonth
  year := registers regYear
  weekday := registers regWeekday

/-- The time that the registers show. -/
def timeOf (registers : Registers) : RtcTime :=
  ((fieldsOf registers).decode (binaryOf registers)).time (decodeCentury (registers regCentury) (binaryOf registers))

theorem samples_restFields (second : Byte) : Samples (Clock.bus portIndex) Clock.updates Clock.registers (restFields second)
    fun registers => { fieldsOf registers with second } :=
  (samples_readRegister _ (by decide) (by decide)).bind fun minute => (samples_readRegister _ (by decide) (by decide)).bind fun hour =>
    (samples_readRegister _ (by decide) (by decide)).bind fun day => (samples_readRegister _ (by decide) (by decide)).bind fun month =>
    (samples_readRegister _ (by decide) (by decide)).bind fun year => (samples_readRegister _ (by decide) (by decide)).bind fun weekday =>
    Samples.pure (Fields.mk second minute hour day month year weekday)

theorem samples_readFields : Samples (Clock.bus portIndex) Clock.updates Clock.registers readFields fieldsOf :=
  (samples_readRegister _ (by decide) (by decide)).bind samples_restFields

theorem agrees_self (a : Fields) : a.agrees a = true := by
  simp [Fields.agrees]

/-- Without an update the attempt succeeds. -/
theorem samples_attempt : Samples (Clock.bus portIndex) Clock.updates Clock.registers attempt
    fun registers => some (timeOf registers) := by
  refine Samples.after (samples_of_outputs (outputs_waitUipClear _)) ?_
  have whole := (samples_readRegister regStatusB (by decide) (by decide)).bind fun statusB =>
    samples_readFields.bind fun a => (samples_readRegister regCentury (by decide) (by decide)).bind fun century =>
    samples_readFields.bind fun b => Samples.ite
      ((a.decode (statusB &&& statusBBinary != 0)).agrees (b.decode (statusB &&& statusBBinary != 0)) = true)
      (Samples.pure (some ((a.decode (statusB &&& statusBBinary != 0)).time (decodeCentury century (statusB &&& statusBBinary != 0)))))
      (Samples.pure none)
  exact whole.congr fun registers => if_pos (agrees_self _)

/-- The seconds that the registers show. -/
def secondOf (registers : Registers) : Byte := (timeOf registers).second

/-- The mode stays, and the seconds tell the moments of any five updates apart. -/
structure Ticks (c : Clock) : Prop where
  steady : ∀ k, binaryOf (c.advance^[k] c.registers) = binaryOf c.registers
  distinct : ∀ i j, i < j → j ≤ i + 4 → secondOf (c.advance^[i] c.registers) ≠ secondOf (c.advance^[j] c.registers)

theorem secondOf_eq (registers : Registers) : secondOf registers =
    if binaryOf registers then registers regSeconds else bcdToBinary (registers regSeconds) := by
  rw [secondOf, timeOf, Fields.time, Fields.decode]
  split <;> rfl

/-- One pass: the seconds are those of a moment, and the rest is of the same
moment when no update comes before its end. -/
theorem run_readFields (c : Clock) : ∃ first, Later c first ∧ Later first (readFields.run (Clock.bus portIndex) c).2 ∧
    (readFields.run (Clock.bus portIndex) c).1.second = first.registers regSeconds ∧
    ((readFields.run (Clock.bus portIndex) c).2.updates = first.updates →
      (readFields.run (Clock.bus portIndex) c).1 = fieldsOf first.registers) := by
  have split : readFields = readRegister regSeconds >>= restFields := rfl
  have value := run_readRegister regSeconds (by decide) (by decide) c
  rw [split, run_bind]
  refine ⟨((readRegister regSeconds).run (Clock.bus portIndex) c).2, later_run portIndex (outputs_readRegister _) c,
    later_run portIndex (outputs_restFields _) _, value, fun still => ?_⟩
  rw [((samples_restFields _ _).2 still).1, value]
  rfl

theorem second_of_agrees {a b : Fields} {binaryMode : Bool} (agrees : (a.decode binaryMode).agrees (b.decode binaryMode) = true) :
    (if binaryMode then a.second else bcdToBinary a.second) = if binaryMode then b.second else bcdToBinary b.second := by
  simp only [Fields.agrees, Bool.and_eq_true, decide_eq_true_eq] at agrees
  have seconds := agrees.1.1.1.1.1
  cases binaryMode <;> exact seconds

/-- An accepted attempt: the seconds were the same before and after the other
registers of the first pass, so no update fell between them. -/
theorem attempt_accepts {c start : Clock} (ticks : Ticks start) (since : Later start c) {time : RtcTime}
    (accepted : (attempt.run (Clock.bus portIndex) c).1 = some time)
    (few : (attempt.run (Clock.bus portIndex) c).2.updates ≤ start.updates + 4) :
    ∃ k, start.updates + k ≤ (attempt.run (Clock.bus portIndex) c).2.updates ∧ time = timeOf (start.advance^[k] start.registers) := by
  obtain ⟨waited, c1, ran1⟩ : ∃ v c', (waitUipClear 20000).run (Clock.bus portIndex) c = (v, c') := ⟨_, _, rfl⟩
  have later1 : Later c c1 := by
    have later := later_run portIndex (outputs_waitUipClear 20000) c
    rwa [ran1] at later
  obtain ⟨statusB, c2, ran2⟩ : ∃ v c', (readRegister regStatusB).run (Clock.bus portIndex) c1 = (v, c') := ⟨_, _, rfl⟩
  have later2 : Later c1 c2 := by
    have later := later_run portIndex (outputs_readRegister regStatusB) c1
    rwa [ran2] at later
  have status : statusB = c2.registers regStatusB := by
    have value := run_readRegister regStatusB (by decide) (by decide) c1
    rwa [ran2] at value
  obtain ⟨a, c4, ran4⟩ : ∃ v c', readFields.run (Clock.bus portIndex) c2 = (v, c') := ⟨_, _, rfl⟩
  obtain ⟨c3, later3, later4, secondA, exactA⟩ := run_readFields c2
  rw [ran4] at later4 secondA exactA
  have later4 : Later c3 c4 := later4
  have exactA : c4.updates = c3.updates → a = fieldsOf c3.registers := exactA
  obtain ⟨century, c5, ran5⟩ : ∃ v c', (readRegister regCentury).run (Clock.bus portIndex) c4 = (v, c') := ⟨_, _, rfl⟩
  have later5 : Later c4 c5 := by
    have later := later_run portIndex (outputs_readRegister regCentury) c4
    rwa [ran5] at later
  have centuryOf : century = c5.registers regCentury := by
    have value := run_readRegister regCentury (by decide) (by decide) c4
    rwa [ran5] at value
  obtain ⟨b, c7, ran7⟩ : ∃ v c', readFields.run (Clock.bus portIndex) c5 = (v, c') := ⟨_, _, rfl⟩
  obtain ⟨c6, later6, later7, secondB, _⟩ := run_readFields c5
  rw [ran7] at later7 secondB
  have later7 : Later c6 c7 := later7
  have run : attempt.run (Clock.bus portIndex) c =
      (if (a.decode (statusB &&& statusBBinary != 0)).agrees (b.decode (statusB &&& statusBBinary != 0)) then
        some ((a.decode (statusB &&& statusBBinary != 0)).time (decodeCentury century (statusB &&& statusBBinary != 0))) else none, c7) := by
    rw [attempt, run_bind, ran1, run_bind, ran2, run_bind, ran4, run_bind, ran5, run_bind, ran7]
    simp only
    split <;> rfl
  rw [run] at accepted few ⊢
  have at2 := (since.trans later1).trans later2
  have at3 := at2.trans later3
  have at6 := ((at3.trans later4).trans later5).trans later6
  have kept {c' : Clock} (later : Later start c') : binaryOf c'.registers = binaryOf start.registers :=
    (congrArg binaryOf later.registers).trans (ticks.steady _)
  have mode : (statusB &&& statusBBinary != 0) = binaryOf start.registers := by
    rw [status]
    exact kept at2
  rw [mode] at accepted
  by_cases agrees : (a.decode (binaryOf start.registers)).agrees (b.decode (binaryOf start.registers)) = true
  · rw [if_pos agrees] at accepted
    have seconds : secondOf c3.registers = secondOf c6.registers := by
      have equal := second_of_agrees agrees
      rwa [secondA, secondB, ← kept at3, ← secondOf_eq, kept at3, ← kept at6, ← secondOf_eq] at equal
    have order := And.intro later4.updates (And.intro later5.updates (And.intro later6.updates later7.updates))
    have same : c6.updates = c3.updates := by
      rw [at3.registers, at6.registers] at seconds
      have from_ := And.intro at3.updates at6.updates
      have few : c7.updates ≤ start.updates + 4 := few
      refine Decidable.byContradiction fun other => ?_
      exact ticks.distinct (c3.updates - start.updates) (c6.updates - start.updates) (by omega) (by omega) seconds
    have first := exactA (by omega)
    have second : c5.registers = c3.registers := (later4.trans later5).still (by omega)
    refine ⟨c3.updates - start.updates, ?_, ?_⟩
    · have from_ := at3.updates
      change start.updates + (c3.updates - start.updates) ≤ c7.updates
      omega
    · rw [← at3.registers, ← Option.some.inj accepted, first, centuryOf, second, ← kept at3]
      rfl
  · rw [if_neg agrees] at accepted
    cases accepted

/-- Each attempt that fails has seen an update. -/
theorem readTimeFrom_moment {start : Clock} (ticks : Ticks start) (left : Nat) {c : Clock} (since : Later start c)
    (failed : start.updates + 5 ≤ c.updates + left)
    (few : ((readTimeFrom left).run (Clock.bus portIndex) c).2.updates ≤ start.updates + 4) :
    ∃ k, start.updates + k ≤ ((readTimeFrom left).run (Clock.bus portIndex) c).2.updates ∧
      ((readTimeFrom left).run (Clock.bus portIndex) c).1 = timeOf (start.advance^[k] start.registers) := by
  induction left generalizing c with
  | zero =>
    have later := (later_run portIndex (outputs_readTimeFrom 0) c).updates
    omega
  | succ left ih =>
    have later := later_run portIndex outputs_attempt c
    rw [readTimeFrom, run_bind] at few ⊢
    cases result : (attempt.run (Clock.bus portIndex) c).1 with
    | some time =>
      rw [result] at few
      obtain ⟨k, le, same⟩ := attempt_accepts ticks since result few
      exact ⟨k, le, same⟩
    | none =>
      rw [result] at few
      refine ih (since.trans later) ?_ few
      have changed : (attempt.run (Clock.bus portIndex) c).2.updates ≠ c.updates := by
        intro still
        have accepted := ((samples_attempt c).2 still).1
        rw [result] at accepted
        cases accepted
      have before := later.updates
      omega

/-- With at most four updates in the whole call, the time that is read is one
that the clock showed during it. -/
theorem readTime_moment {c : Clock} (ticks : Ticks c)
    (few : (readTime.run (Clock.bus portIndex) c).2.updates ≤ c.updates + 4) :
    ∃ k, c.updates + k ≤ (readTime.run (Clock.bus portIndex) c).2.updates ∧
      (readTime.run (Clock.bus portIndex) c).1 = timeOf (c.advance^[k] c.registers) :=
  readTimeFrom_moment ticks 5 (.refl c) (Nat.le_refl _) few

end Attempt

end MexOS.Drivers.Rtc
