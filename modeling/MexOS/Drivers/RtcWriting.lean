import MexOS.Drivers.RtcReading

/-! Setting the clock: nothing comes between the writes, and what is read
afterwards goes on from what was written. -/

namespace MexOS.Drivers.Rtc

open MexOS.Machine PortProgram

section Held

variable {c : Clock}

theorem pass_held (held : c.held = true) : c.pass = { c with accesses := c.accesses + 1 } := if_pos held

def Clock.put (c : Clock) (value : Byte) : Clock := { c with registers := Function.update c.registers c.index value }

/-- One register is written, after time to select it and before more to leave it. -/
theorem run_writeRegister (reg : Byte) (small : reg.getLsbD 7 = false) (value : Byte) (c : Clock) :
    ∃ chosen, (writeRegister reg value).run (Clock.bus portIndex) c = ((), (chosen.put value).pass) ∧ chosen.index = reg ∧
      Later c chosen ∧ (c.held = true → chosen.registers = c.registers ∧ chosen.updates = c.updates) := by
  have choice : Clock.write portIndex 8 portIndex (reg ||| nmiDisable) c = { c.pass with index := reg } := by
    rw [Clock.write, if_pos rfl, selected small]
  have delay (c : Clock) : Clock.write portIndex 8 0x80 0 c = c.pass := by
    rw [Clock.write, if_neg (by decide), if_neg (by decide)]
  have data (c : Clock) : Clock.write portIndex 8 portData value c = c.pass.put value := by
    rw [Clock.write, if_neg (by decide), if_pos rfl, BitVec.setWidth_eq]
    exact congrArg (fun place => { c.pass with registers := Function.update c.pass.registers place value }) (index_pass c).symm
  have later : Later c { c.pass with index := reg } := ⟨(later_pass c).advance, (later_pass c).updates, (later_pass c).registers⟩
  refine ⟨({ c.pass with index := reg } : Clock).pass.pass, ?_, ?_, (later.trans (later_pass _)).trans (later_pass _), fun held => ?_⟩
  · change ((), Clock.write portIndex 8 0x80 0 (Clock.write portIndex 8 portData value (Clock.write portIndex 8 0x80 0
      (Clock.write portIndex 8 portIndex (reg ||| nmiDisable) c)))) = _
    rw [choice, delay, data, delay]
  · rw [index_pass, index_pass]
  · rw [pass_held held]
    have still : ({ c with accesses := c.accesses + 1, index := reg } : Clock).held = true := held
    rw [pass_held still]
    have again : ({ c with accesses := c.accesses + 1 + 1, index := reg } : Clock).held = true := held
    rw [pass_held again]
    exact ⟨rfl, rfl⟩

def writeAll : List (Byte × Byte) → PortProgram Unit
  | [] => pure ()
  | write :: rest => do
    writeRegister write.1 write.2
    writeAll rest

/-- The registers after some writes, in order. -/
def storeAll (registers : Registers) (writes : List (Byte × Byte)) : Registers :=
  writes.foldl (fun registers write => Function.update registers write.1 write.2) registers

/-- While updates are held off the registers are what is written to them. -/
theorem run_writeAll {writes : List (Byte × Byte)} (plain : ∀ write ∈ writes, write.1 ≠ regStatusB ∧ write.1.getLsbD 7 = false)
    (held : c.held = true) : ((writeAll writes).run (Clock.bus portIndex) c).2.registers = storeAll c.registers writes ∧
      ((writeAll writes).run (Clock.bus portIndex) c).2.updates = c.updates ∧
      ((writeAll writes).run (Clock.bus portIndex) c).2.advance = c.advance ∧
      ((writeAll writes).run (Clock.bus portIndex) c).2.held = true := by
  induction writes generalizing c with
  | nil => exact ⟨rfl, rfl, rfl, held⟩
  | cons write rest ih =>
    obtain ⟨other, small⟩ := plain write (List.mem_cons_self ..)
    obtain ⟨chosen, ran, index, later, kept⟩ := run_writeRegister write.1 small write.2 c
    obtain ⟨registers, updates⟩ := kept held
    have still : (chosen.put write.2).held = true := by
      change (Function.update chosen.registers chosen.index write.2 regStatusB &&& 0x80 != 0) = true
      rw [index, Function.update_of_ne other.symm, registers]
      exact held
    have passed : (chosen.put write.2).pass.held = true := by
      rw [pass_held still]
      exact still
    have written : (chosen.put write.2).pass.registers = Function.update c.registers write.1 write.2 := by
      rw [pass_held still, Clock.put, index, registers]
    have counted : (chosen.put write.2).pass.updates = c.updates := by
      rw [pass_held still]
      exact updates
    have same : (chosen.put write.2).pass.advance = c.advance := by
      rw [pass_held still]
      exact later.advance
    obtain ⟨restRegisters, restUpdates, restAdvance, restHeld⟩ := ih (fun write member => plain write (List.mem_cons_of_mem _ member)) passed
    rw [writeAll, run_bind, ran]
    exact ⟨by rw [restRegisters, written]; rfl, restUpdates.trans counted, restAdvance.trans same, restHeld⟩

end Held

section WriteTime

/-- The writes between those of the status. -/
def timeWrites (binaryMode : Bool) (time : RtcTime) : List (Byte × Byte) :=
  [(regSeconds, encode binaryMode time.second), (regMinutes, encode binaryMode time.minute),
    (regHours, encode binaryMode time.hour), (regDay, encode binaryMode time.day), (regMonth, encode binaryMode time.month),
    (regYear, encode binaryMode ((time.year % 100).setWidth 8)), (regCentury, encode binaryMode ((time.year / 100).setWidth 8))]

theorem plain_timeWrites (binaryMode : Bool) (time : RtcTime) :
    ∀ write ∈ timeWrites binaryMode time, write.1 ≠ regStatusB ∧ write.1.getLsbD 7 = false := by
  have each : ∀ reg ∈ [regSeconds, regMinutes, regHours, regDay, regMonth, regYear, regCentury],
      reg ≠ regStatusB ∧ reg.getLsbD 7 = false := by
    decide
  intro write member
  exact each write.1 (List.mem_map_of_mem (f := Prod.fst) member)

def storeTime (time : RtcTime) (registers : Registers) : Registers :=
  Function.update (storeAll (Function.update registers regStatusB (registers regStatusB ||| 0x80))
    (timeWrites (binaryOf registers) time)) regStatusB (registers regStatusB &&& 0x7F)

/-- All is written to the registers of one moment. -/
theorem run_writeTime (time : RtcTime) {c : Clock} (steady : ∀ k, (c.advance^[k] c.registers) regStatusB = c.registers regStatusB) :
    ∃ k n, ((writeTime time).run (Clock.bus portIndex) c).2.registers = c.advance^[n] (storeTime time (c.advance^[k] c.registers)) ∧
      ((writeTime time).run (Clock.bus portIndex) c).2.updates = c.updates + k + n ∧
      ((writeTime time).run (Clock.bus portIndex) c).2.advance = c.advance := by
  obtain ⟨statusB, c1, ran1⟩ : ∃ v c', (readRegister regStatusB).run (Clock.bus portIndex) c = (v, c') := ⟨_, _, rfl⟩
  have later1 : Later c c1 := by
    have later := later_run portIndex (outputs_readRegister regStatusB) c
    rwa [ran1] at later
  have status1 : statusB = c1.registers regStatusB := by
    have value := run_readRegister regStatusB (by decide) (by decide) c
    rwa [ran1] at value
  obtain ⟨prevB, c2, ran2⟩ : ∃ v c', (readRegister regStatusB).run (Clock.bus portIndex) c1 = (v, c') := ⟨_, _, rfl⟩
  have later2 : Later c1 c2 := by
    have later := later_run portIndex (outputs_readRegister regStatusB) c1
    rwa [ran2] at later
  have status2 : prevB = c2.registers regStatusB := by
    have value := run_readRegister regStatusB (by decide) (by decide) c1
    rwa [ran2] at value
  obtain ⟨c3, ran3, index3, later3, _⟩ := run_writeRegister regStatusB (by decide) (prevB ||| 0x80) c2
  have at2 := later1.trans later2
  have at3 := at2.trans later3
  have kept {c' : Clock} (later : Later c c') : c'.registers regStatusB = c.registers regStatusB := by
    rw [later.registers]
    exact steady _
  have prev : prevB = c3.registers regStatusB := by rw [status2, kept at2, kept at3]
  have mode : (statusB &&& statusBBinary != 0) = binaryOf c3.registers := by rw [status1, kept later1, ← kept at3, binaryOf]
  -- From here to the last write of the status no update comes.
  have held3 : (c3.put (prevB ||| 0x80)).held = true := by
    change (Function.update c3.registers c3.index (prevB ||| 0x80) regStatusB &&& 0x80 != 0) = true
    rw [index3, Function.update_self, bne_iff_ne]
    intro zero
    have seventh := congrArg (fun byte => byte.getLsbD 7) zero
    simp at seventh
  have held4 : (c3.put (prevB ||| 0x80)).pass.held = true := by
    rw [pass_held held3]
    exact held3
  have held5 : (c3.put (prevB ||| 0x80)).pass.pass.held = true := by
    rw [pass_held held4]
    exact held4
  have registers5 : (c3.put (prevB ||| 0x80)).pass.pass.registers = Function.update c3.registers regStatusB (prevB ||| 0x80) := by
    rw [pass_held held4, pass_held held3, ← index3]
    rfl
  have updates5 : (c3.put (prevB ||| 0x80)).pass.pass.updates = c3.updates := by
    rw [pass_held held4, pass_held held3]
    rfl
  have advance5 : (c3.put (prevB ||| 0x80)).pass.pass.advance = c3.advance := by
    rw [pass_held held4, pass_held held3]
    rfl
  obtain ⟨registers6, updates6, advance6, held6⟩ := run_writeAll (plain_timeWrites (statusB &&& statusBBinary != 0) time) held5
  obtain ⟨_, c6, ran6⟩ : ∃ v c', (writeAll (timeWrites (statusB &&& statusBBinary != 0) time)).run (Clock.bus portIndex)
    (c3.put (prevB ||| 0x80)).pass.pass = (v, c') := ⟨_, _, rfl⟩
  rw [ran6] at registers6 updates6 advance6 held6
  obtain ⟨c7, ran7, index7, later7, same7⟩ := run_writeRegister regStatusB (by decide) (prevB &&& 0x7F) c6
  obtain ⟨registers7, updates7⟩ := same7 held6
  have run : (writeTime time).run (Clock.bus portIndex) c = ((), (c7.put (prevB &&& 0x7F)).pass) := by
    have split : writeTime time = (do
      let statusB ← readRegister regStatusB
      let prevB ← readRegister regStatusB
      writeRegister regStatusB (prevB ||| 0x80)
      ioDelay
      writeAll (timeWrites (statusB &&& statusBBinary != 0) time)
      writeRegister regStatusB (prevB &&& 0x7F)) := rfl
    have delay (c : Clock) : ioDelay.run (Clock.bus portIndex) c = ((), c.pass) := rfl
    rw [split, run_bind, ran1, run_bind, ran2, run_bind, ran3, run_bind, delay, run_bind, ran6, ran7]
  have last := later_pass (c7.put (prevB &&& 0x7F))
  have stored : (c7.put (prevB &&& 0x7F)).registers = storeTime time c3.registers := by
    rw [Clock.put, index7, registers7, registers6, registers5, mode, prev]
    rfl
  have advances : c7.advance = c.advance := later7.advance.trans (advance6.trans (advance5.trans at3.advance))
  have counted : c7.updates = c3.updates := updates7.trans (updates6.trans updates5)
  have below := last.updates
  have upto := at3.updates
  rw [run]
  refine ⟨c3.updates - c.updates, (c7.put (prevB &&& 0x7F)).pass.updates - c7.updates, ?_, ?_, last.advance.trans advances⟩
  · rw [← at3.registers, ← stored, ← advances]
    exact last.registers
  · have below : c7.updates ≤ (c7.put (prevB &&& 0x7F)).pass.updates := below
    simp only
    omega

end WriteTime

section Stored

theorem bcdToBinary_binaryToBcd {value : Byte} (small : value.toNat < 100) : bcdToBinary (binaryToBcd value) = value := by
  have each : ∀ n < 100, bcdToBinary (binaryToBcd (BitVec.ofNat 8 n)) = BitVec.ofNat 8 n := by decide
  have same := each value.toNat small
  rwa [BitVec.ofNat_toNat, BitVec.setWidth_eq] at same

variable (time : RtcTime) (registers : Registers)

theorem fieldsOf_storeTime : fieldsOf (storeTime time registers) =
    { second := encode (binaryOf registers) time.second
      minute := encode (binaryOf registers) time.minute
      hour := encode (binaryOf registers) time.hour
      day := encode (binaryOf registers) time.day
      month := encode (binaryOf registers) time.month
      year := encode (binaryOf registers) ((time.year % 100).setWidth 8)
      weekday := registers regWeekday } := by
  simp [fieldsOf, storeTime, storeAll, timeWrites, regSeconds, regMinutes, regHours, regDay, regMonth, regYear, regWeekday,
    regStatusB, regCentury]

theorem century_storeTime : storeTime time registers regCentury = encode (binaryOf registers) ((time.year / 100).setWidth 8) := by
  simp [storeTime, storeAll, timeWrites, regSeconds, regMinutes, regHours, regDay, regMonth, regYear, regStatusB, regCentury]

theorem binaryOf_storeTime : binaryOf (storeTime time registers) = binaryOf registers := by
  rw [binaryOf, binaryOf, storeTime, Function.update_self, BitVec.and_assoc]
  rfl

theorem storeAll_other {reg : Byte} {writes : List (Byte × Byte)} (other : ∀ write ∈ writes, write.1 ≠ reg) :
    storeAll registers writes reg = registers reg := by
  induction writes generalizing registers with
  | nil => rfl
  | cons write rest ih =>
    have first := other write (List.mem_cons_self ..)
    have later := ih (Function.update registers write.1 write.2) fun write member => other write (List.mem_cons_of_mem _ member)
    exact later.trans (Function.update_of_ne first.symm _ _)

/-- The times that the registers can hold. -/
structure Storable (binaryMode : Bool) (time : RtcTime) : Prop where
  second : time.second.toNat < if binaryMode then 256 else 100
  minute : time.minute.toNat < if binaryMode then 256 else 100
  hour : time.hour.toNat < if binaryMode then 256 else 100
  day : time.day.toNat < if binaryMode then 256 else 100
  month : time.month.toNat < if binaryMode then 256 else 100
  year : 100 ≤ time.year.toNat ∧ time.year.toNat < if binaryMode then 25500 else 10000

theorem decode_encode {binaryMode : Bool} {value : Byte} (small : value.toNat < if binaryMode then 256 else 100) :
    (if binaryMode then encode binaryMode value else bcdToBinary (encode binaryMode value)) = value := by
  cases binaryMode with
  | true => rfl
  | false => exact bcdToBinary_binaryToBcd small

theorem fullYear_split {year : BitVec 16} (lower : 100 ≤ year.toNat) (upper : year.toNat < 25500) :
    fullYear ((year % 100).setWidth 8) ((year / 100).setWidth 8) = year := by
  have low : ((year % 100).setWidth 8).toNat = year.toNat % 100 := by
    rw [BitVec.toNat_setWidth, BitVec.toNat_umod]
    exact Nat.mod_eq_of_lt (Nat.lt_trans (Nat.mod_lt _ (by decide)) (by decide))
  have high : ((year / 100).setWidth 8).toNat = year.toNat / 100 := by
    rw [BitVec.toNat_setWidth, BitVec.toNat_udiv]
    exact Nat.mod_eq_of_lt (show year.toNat / 100 < 256 by omega)
  have century : (year / 100).setWidth 8 ≠ (0 : Byte) ∧ (year / 100).setWidth 8 ≠ (0xFF : Byte) := by
    constructor <;> intro same <;> rw [same] at high
    · have value : 0 = year.toNat / 100 := high
      omega
    · have value : 255 = year.toNat / 100 := high
      omega
  rw [fullYear, if_pos century]
  apply BitVec.eq_of_toNat_eq
  have hundred : (100 : BitVec 16).toNat = 100 := rfl
  have widen (byte : Byte) : (byte.setWidth 16).toNat = byte.toNat := BitVec.toNat_setWidth_of_le (by decide)
  rw [BitVec.toNat_add, BitVec.toNat_mul, widen, widen, low, high, hundred]
  omega

theorem decodeCentury_encode {binaryMode : Bool} {century : Byte} (small : century.toNat < if binaryMode then 256 else 100) :
    decodeCentury (encode binaryMode century) binaryMode = century := by
  cases binaryMode with
  | true => rfl
  | false =>
    have decoded := bcdToBinary_binaryToBcd (show century.toNat < 100 from small)
    have missing : binaryToBcd century ≠ 0xFF := by
      intro same
      rw [same] at decoded
      rw [← decoded] at small
      exact absurd small (by decide)
    have kept : ¬ (false || decide (binaryToBcd century = 0xFF)) = true := by
      simpa only [Bool.false_or, decide_eq_true_eq] using missing
    exact (if_neg kept).trans decoded

/-- What is stored is read as the time that was written, on the old weekday. -/
theorem timeOf_storeTime (storable : Storable (binaryOf registers) time) :
    timeOf (storeTime time registers) = { time with weekday := (timeOf registers).weekday } := by
  obtain ⟨second, minute, hour, day, month, lower, upper⟩ := storable
  have bound : time.year.toNat < 25500 := by
    split at upper <;> omega
  have low : ((time.year % 100).setWidth 8).toNat < if binaryOf registers then 256 else 100 := by
    have value : ((time.year % 100).setWidth 8).toNat = time.year.toNat % 100 % 256 := by
      rw [BitVec.toNat_setWidth, BitVec.toNat_umod]
      rfl
    rw [value]
    split <;> omega
  have high : ((time.year / 100).setWidth 8).toNat < if binaryOf registers then 256 else 100 := by
    have value : ((time.year / 100).setWidth 8).toNat = time.year.toNat / 100 % 256 := by
      rw [BitVec.toNat_setWidth, BitVec.toNat_udiv]
      rfl
    rw [value]
    split at upper <;> simp_all <;> omega
  have decode (fields : Fields) : fields.decode (binaryOf registers) =
      { second := if binaryOf registers then fields.second else bcdToBinary fields.second
        minute := if binaryOf registers then fields.minute else bcdToBinary fields.minute
        hour := if binaryOf registers then fields.hour else bcdToBinary fields.hour
        day := if binaryOf registers then fields.day else bcdToBinary fields.day
        month := if binaryOf registers then fields.month else bcdToBinary fields.month
        year := if binaryOf registers then fields.year else bcdToBinary fields.year
        weekday := if binaryOf registers then fields.weekday else bcdToBinary fields.weekday } := by
    rw [Fields.decode]
    split <;> rfl
  rw [timeOf, fieldsOf_storeTime, century_storeTime, binaryOf_storeTime, decodeCentury_encode high, decode]
  simp only [decode_encode second, decode_encode minute, decode_encode hour, decode_encode day, decode_encode month,
    decode_encode low, Fields.time, fullYear_split lower bound, timeOf, decode]
  rfl

end Stored

section RoundTrip

variable {c : Clock} {time : RtcTime}

theorem binaryOf_congr {registers other : Registers} (same : registers regStatusB = other regStatusB) :
    binaryOf registers = binaryOf other := congrArg (fun status => status &&& statusBBinary != 0) same

/-- All is written to the registers of one moment, whatever is due meanwhile,
and the clock goes on from there; a reading then finds the time that was set, or
one that the clock has gone on to from it. -/
theorem write_then_read (storable : Storable (binaryOf c.registers) time)
    (steady : ∀ k, (c.advance^[k] c.registers) regStatusB = c.registers regStatusB) :
    ∃ before stored : Registers, ∃ k m, before = c.advance^[k] c.registers ∧
      timeOf stored = { time with weekday := (timeOf before).weekday } ∧
      (∀ reg, reg ≠ regStatusB → (∀ write ∈ timeWrites (binaryOf c.registers) time, write.1 ≠ reg) → stored reg = before reg) ∧
      stored regStatusB = before regStatusB &&& 0x7F ∧
      ((writeTime time).run (Clock.bus portIndex) c).2.registers = c.advance^[m] stored ∧
      ((writeTime time).run (Clock.bus portIndex) c).2.updates = c.updates + k + m ∧
      (Ticks ((writeTime time).run (Clock.bus portIndex) c).2 →
        (readTime.run (Clock.bus portIndex) ((writeTime time).run (Clock.bus portIndex) c).2).2.updates ≤
          ((writeTime time).run (Clock.bus portIndex) c).2.updates + 4 →
        ∃ n, (readTime.run (Clock.bus portIndex) ((writeTime time).run (Clock.bus portIndex) c).2).1 =
            timeOf (c.advance^[m + n] stored) ∧
          c.updates + k + m + n ≤
            (readTime.run (Clock.bus portIndex) ((writeTime time).run (Clock.bus portIndex) c).2).2.updates) := by
  obtain ⟨k, m, registers, updates, advance⟩ := run_writeTime time steady
  have mode : binaryOf (c.advance^[k] c.registers) = binaryOf c.registers := binaryOf_congr (steady k)
  refine ⟨c.advance^[k] c.registers, storeTime time (c.advance^[k] c.registers), k, m, rfl,
    timeOf_storeTime _ _ (by rw [mode]; exact storable), fun reg status other => ?_, ?_, registers, updates, fun ticks few => ?_⟩
  · rw [storeTime, Function.update_of_ne status, mode, storeAll_other _ other, Function.update_of_ne status]
  · rw [storeTime, Function.update_self]
  · obtain ⟨later, le, read⟩ := readTime_moment ticks few
    refine ⟨later, ?_, by omega⟩
    rw [read, registers, advance, Nat.add_comm m, Function.iterate_add_apply]

end RoundTrip

section Unselected

variable {index : Port} {c : Clock}

/-- An update comes, or the register that is selected is written. -/
def Changes (c : Clock) (registers changed : Registers) : Prop :=
  changed = c.advance registers ∨ ∃ value, changed = Function.update registers c.index value

/-- What every program does to a clock that is selected elsewhere. -/
structure Unselected (before after : Clock) : Prop where
  index : after.index = before.index
  advance : after.advance = before.advance
  updates : before.updates ≤ after.updates
  changes : Relation.ReflTransGen (Changes before) before.registers after.registers
  others : after.updates = before.updates → ∀ reg, reg ≠ before.index → after.registers reg = before.registers reg

theorem Unselected.trans {first second third : Clock} (left : Unselected first second) (right : Unselected second third) :
    Unselected first third := by
  have same : Changes second = Changes first := by
    funext registers changed
    rw [Changes, Changes, left.advance, left.index]
  refine ⟨right.index.trans left.index, right.advance.trans left.advance, Nat.le_trans left.updates right.updates,
    left.changes.trans (same ▸ right.changes), fun still reg other => ?_⟩
  have below := And.intro left.updates right.updates
  rw [right.others (by omega) reg (by rwa [left.index]), left.others (by omega) reg other]

theorem changes_iterate (c : Clock) (registers : Registers) (n : Nat) :
    Relation.ReflTransGen (Changes c) registers (c.advance^[n] registers) := by
  induction n with
  | zero => exact .refl
  | succ n ih => exact ih.tail (.inl (Function.iterate_succ_apply' ..))

theorem unselected_pass (c : Clock) : Unselected c c.pass := by
  have later := later_pass c
  refine ⟨index_pass c, later.advance, later.updates, ?_, fun still reg _ => congrFun (later.still still) reg⟩
  rw [later.registers]
  exact changes_iterate c _ _

theorem unselected_run {program : PortProgram α} (outputs : program.Outputs fun port => port ≠ index) (c : Clock) :
    Unselected c (program.run (Clock.bus index) c).2 := by
  refine outputs.run Unselected (fun c => ⟨rfl, rfl, Nat.le_refl _, .refl, fun _ _ _ => rfl⟩) (fun _ _ _ => Unselected.trans) (fun width port c => ?_)
    (fun width port value c other => ?_) c
  · change Unselected c (Clock.read width port c).2
    rw [Clock.read]
    split <;> exact unselected_pass c
  · change Unselected c (Clock.write index width port value c)
    rw [Clock.write, if_neg other]
    split
    · refine (unselected_pass c).trans ⟨rfl, rfl, Nat.le_refl _, .single (.inr ⟨value.setWidth 8, ?_⟩),
        fun _ reg apart => ?_⟩
      · rw [index_pass]
      · rw [index_pass] at apart
        exact Function.update_of_ne apart _ _
    · exact unselected_pass c

/-- The answers of a clock with one register selected for good. -/
def stuck (value : Byte) (width : Nat) (port : Port) : BitVec width :=
  if port = portData then value.setWidth width else BitVec.allOnes width

theorem eval_readRegister (value reg : Byte) : (readRegister reg).eval (stuck value) = value := by
  change stuck value 8 portData = value
  rw [stuck, if_pos rfl, BitVec.setWidth_eq]

theorem eval_readFields (value : Byte) : readFields.eval (stuck value) = fieldsOf fun _ => value := by
  simp only [readFields, eval_bind, eval_readRegister]
  rfl

theorem eval_readTime (value : Byte) : readTime.eval (stuck value) = timeOf fun _ => value := by
  have accepted : attempt.eval (stuck value) = some (timeOf fun _ => value) := by
    rw [attempt]
    simp only [eval_bind, eval_readRegister, eval_readFields, agrees_self, if_true]
    rfl
  rw [readTime, readTimeFrom, eval_bind, accepted]
  rfl

theorem outputs_writeTime (time : RtcTime) (index_ : index ≠ portIndex) (delay : index ≠ 0x80) (data : index ≠ portData) :
    (writeTime time).Outputs fun port => port ≠ index := by
  have select (reg : Byte) : (readRegister reg).Outputs fun port => port ≠ index := ⟨index_.symm, delay.symm, fun _ => trivial⟩
  have write (reg value : Byte) : (writeRegister reg value).Outputs fun port => port ≠ index :=
    ⟨index_.symm, delay.symm, data.symm, delay.symm, trivial⟩
  exact Outputs.bind (select _) fun _ => Outputs.bind (select _) fun _ => Outputs.bind (write _ _) fun _ =>
    Outputs.bind (m := ioDelay) ⟨delay.symm, trivial⟩ fun _ => Outputs.bind (write _ _) fun _ => Outputs.bind (write _ _) fun _ =>
    Outputs.bind (write _ _) fun _ => Outputs.bind (write _ _) fun _ => Outputs.bind (write _ _) fun _ =>
    Outputs.bind (write _ _) fun _ => Outputs.bind (write _ _) fun _ => write _ _

/-- A clock whose registers are selected at another port than the driver's: no
register but the one left selected is ever written, and where updates leave that
one alone it answers every read. -/
theorem unselected (index_ : index ≠ portIndex) (delay : index ≠ 0x80) (data : index ≠ portData) (time : RtcTime) :
    (c.index ≠ regStatusA → (∀ k, (c.advance^[k] c.registers) c.index = c.registers c.index) →
      (readTime.run (Clock.bus index) c).1 = timeOf (fun _ => c.registers c.index)) ∧
      Unselected c ((writeTime time).run (Clock.bus index) c).2 := by
  refine ⟨fun plain fixed => ?_, unselected_run (outputs_writeTime time index_ delay data) c⟩
  have passes {c' : Clock} (good : Later c c' ∧ c'.index = c.index) : Later c c'.pass ∧ c'.pass.index = c.index :=
    ⟨good.1.trans (later_pass c'), (index_pass c').trans good.2⟩
  have outputs : readTime.Outputs Chooses := outputs_readTimeFrom 5
  have reads (width : Nat) (port : Port) (c' : Clock) (good : Later c c' ∧ c'.index = c.index) :
      (Clock.read width port c').1 = stuck (c.registers c.index) width port ∧
        Later c (Clock.read width port c').2 ∧ (Clock.read width port c').2.index = c.index := by
    obtain ⟨later, same⟩ := passes good
    rw [Clock.read, stuck]
    split
    · refine ⟨?_, later, same⟩
      rw [Clock.shown, good.2, if_neg plain, later.registers, fixed]
    · exact ⟨rfl, later, same⟩
  have writes (width : Nat) (port : Port) (value : BitVec width) (c' : Clock) (chooses : Chooses port)
      (good : Later c c' ∧ c'.index = c.index) : Later c (Clock.write index width port value c') ∧
        (Clock.write index width port value c').index = c.index := by
    have apart : port ≠ index ∧ port ≠ portData := by
      rcases chooses with rfl | rfl
      · exact ⟨index_.symm, by decide⟩
      · exact ⟨delay.symm, by decide⟩
    rw [Clock.write, if_neg apart.1, if_neg apart.2]
    exact passes good
  exact (outputs.run_eval (stuck (c.registers c.index)) (fun c' => Later c c' ∧ c'.index = c.index) reads writes
    ⟨.refl c, rfl⟩).trans (eval_readTime _)

end Unselected

section Clocks

/-- A clock of seconds only, in packed decimals, that goes on while it is read. -/
def secondsClock : Clock where
  registers := fun _ => 0
  index := 0
  advance := fun registers => Function.update registers regSeconds (binaryToBcd ((bcdToBinary (registers regSeconds) + 1) % 60))
  due := fun access => if access = 20 then 1 else 0
  updating := fun _ => false
  accesses := 0
  updates := 0

theorem iterate_seconds {registers : Registers} {second : Nat} (small : second < 60)
    (shown : registers regSeconds = binaryToBcd (BitVec.ofNat 8 second)) (k : Nat) :
    secondsClock.advance^[k] registers =
      Function.update registers regSeconds (binaryToBcd (BitVec.ofNat 8 ((second + k) % 60))) := by
  have next : ∀ n < 60, (bcdToBinary (binaryToBcd (BitVec.ofNat 8 n)) + 1) % 60 = BitVec.ofNat 8 ((n + 1) % 60) := by decide
  induction k with
  | zero => rw [Nat.add_zero, Nat.mod_eq_of_lt small, ← shown, Function.update_eq_self, Function.iterate_zero_apply]
  | succ k ih =>
    have value := next ((second + k) % 60) (Nat.mod_lt _ (by decide))
    rw [Nat.mod_add_mod] at value
    rw [Function.iterate_succ_apply', ih]
    simp only [secondsClock, Function.update_self, Function.update_idem, value, Nat.add_assoc]

theorem ticks_seconds {c : Clock} (advance : c.advance = secondsClock.advance) {second : Nat} (small : second < 60)
    (shown : c.registers regSeconds = binaryToBcd (BitVec.ofNat 8 second)) (packed : binaryOf c.registers = false) : Ticks c := by
  have mode (k : Nat) : binaryOf (c.advance^[k] c.registers) = binaryOf c.registers := by
    rw [advance, iterate_seconds small shown]
    exact binaryOf_congr (Function.update_of_ne (by decide) _ _)
  have value (k : Nat) : secondOf (c.advance^[k] c.registers) = BitVec.ofNat 8 ((second + k) % 60) := by
    have bound : (BitVec.ofNat 8 ((second + k) % 60)).toNat < 100 := by
      rw [BitVec.toNat_ofNat]
      omega
    rw [secondOf_eq, mode, packed, if_neg (by decide), advance, iterate_seconds small shown, Function.update_self]
    exact bcdToBinary_binaryToBcd bound
  refine ⟨mode, fun i j less near same => ?_⟩
  rw [value, value] at same
  have equal := congrArg BitVec.toNat same
  rw [BitVec.toNat_ofNat, BitVec.toNat_ofNat] at equal
  omega

set_option maxRecDepth 20000 in
theorem few_seconds : (readTime.run (Clock.bus portIndex) secondsClock).2.updates = 1 := by decide

theorem readTime_moment_seconds : ∃ k, k ≤ 1 ∧
    (readTime.run (Clock.bus portIndex) secondsClock).1 = timeOf (secondsClock.advance^[k] secondsClock.registers) := by
  obtain ⟨k, le, read⟩ := readTime_moment (ticks_seconds (c := secondsClock) rfl (show 0 < 60 by decide) rfl rfl)
    (by rw [few_seconds]; decide)
  rw [few_seconds] at le
  have zero : secondsClock.updates = 0 := rfl
  exact ⟨k, by omega, read⟩

/-- The fifth of May, 2024, four seconds before noon. -/
def noon : RtcTime := ⟨56, 59, 11, 5, 5, 2024, 0⟩

/-- The same clock, with no update to come. -/
def stoppedClock : Clock := { secondsClock with due := fun _ => 0 }

theorem stopped_run (program : PortProgram α) (c : Clock) (stopped : c.due = fun _ => 0) :
    (program.run (Clock.bus portIndex) c).2.due = (fun _ => 0) ∧ (program.run (Clock.bus portIndex) c).2.updates = c.updates := by
  have pass (c : Clock) (stopped : c.due = fun _ => 0) : c.pass.due = (fun _ => 0) ∧ c.pass.updates = c.updates := by
    rw [Clock.pass]
    split
    · exact ⟨stopped, rfl⟩
    · exact ⟨stopped, congrArg (fun due => c.updates + due c.accesses) stopped⟩
  induction program generalizing c with
  | done result => exact ⟨stopped, rfl⟩
  | input width port next ih =>
    have same : (Clock.read width port c).2 = c.pass := by
      rw [Clock.read]
      split <;> rfl
    obtain ⟨due, updates⟩ := ih _ (Clock.read width port c).2 (by rw [same]; exact (pass c stopped).1)
    exact ⟨due, updates.trans (by rw [same]; exact (pass c stopped).2)⟩
  | output width port value next ih =>
    have kept : (Clock.write portIndex width port value c).due = c.pass.due ∧
        (Clock.write portIndex width port value c).updates = c.pass.updates := by
      rw [Clock.write]
      split
      · exact ⟨rfl, rfl⟩
      · split <;> exact ⟨rfl, rfl⟩
    obtain ⟨due, updates⟩ := ih (Clock.write portIndex width port value c) (kept.1.trans (pass c stopped).1)
    exact ⟨due, updates.trans (kept.2.trans (pass c stopped).2)⟩

theorem write_then_read_noon :
    (readTime.run (Clock.bus portIndex) ((writeTime noon).run (Clock.bus portIndex) stoppedClock).2).1.hour = 11 := by
  have zero : stoppedClock.registers regSeconds = binaryToBcd (BitVec.ofNat 8 0) := rfl
  have steady (k : Nat) : (stoppedClock.advance^[k] stoppedClock.registers) regStatusB = stoppedClock.registers regStatusB :=
    (congrFun (iterate_seconds (by decide) zero k) regStatusB).trans (Function.update_of_ne (by decide) _ _)
  have ticks : Ticks ((writeTime noon).run (Clock.bus portIndex) stoppedClock).2 := by
    obtain ⟨k, n, registers, _, advance⟩ := run_writeTime noon steady
    have second : storeTime noon (stoppedClock.advance^[k] stoppedClock.registers) regSeconds = binaryToBcd (BitVec.ofNat 8 56) := by
      have fields := fieldsOf_storeTime noon (stoppedClock.advance^[k] stoppedClock.registers)
      rw [binaryOf_congr (steady k)] at fields
      exact congrArg Fields.second fields
    have gone := registers.trans (iterate_seconds (by decide) second n)
    refine ticks_seconds advance (Nat.mod_lt (56 + n) (show 0 < 60 by decide)) ?_ ?_
    · rw [gone, Function.update_self]
    · rw [gone, binaryOf_congr (Function.update_of_ne (by decide) _ _), binaryOf_storeTime, binaryOf_congr (steady k)]
      rfl
  obtain ⟨due, updates⟩ := stopped_run (writeTime noon) stoppedClock rfl
  have still := (stopped_run readTime _ due).2
  obtain ⟨before, stored, k, m, _, shown, _, _, _, counted, reads⟩ := write_then_read
    (show Storable (binaryOf stoppedClock.registers) noon from ⟨by decide, by decide, by decide, by decide, by decide, by decide, by decide⟩) steady
  obtain ⟨n, read, le⟩ := reads ticks (by omega)
  have none_ : m + n = 0 := by omega
  rw [read, none_, Function.iterate_zero_apply, shown]
  rfl

/-- The same clock, selected at port 0x70 and left at another register. -/
theorem unselected_seconds : (readTime.run (Clock.bus 0x70) { secondsClock with index := 0x0D }).1 = ⟨0, 0, 0, 0, 0, 2000, 0⟩ := by
  have zero : secondsClock.registers regSeconds = binaryToBcd (BitVec.ofNat 8 0) := rfl
  have fixed (k : Nat) : (secondsClock.advance^[k] secondsClock.registers) 0x0D = secondsClock.registers 0x0D :=
    (congrFun (iterate_seconds (by decide) zero k) 0x0D).trans (Function.update_of_ne (by decide) _ _)
  have read := (unselected (c := { secondsClock with index := 0x0D }) (show (0x70 : Port) ≠ portIndex by decide) (by decide) (by decide)
    noon).1 (show (0x0D : Byte) ≠ regStatusA by decide) fixed
  exact read.trans (by decide)

end Clocks

end MexOS.Drivers.Rtc
