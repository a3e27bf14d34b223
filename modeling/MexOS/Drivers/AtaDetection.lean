import MexOS.Drivers.AtaRefinement

/-! `ata_init`: which drives the table has after it, and the transfers that the
machine makes from then on. -/

namespace MexOS.Drivers.AtaPio

open MexOS.Machine MexOS.Fs PortProgram Controller

/-- The number of sectors that a drive says it has. -/
def sizeOf (identity : Bytes) : Word := (identity.half 122).setWidth 32 <<< 16 ||| (identity.half 120).setWidth 32

/-- A disk that says it has sectors. -/
def answers (attached : Attached) : Bool :=
  match attached with
  | .disk identity => sizeOf identity != 0
  | _ => false

/-- A channel after a reset, or after a drive on it was asked to identify
itself. -/
structure Fresh (c : Controller) (ch : Bool) : Prop where
  free : (c.channel ch).busy = 0
  quiet : (c.channel ch).phase.requests = false
  lbaMid : (c.channel ch).lbaMid = 0
  lbaHi : (c.channel ch).lbaHi = 0

/-- What finding the drives of a channel leaves alone. -/
structure Unmoved (before after : Controller) (ch : Bool) : Prop where
  attached : after.attached = before.attached
  pauses : after.pauses = before.pauses
  refuses : after.refuses = before.refuses
  loses : after.loses = before.loses
  transfers : after.transfers = before.transfers
  sectors : after.sectors = before.sectors
  other : after.channel (!ch) = before.channel (!ch)

theorem Unmoved.trans {first second third : Controller} {ch : Bool} (left : Unmoved first second ch)
    (right : Unmoved second third ch) : Unmoved first third ch :=
  ⟨right.attached.trans left.attached, right.pauses.trans left.pauses, right.refuses.trans left.refuses,
    right.loses.trans left.loses, right.transfers.trans left.transfers, right.sectors.trans left.sectors,
    right.other.trans left.other⟩

section Identify

variable {c : Controller} {ch : Bool} {drive : Byte}

theorem unmoved_setChannel (c : Controller) (ch : Bool) (channel : Channel) : Unmoved c (c.setChannel ch channel) ch :=
  ⟨rfl, rfl, rfl, rfl, rfl, rfl, Function.update_of_ne (Bool.not_ne_self ch) _ _⟩

/-- The words of an identification block. -/
theorem run_readWords_identify (left index word : Nat) (buf : Bytes) (free : (c.channel ch).busy = 0)
    (phase : (c.channel ch).phase = .identify word) (rest : word + left + 1 = 256) :
    (readWords (baseOf ch) index (left + 1) buf).run bus c =
      (buf.copy (2 * index) (c.identity ch) (2 * word) (2 * (left + 1)), c.setPhase ch (.idle false)) := by
  induction left generalizing c index word buf with
  | zero =>
    have last : ¬ word + 1 < 256 := by omega
    rw [readWords, run_bind, run_inw, read_data, dataWord, if_neg (by omega), phase]
    simp only [if_neg last, readWords, run_pure, Bytes.setHalf_half]
  | succ left ih =>
    have inside : word + 1 < 256 := by omega
    have later := ih (c := c.setPhase ch (.identify (word + 1))) (index + 1) (word + 1)
      (buf.copy (2 * index) (c.identity ch) (2 * word) 2) (by rw [busy_setPhase, free]) (phase_setPhase ..) (by omega)
    have known : (c.setPhase ch (.identify (word + 1))).identity ch = c.identity ch := by
      rw [Controller.identity, Controller.identity, selected_setPhase]
      rfl
    have settled : (c.setPhase ch (.identify (word + 1))).setPhase ch (.idle false) = c.setPhase ch (.idle false) := by
      simp [setPhase]
    have whole := Bytes.copy_copy buf (c.identity ch) (2 * index) (2 * word) 2 (2 * (left + 1))
    rw [readWords, run_bind, run_inw, read_data, dataWord, if_neg (by omega), phase]
    simp only [if_pos inside, Bytes.setHalf_half]
    rw [later, known, settled, show 2 * (left + 1 + 1) = 2 + 2 * (left + 1) by omega, ← whole]
    rfl

theorem half_copy (dest source : Bytes) {offset : Nat} (inside : offset + 2 ≤ 512) :
    (dest.copy 0 source 0 512).half offset = source.half offset := by
  rw [Bytes.half, Bytes.half, Bytes.copy_inside (Nat.zero_le _) (by omega), Bytes.copy_inside (Nat.zero_le _) (by omega),
    Nat.sub_zero, Nat.sub_zero, Nat.zero_add, Nat.zero_add]

/-- The drive whose bit `0xA0 | (drive_select << 4)` sets. -/
def asked (c : Controller) (ch : Bool) (driveSelect : Byte) : Controller :=
  c.setChannel ch { c.channel ch with driveHead := (0xA0 : Byte) ||| driveSelect <<< 4 }

theorem selected_asked (c : Controller) (ch : Bool) {driveSelect : Byte} (select : driveSelect = 0 ∨ driveSelect = 1) :
    (asked c ch driveSelect).selected ch = (if ch then 2 else 0) + driveSelect := by
  rw [selected, asked, channel_setChannel]
  rcases select with rfl | rfl
  · have clear : ((0xA0 : Byte) ||| (0 : Byte) <<< 4) &&& 0x10 = 0 := by decide
    exact congrArg _ (if_pos clear)
  · have set_ : ¬ ((0xA0 : Byte) ||| (1 : Byte) <<< 4) &&& 0x10 = 0 := by decide
    exact congrArg _ (if_neg set_)

theorem fresh_asked (fresh : Fresh c ch) (driveSelect : Byte) : Fresh (asked c ch driveSelect) ch := by
  obtain ⟨free, quiet, mid, hi⟩ := fresh
  constructor <;> rw [asked, channel_setChannel] <;> assumption

theorem free_asked (fresh : Fresh c ch) : c.free ch = true := by
  rw [Controller.free, fresh.free, fresh.quiet]
  rfl

/-- The program after the command has been written. -/
def identifyAnswer (baseIo : Port) : PortProgram Bool := do
  let status ← inb (baseIo + regStatus)
  if status = 0 then pure false
  else if (← waitBsy baseIo) ≠ 0 then pure false
  else if (← inb (baseIo + regLbaMid)) ≠ 0 then pure false
  else if (← inb (baseIo + regLbaHi)) ≠ 0 then pure false
  else if (← waitDrq baseIo) ≠ 0 then pure false
  else
    let identifyData ← readWords baseIo 0 256 Bytes.zero
    let size := (identifyData.half (2 * 61)).setWidth 32 <<< 16 ||| (identifyData.half (2 * 60)).setWidth 32
    pure (size != 0)

theorem run_identify_command (fresh : Fresh c ch) (driveSelect : Byte) :
    (identify (baseOf ch) driveSelect).run bus c =
      (identifyAnswer (baseOf ch)).run bus ((asked c ch driveSelect).execute ch cmdIdentify) := by
  have first : bus.write 8 (baseOf ch + regDrive) ((0xA0 : Byte) ||| driveSelect <<< 4) c = asked c ch driveSelect :=
    (write_register c ch 6 (by decide) _).trans (takeRegister_free (free_asked fresh) 6 _)
  have second : bus.write 8 (baseOf ch + regCommand) cmdIdentify (asked c ch driveSelect) =
      (asked c ch driveSelect).execute ch cmdIdentify :=
    (write_register _ ch 7 (by decide) _).trans (takeRegister_free (free_asked (fresh_asked fresh driveSelect)) 7 _)
  rw [identify]
  simp only [ioWait, run_bind, run_outb, write_delay]
  rw [first, second]
  rfl

theorem read_mid (c : Controller) (ch : Bool) : bus.read 8 (baseOf ch + regLbaMid) c = (c.register ch 4, c) :=
  read_register c ch 4 (by decide)

theorem read_hi (c : Controller) (ch : Bool) : bus.read 8 (baseOf ch + regLbaHi) c = (c.register ch 5, c) :=
  read_register c ch 5 (by decide)

/-- A disk is waited for, and its size is read off its answer. -/
theorem run_identifyAnswer_disk {identity : Bytes} (fresh : Fresh c ch) (prompt : ∀ period, c.pauses period < 100000)
    (same : c.selected ch = drive) (disk : c.attached drive = .disk identity) :
    ∃ after, (identifyAnswer (baseOf ch)).run bus (c.enter ch (.identify 0)) = (sizeOf identity != 0, after) ∧
      Unmoved c after ch ∧ Fresh after ch := by
  have selects : c.Selects ch drive := ⟨same, identity, disk⟩
  have entered := (Frame.enter c ch (.identify 0)).selects selects
  have shown : (c.enter ch (.identify 0)).status ch ≠ 0 := by
    rw [status, entered.1, show (c.enter ch (.identify 0)).attached drive = .disk identity from disk, phase_enter]
    simp only [Phase.failed, Phase.requests, Bool.false_eq_true, if_false, if_true]
    split <;> decide
  obtain ⟨busy, shape⟩ : ∃ busy, (c.enter ch (.identify 0)).poll ch = (c.enter ch (.identify 0)).setBusy ch busy ∧
      busy < 100000 := by
    refine ⟨_, rfl, ?_⟩
    have soon := prompt c.periods
    rw [busy_enter]
    omega
  have polled := entered.setBusy busy
  have waits : (waitBsy (baseOf ch)).run bus ((c.enter ch (.identify 0)).setBusy ch busy) =
      (0, (c.enter ch (.identify 0)).setBusy ch 0) := by
    rw [waitBsy, run_waitBsyFor polled 100000 (by rw [busy_setBusy]; exact shape.2)]
    simp [setBusy]
  have ready := entered.setBusy 0
  have plain (reg : Nat) (known : reg = 4 ∨ reg = 5) : ((c.enter ch (.identify 0)).setBusy ch 0).register ch reg = 0 := by
    have attached : ((c.enter ch (.identify 0)).setBusy ch 0).attached drive = .disk identity := disk
    rcases known with rfl | rfl
    · unfold register
      rw [ready.1, attached]
      simpa [setBusy, enter, setChannel] using fresh.lbaMid
    · unfold register
      rw [ready.1, attached]
      simpa [setBusy, enter, setChannel] using fresh.lbaHi
  have request : (waitDrq (baseOf ch)).run bus ((c.enter ch (.identify 0)).setBusy ch 0) =
      (0, (c.enter ch (.identify 0)).setBusy ch 0) := by
    have phase : (((c.enter ch (.identify 0)).setBusy ch 0).channel ch).phase = .identify 0 := by
      rw [phase_setBusy, phase_enter]
    rw [waitDrq, run_waitDrqFor ready 100000 (by rw [busy_setBusy]; decide) (by rw [phase]; decide), phase]
    simp [setBusy, Phase.failed]
  have words := run_readWords_identify 255 0 0 Bytes.zero (busy_setBusy (c.enter ch (.identify 0)) ch 0)
    (by rw [phase_setBusy, phase_enter]) rfl
  have block : ((c.enter ch (.identify 0)).setBusy ch 0).identity ch = identity := by
    rw [Controller.identity, ready.1, show ((c.enter ch (.identify 0)).setBusy ch 0).attached drive = .disk identity from disk]
  refine ⟨((c.enter ch (.identify 0)).setBusy ch 0).setPhase ch (.idle false), ?_, ?_, ?_⟩
  · rw [identifyAnswer, run_bind, run_inb, read_status, if_neg shown, shape.1, run_bind, waits]
    simp only [ne_eq, not_true_eq_false, if_false, run_bind, run_inb, read_mid, read_hi, plain 4 (.inl rfl), plain 5 (.inr rfl)]
    rw [request]
    simp only [not_true_eq_false, if_false, run_bind]
    rw [words, block]
    simp only [run_pure, sizeOf]
    rw [half_copy _ _ (by omega), half_copy _ _ (by omega)]
  · refine ⟨rfl, rfl, rfl, rfl, rfl, rfl, ?_⟩
    have apart : (!ch) ≠ ch := Bool.not_ne_self ch
    simp [setPhase, setBusy, enter, setChannel, apart]
  · constructor
    · simp [setPhase, setBusy]
    · simp [setPhase, Phase.requests]
    · simpa [setPhase, setBusy, enter, setChannel] using fresh.lbaMid
    · simpa [setPhase, setBusy, enter, setChannel] using fresh.lbaHi

theorem run_identify (fresh : Fresh c ch) (prompt : ∀ period, c.pauses period < 100000) {driveSelect : Byte}
    (select : driveSelect = 0 ∨ driveSelect = 1) : ∃ after, (identify (baseOf ch) driveSelect).run bus c =
      (answers (c.attached ((if ch then 2 else 0) + driveSelect)), after) ∧ Unmoved c after ch ∧ Fresh after ch := by
  have chosen := selected_asked c ch select
  have moved : Unmoved c (asked c ch driveSelect) ch := unmoved_setChannel ..
  have ready := fresh_asked fresh driveSelect
  rw [run_identify_command fresh, execute, chosen, moved.attached]
  generalize (if ch then (2 : Byte) else 0) + driveSelect = drive at chosen
  cases attached : c.attached drive with
  | nothing =>
    have silent : (asked c ch driveSelect).status ch = 0 := by
      rw [status, chosen, moved.attached, attached]
    refine ⟨(asked c ch driveSelect).poll ch, ?_, moved.trans (unmoved_setChannel ..), ?_⟩
    · rw [identifyAnswer, run_bind, run_inb, read_status, if_pos silent, run_pure]
      rfl
    · rw [poll_free ready.free]
      exact ⟨busy_setBusy .., by rw [phase_setBusy]; exact ready.quiet, by simpa [setBusy] using ready.lbaMid,
        by simpa [setBusy] using ready.lbaHi⟩
  | packet =>
    have free := (busy_setPhase (asked c ch driveSelect) ch (.idle true)).trans ready.free
    have polled := poll_free free
    have aborted : Fresh (((asked c ch driveSelect).setPhase ch (.idle true)).setBusy ch 0) ch :=
      ⟨busy_setBusy .., by rw [phase_setBusy, phase_setPhase]; rfl, by simpa [setPhase, setBusy] using ready.lbaMid,
        by simpa [setPhase, setBusy] using ready.lbaHi⟩
    have shown : ((asked c ch driveSelect).setPhase ch (.idle true)).status ch ≠ 0 := by
      rw [status, selected_setPhase, chosen,
        show ((asked c ch driveSelect).setPhase ch (.idle true)).attached drive = .packet from attached, free, phase_setPhase]
      decide
    have waits : (waitBsy (baseOf ch)).run bus (((asked c ch driveSelect).setPhase ch (.idle true)).setBusy ch 0) =
        (0, (((asked c ch driveSelect).setPhase ch (.idle true)).setBusy ch 0).setBusy ch 0) :=
      run_waitBsy ⟨⟨aborted.quiet, by rw [aborted.free]; decide⟩, .inl aborted.free⟩
    have again : (((asked c ch driveSelect).setPhase ch (.idle true)).setBusy ch 0).setBusy ch 0 =
        ((asked c ch driveSelect).setPhase ch (.idle true)).setBusy ch 0 := by
      simp [setBusy]
    have signature : (((asked c ch driveSelect).setPhase ch (.idle true)).setBusy ch 0).register ch 4 = 0x14 := by
      have selected : (((asked c ch driveSelect).setPhase ch (.idle true)).setBusy ch 0).selected ch = drive := by
        rw [← chosen]
        simp [selected, setPhase, setBusy]
      unfold register
      rw [selected, show (((asked c ch driveSelect).setPhase ch (.idle true)).setBusy ch 0).attached drive = .packet from attached]
      rfl
    refine ⟨((asked c ch driveSelect).setPhase ch (.idle true)).setBusy ch 0, ?_,
      (moved.trans (unmoved_setChannel ..)).trans (unmoved_setChannel ..), aborted⟩
    simp only
    rw [identifyAnswer, run_bind, run_inb, read_status, if_neg shown, polled, run_bind, waits, again]
    simp only [ne_eq, not_true_eq_false, if_false, run_bind, run_inb, read_mid, signature]
    rfl
  | disk identity =>
    obtain ⟨after, ran, unmoved, last⟩ := run_identifyAnswer_disk ready (by rw [moved.pauses]; exact prompt) chosen
      (by rw [moved.attached]; exact attached)
    exact ⟨after, ran, moved.trans unmoved, last⟩

end Identify

section Init

variable {c : Controller}

/-- The controller when the driver is loaded. -/
structure Reset (c : Controller) : Prop where
  prompt : ∀ period, c.pauses period < 100000
  fresh : ∀ ch, Fresh c ch

theorem Fresh.idle {ch : Bool} (fresh : Fresh c ch) : Idle c ch :=
  ⟨⟨fresh.quiet, by rw [fresh.free]; decide⟩, .inl fresh.free⟩

theorem Unmoved.fresh {after : Controller} {ch : Bool} (unmoved : Unmoved c after ch) (fresh : Fresh c !ch) :
    Fresh after !ch := by
  obtain ⟨free, quiet, mid, hi⟩ := fresh
  constructor <;> rw [unmoved.other] <;> assumption

/-- What the drives and the schedule are is the same before and after. -/
structure SameDrives (before after : Controller) : Prop where
  attached : after.attached = before.attached
  refuses : after.refuses = before.refuses
  loses : after.loses = before.loses
  transfers : after.transfers = before.transfers
  sectors : after.sectors = before.sectors

theorem SameDrives.trans {first second third : Controller} (left : SameDrives first second)
    (right : SameDrives second third) : SameDrives first third :=
  ⟨right.attached.trans left.attached, right.refuses.trans left.refuses, right.loses.trans left.loses,
    right.transfers.trans left.transfers, right.sectors.trans left.sectors⟩

theorem SameDrives.keeps {before after : Controller} {drives : Drives} {ata : Ata} (same : SameDrives before after)
    (shown : Shows drives before ata) : Shows drives after ata :=
  ⟨shown.present, by rw [same.sectors]; exact shown.sectors, by rw [same.transfers]; exact shown.transfers⟩

theorem Unmoved.same {before after : Controller} {ch : Bool} (unmoved : Unmoved before after ch) : SameDrives before after :=
  ⟨unmoved.attached, unmoved.refuses, unmoved.loses, unmoved.transfers, unmoved.sectors⟩

/-- The table of `ata_init` once the places below `asked` have been asked. No
size is kept. -/
def drivesOf (c : Controller) (asked n : Nat) : Drive :=
  if n < asked then
    { present := answers (c.attached (BitVec.ofNat 8 n))
      baseIo := baseOf (decide (2 ≤ n))
      ctrlIo := if 2 ≤ n then secondaryCtrl else primaryCtrl
      driveSelect := BitVec.ofNat 8 (n % 2)
      size := 0 }
  else ⟨false, 0, 0, 0, 0⟩

/-- So `ata_get_drive_size` answers 0 for every drive. -/
theorem getDriveSize_drivesOf (c : Controller) (asked : Nat) (drive : Byte) : getDriveSize (drivesOf c asked) drive = 0 := by
  have size (n : Nat) : (drivesOf c asked n).size = 0 := by
    rw [drivesOf]
    split <;> rfl
  rw [getDriveSize, size, ite_self]

theorem drivesOf_next (c : Controller) (n : Nat) :
    Function.update (drivesOf c n) n (drivesOf c (n + 1) n) = drivesOf c (n + 1) := by
  funext place
  by_cases same : place = n
  · rw [same, Function.update_self]
  · rw [Function.update_of_ne same, drivesOf, drivesOf]
    by_cases before : place < n
    · rw [if_pos before, if_pos (show place < n + 1 by omega)]
    · rw [if_neg before, if_neg (show ¬ place < n + 1 by omega)]

/-- One drive is found or not, and both channels stay as they were. -/
theorem Reset.next {now : Controller} (reset : Reset now) (attached : now.attached = c.attached) {n : Nat} (small : n < 4) :
    ∃ after, (detect (drivesOf c n) n (baseOf (decide (2 ≤ n))) (if 2 ≤ n then secondaryCtrl else primaryCtrl)
      (BitVec.ofNat 8 (n % 2))).run bus now = (drivesOf c (n + 1), after) ∧ Reset after ∧ SameDrives now after := by
  have select : BitVec.ofNat 8 (n % 2) = 0 ∨ BitVec.ofNat 8 (n % 2) = 1 := by
    revert small n
    decide
  obtain ⟨after, ran, unmoved, fresh⟩ := run_identify (reset.fresh (decide (2 ≤ n))) reset.prompt select
  rw [decide_le_half small, attached] at ran
  refine ⟨after, ?_, ⟨by rw [unmoved.pauses]; exact reset.prompt, fun ch => ?_⟩, unmoved.same⟩
  · have unset : drivesOf c n n = ⟨false, 0, 0, 0, 0⟩ := if_neg (Nat.lt_irrefl n)
    rw [detect, run_bind, ran, run_pure, unset, ← drivesOf_next, drivesOf, if_pos (Nat.lt_succ_self n)]
  · by_cases same : ch = decide (2 ≤ n)
    · subst same
      exact fresh
    · have other : ch = !decide (2 ≤ n) := Bool.eq_not.mpr same
      subst other
      exact unmoved.fresh (reset.fresh _)

theorem table_drivesOf {after : Controller} (attached : after.attached = c.attached) : Table (drivesOf c 4) after := by
  intro n small present
  rw [drivesOf, if_pos small] at present ⊢
  refine ⟨rfl, rfl, ?_⟩
  have found : answers (c.attached (BitVec.ofNat 8 n)) = true := present
  rw [attached]
  cases at_ : c.attached (BitVec.ofNat 8 n) with
  | nothing => rw [at_] at found; cases found
  | packet => rw [at_] at found; cases found
  | disk identity => exact ⟨identity, rfl⟩

/-- All four places are asked, in order. -/
theorem Reset.init (reset : Reset c) : ∃ after, AtaPio.init.run bus c = ((0, drivesOf c 4), after) ∧
    System (drivesOf c 4) after ∧ SameDrives c after := by
  obtain ⟨first, ranFirst, resetFirst, sameFirst⟩ := reset.next (c := c) rfl (n := 0) (by decide)
  obtain ⟨second, ranSecond, resetSecond, sameSecond⟩ := resetFirst.next sameFirst.attached (n := 1) (by decide)
  have toSecond := sameFirst.trans sameSecond
  obtain ⟨third, ranThird, resetThird, sameThird⟩ := resetSecond.next toSecond.attached (n := 2) (by decide)
  have toThird := toSecond.trans sameThird
  obtain ⟨fourth, ranFourth, resetFourth, sameFourth⟩ := resetThird.next toThird.attached (n := 3) (by decide)
  have same := toThird.trans sameFourth
  refine ⟨fourth, ?_, ⟨resetFourth.prompt, fun ch => (resetFourth.fresh ch).idle, table_drivesOf same.attached⟩, same⟩
  have none_ : (fun _ => ⟨false, 0, 0, 0, 0⟩ : Drives) = drivesOf c 0 := rfl
  have ranFirst : (detect (drivesOf c 0) 0 primaryIo primaryCtrl 0).run bus c = (drivesOf c 1, first) := ranFirst
  have ranSecond : (detect (drivesOf c 1) 1 primaryIo primaryCtrl 1).run bus first = (drivesOf c 2, second) := ranSecond
  have ranThird : (detect (drivesOf c 2) 2 secondaryIo secondaryCtrl 0).run bus second = (drivesOf c 3, third) := ranThird
  have ranFourth : (detect (drivesOf c 3) 3 secondaryIo secondaryCtrl 1).run bus third = (drivesOf c 4, fourth) := ranFourth
  rw [AtaPio.init, none_, run_bind, ranFirst, run_bind, ranSecond, run_bind, ranThird, run_bind, ranFourth, run_pure]

theorem Reset.system (reset : Reset c) : System (drivesOf c 4) c :=
  ⟨reset.prompt, fun ch => (reset.fresh ch).idle, table_drivesOf rfl⟩

end Init

/-- A disk of one sector on the first channel that loses the second block of
every write. -/
def lossyDisk : Controller where
  attached drive := if drive = 0 then .disk (Bytes.zero.setHalf 120 1) else .nothing
  sectors _ _ := Bytes.zero
  pauses _ := 3
  refuses _ _ := false
  loses _ block := decide (block = 1)
  periods := 0
  transfers := 0
  channel _ := ⟨0, 0, 0, 0, 0, 0, .idle false⟩

theorem reset_lossyDisk : Reset lossyDisk := ⟨fun _ => show 3 < 100000 by decide, fun _ => ⟨rfl, rfl, rfl, rfl⟩⟩

section Machines

variable {machine : Bus σ} {view : σ → Controller}

theorem reads_identify (ch : Bool) (driveSelect : Byte) : (identify (baseOf ch) driveSelect).Reads Decoded := by
  rw [identify]
  refine Reads.bind (m := outb _ _) trivial fun _ => Reads.bind (m := ioWait) trivial fun _ => ?_
  refine Reads.bind (m := outb _ _) trivial fun _ => Reads.bind (m := ioWait) trivial fun _ => ?_
  refine Reads.bind (m := inb _) ⟨decoded_base ch 7 8, fun _ => trivial⟩ fun status => ?_
  split
  · exact trivial
  refine Reads.bind (reads_waitBsyFor ch _) fun answer => ?_
  split
  · exact trivial
  refine Reads.bind (m := inb _) ⟨decoded_base ch 4 8, fun _ => trivial⟩ fun mid => ?_
  split
  · exact trivial
  refine Reads.bind (m := inb _) ⟨decoded_base ch 5 8, fun _ => trivial⟩ fun hi => ?_
  split
  · exact trivial
  refine Reads.bind (reads_waitDrqFor ch _) fun answer => ?_
  split
  · exact trivial
  exact Reads.bind (reads_readWords ch 0 256 _) fun _ => trivial

theorem reads_init : AtaPio.init.Reads Decoded := by
  have one (drives : Drives) (index : Nat) (ch : Bool) (ctrlIo : Port) (driveSelect : Byte) :
      (detect drives index (baseOf ch) ctrlIo driveSelect).Reads Decoded :=
    Reads.bind (reads_identify ch driveSelect) fun _ => trivial
  exact Reads.bind (one _ 0 false _ 0) fun _ => Reads.bind (one _ 1 false _ 1) fun _ =>
    Reads.bind (one _ 2 true _ 0) fun _ => Reads.bind (one _ 3 true _ 1) fun _ => trivial

/-- A machine that shows a controller after a reset, whose written blocks are
not lost: after `ata_init` any calls answer as those on drives of the file system. -/
theorem init_then_calls (follows : machine.Follows bus view Decoded) (s : σ) (reset : Reset (view s))
    (keeps : ∀ transfer block, (view s).loses transfer block = false) : ∃ booted,
    AtaPio.init.run machine s = ((0, drivesOf (view s) 4), booted) ∧ ∀ calls : List Call, ∃ outcome : Nat → Option Nat,
      (runPorts machine (drivesOf (view s) 4) calls booted).1 =
        (runAta calls (ataOver (drivesOf (view s) 4) (view s) outcome)).1 ∧
      Shows (drivesOf (view s) 4) (view (runPorts machine (drivesOf (view s) 4) calls booted).2)
        (runAta calls (ataOver (drivesOf (view s) 4) (view s) outcome)).2 := by
  obtain ⟨after, ran, system, same⟩ := reset.init
  have here := follows.run reads_init s
  rw [ran] at here
  obtain ⟨answer, shown⟩ := Prod.mk.inj here
  refine ⟨(AtaPio.init.run machine s).2, Prod.ext answer.symm rfl, fun calls => ?_⟩
  have kept : ∀ transfer block, after.loses transfer block = false := by
    rw [same.loses]
    exact keeps
  obtain ⟨outcome, agrees⟩ := system.runs kept calls
  have start := same.keeps (shows_ataOver (drivesOf (view s) 4) (view s) outcome)
  have agreed := agrees _ start fun _ _ => rfl
  rw [shown, runPorts_view follows calls _ (shown ▸ system) (shown ▸ kept)] at agreed
  exact ⟨outcome, agreed⟩

/-- Every machine shows itself. -/
theorem follows_self : Bus.Follows bus bus id Decoded := ⟨fun _ _ _ _ => rfl, fun _ _ _ _ => rfl⟩

theorem init_then_calls_kept : ∃ booted, AtaPio.init.run bus { lossyDisk with loses := fun _ _ => false } =
    ((0, drivesOf lossyDisk 4), booted) := by
  obtain ⟨booted, ran, _⟩ := init_then_calls follows_self
    { lossyDisk with loses := fun _ _ => false } ⟨reset_lossyDisk.prompt, fun ch => ⟨rfl, rfl, rfl, rfl⟩⟩ fun _ _ => rfl
  exact ⟨booted, ran⟩

/-- A write on any such machine: a prefix of the sectors is stored. The answer
is 0 as well when the last block alone was taken and lost. -/
theorem write_answer (follows : machine.Follows bus view Decoded) (s : σ) {drives : Drives}
    (system : System drives (view s)) {drive : Byte} (small : drive.toNat < 4)
    (present : (drives drive.toNat).present = true) (lba : Word) {sectorCount : Byte} (some_ : sectorCount ≠ 0)
    (buffer : Bytes) : ∃ answer after stored, (writeSectors drives drive lba sectorCount buffer).run machine s = (answer, after) ∧
      (view after).sectors = storeBlocks (view s).sectors drive (Ata.sectorOf lba) 0 stored buffer ∧
      System drives (view after) ∧ stored ≤ sectorCount.toNat ∧
      (∀ block < stored, (view s).refuses (view s).transfers block = false ∧ (view s).loses (view s).transfers block = false) ∧
      (stored = sectorCount.toNat ∨ (view s).refuses (view s).transfers stored = true ∨
        (view s).loses (view s).transfers stored = true) ∧
      (answer = 0 ↔ stored = sectorCount.toNat ∨
        stored + 1 = sectorCount.toNat ∧ (view s).refuses (view s).transfers stored = false) := by
  obtain ⟨after, ran, counted, medium⟩ := system.writeSectors small present lba some_ buffer
  have here := follows.run (system.table.reads_writeSectors drive lba sectorCount buffer) s
  rw [ran] at here
  obtain ⟨answer, shown⟩ := Prod.mk.inj here
  rw [shown] at medium counted
  refine ⟨_, _, _, rfl, medium, counted.system, goodBlocks_le .., fun block below => ?_, ?_, ?_⟩
  · have good := goodBlocks_below 0 _ below
    rwa [spoils, Nat.zero_add, Bool.or_eq_false_iff] at good
  · rcases Nat.lt_or_ge (goodBlocks (spoils ((view s).refuses (view s).transfers) ((view s).loses (view s).transfers)) 0
      sectorCount.toNat) sectorCount.toNat with short | all
    · have bad := goodBlocks_stops _ 0 _ short
      rw [spoils, Nat.zero_add, Bool.or_eq_true] at bad
      exact .inr bad
    · exact .inl (Nat.le_antisymm (goodBlocks_le ..) all)
  · rw [← answer, writeAnswer, Nat.zero_add]
    split
    · next met => exact ⟨fun _ => met, fun _ => rfl⟩
    · next not_met => exact ⟨fun zero => absurd zero (by decide), fun met => absurd met not_met⟩

theorem write_answer_unnoticed : ∃ after, (writeSectors (drivesOf lossyDisk 4) 0 0 2 fun _ => 1).run bus lossyDisk = (0, after) ∧
    after.sectors 0 1 = Bytes.zero := by
  obtain ⟨answer, after, stored, ran, medium, _, le, good, reason, zero⟩ := write_answer follows_self
    lossyDisk reset_lossyDisk.system (show (0 : Byte).toNat < 4 by decide) (by decide) 0 (show (2 : Byte) ≠ 0 by decide) fun _ => 1
  have one : stored = 1 := by
    rcases reason with all | refused | lost
    · exact absurd (good 1 (all ▸ by decide)).2 (by decide)
    · cases refused
    · exact of_decide_eq_true lost
  subst one
  have succeeded : answer = 0 := zero.mpr (.inr ⟨rfl, rfl⟩)
  subst succeeded
  refine ⟨after, ran, ?_⟩
  have outside : ¬ ((0 : Byte) = 0 ∧ Ata.sectorOf 0 + 0 ≤ 1 ∧ 1 < Ata.sectorOf 0 + 0 + 1) := by decide
  exact (congrFun (congrFun medium 0) 1).trans (if_neg outside)

end Machines

end MexOS.Drivers.AtaPio
