import MexOS.Drivers.AtaTransfers

/-! `ata_read_sectors` and `ata_write_sectors` from their port accesses up to
the drives that the file system works on. -/

namespace MexOS.Drivers.AtaPio

open MexOS.Machine MexOS.Fs PortProgram Controller

section Registers

variable {c : Controller} {ch : Bool}

def headOf (d : Drive) (lba : Word) : Byte := (0xE0 : Byte) ||| d.driveSelect <<< 4 ||| (lba >>> 24 &&& 0x0F).setWidth 8

/-- The registers of a channel once a transfer has been set up. -/
def setUp (c : Controller) (ch : Bool) (d : Drive) (lba : Word) (sectorCount : Byte) : Controller :=
  c.setChannel ch { c.channel ch with
    driveHead := headOf d lba
    sectorCount
    lbaLo := lba.setWidth 8
    lbaMid := (lba >>> 8).setWidth 8
    lbaHi := (lba >>> 16).setWidth 8 }

theorem takeRegister_free (free : c.free ch = true) (reg : Nat) (value : Byte) : c.takeRegister ch reg value =
    match reg with
    | 2 => c.setChannel ch { c.channel ch with sectorCount := value }
    | 3 => c.setChannel ch { c.channel ch with lbaLo := value }
    | 4 => c.setChannel ch { c.channel ch with lbaMid := value }
    | 5 => c.setChannel ch { c.channel ch with lbaHi := value }
    | 6 => c.setChannel ch { c.channel ch with driveHead := value }
    | 7 => c.execute ch value
    | _ => c := if_pos free

/-- Setting a register leaves the channel free. -/
theorem free_setChannel (free : c.free ch = true) (channel : Channel) (busy : channel.busy = (c.channel ch).busy)
    (phase : channel.phase = (c.channel ch).phase) : (c.setChannel ch channel).free ch = true := by
  rw [Controller.free, channel_setChannel, busy, phase]
  exact free

theorem run_command (free : c.free ch = true) {d : Drive} (base : d.baseIo = baseOf ch) (lba : Word)
    (sectorCount cmd : Byte) :
    (command d lba sectorCount cmd).run bus c = ((), (setUp c ch d lba sectorCount).execute ch cmd) := by
  have port (reg : Fin 8) (other : reg.val ≠ 0) (value : Byte) (next : Controller) :
      bus.write 8 (baseOf ch + BitVec.ofNat 16 reg) value next = next.takeRegister ch reg value :=
    write_register next ch reg other value
  have head : bus.write 8 (baseOf ch + regDrive) (headOf d lba) c =
      c.setChannel ch { c.channel ch with driveHead := headOf d lba } :=
    (port 6 (by decide) _ c).trans (takeRegister_free free 6 _)
  have counted (next : Controller) (free : next.free ch = true) : bus.write 8 (baseOf ch + regSeccount) sectorCount next =
      next.setChannel ch { next.channel ch with sectorCount } :=
    (port 2 (by decide) _ next).trans (takeRegister_free free 2 _)
  have low (next : Controller) (free : next.free ch = true) : bus.write 8 (baseOf ch + regLbaLo) (lba.setWidth 8) next =
      next.setChannel ch { next.channel ch with lbaLo := lba.setWidth 8 } :=
    (port 3 (by decide) _ next).trans (takeRegister_free free 3 _)
  have middle (next : Controller) (free : next.free ch = true) :
      bus.write 8 (baseOf ch + regLbaMid) ((lba >>> 8).setWidth 8) next =
        next.setChannel ch { next.channel ch with lbaMid := (lba >>> 8).setWidth 8 } :=
    (port 4 (by decide) _ next).trans (takeRegister_free free 4 _)
  have high (next : Controller) (free : next.free ch = true) :
      bus.write 8 (baseOf ch + regLbaHi) ((lba >>> 16).setWidth 8) next =
        next.setChannel ch { next.channel ch with lbaHi := (lba >>> 16).setWidth 8 } :=
    (port 5 (by decide) _ next).trans (takeRegister_free free 5 _)
  have last (next : Controller) (free : next.free ch = true) : bus.write 8 (baseOf ch + regCommand) cmd next =
      next.execute ch cmd :=
    (port 7 (by decide) _ next).trans (takeRegister_free free 7 _)
  rw [command, base]
  simp only [ioWait, run_bind, run_outb, write_delay]
  change ((), bus.write 8 (baseOf ch + regCommand) cmd (bus.write 8 (baseOf ch + regLbaHi) _
    (bus.write 8 (baseOf ch + regLbaMid) _ (bus.write 8 (baseOf ch + regLbaLo) _ (bus.write 8 (baseOf ch + regSeccount) _
      (bus.write 8 (baseOf ch + regDrive) (headOf d lba) c)))))) = _
  rw [head]
  have freed := free_setChannel free { c.channel ch with driveHead := headOf d lba } rfl rfl
  rw [counted _ freed, channel_setChannel, setChannel_setChannel]
  have freed := free_setChannel free { c.channel ch with driveHead := headOf d lba, sectorCount } rfl rfl
  rw [low _ freed, channel_setChannel, setChannel_setChannel]
  have freed := free_setChannel free { c.channel ch with
    driveHead := headOf d lba, sectorCount, lbaLo := lba.setWidth 8 } rfl rfl
  rw [middle _ freed, channel_setChannel, setChannel_setChannel]
  have freed := free_setChannel free { c.channel ch with
    driveHead := headOf d lba, sectorCount, lbaLo := lba.setWidth 8, lbaMid := (lba >>> 8).setWidth 8 } rfl rfl
  rw [high _ freed, channel_setChannel, setChannel_setChannel]
  exact congrArg (Prod.mk ()) (last (setUp c ch d lba sectorCount) (free_setChannel free _ rfl rfl))

theorem headOf_low (d : Drive) (lba : Word) (select : d.driveSelect = 0 ∨ d.driveSelect = 1) :
    headOf d lba &&& (0x0F : Byte) = (lba >>> 24 &&& 0x0F).setWidth 8 := by
  have shifted : d.driveSelect <<< 4 &&& (0x0F : Byte) = 0 := by
    rcases select with zero | one
    · rw [zero]
      rfl
    · rw [one]
      rfl
  have masked : (lba >>> 24 &&& 0x0F).setWidth 8 &&& (0x0F : Byte) = (lba >>> 24 &&& 0x0F).setWidth 8 := by
    have again : lba >>> 24 &&& (0x0F : Word) &&& (0x0F : Word) = lba >>> 24 &&& (0x0F : Word) := by rw [BitVec.and_assoc, BitVec.and_self]
    have narrow := congrArg (BitVec.setWidth 8) again
    rwa [BitVec.setWidth_and] at narrow
  rw [headOf, BitVec.and_or_distrib_right, BitVec.and_or_distrib_right, shifted, masked]
  simp

theorem headOf_select (d : Drive) (lba : Word) (select : d.driveSelect = 0 ∨ d.driveSelect = 1) :
    (if headOf d lba &&& 0x10 = 0 then 0 else 1) = d.driveSelect := by
  have fourth : (headOf d lba).getLsbD 4 = d.driveSelect.getLsbD 0 := by
    rcases select with zero | one
    · simp [headOf, zero]
    · simp [headOf, one]
  have only (byte : Byte) : byte &&& 0x10 = 0 ↔ byte.getLsbD 4 = false := by
    revert byte
    decide
  rcases select with zero | one
  · rw [if_pos ((only _).mpr (by rw [fourth, zero]; rfl)), zero]
  · rw [if_neg (fun none_ => by have clear := (only _).mp none_; rw [fourth, one] at clear; cases clear), one]

/-- The registers name the sector by the low 28 bits of its number. -/
theorem sector_setUp (c : Controller) (ch : Bool) (d : Drive) (lba : Word) (sectorCount : Byte)
    (select : d.driveSelect = 0 ∨ d.driveSelect = 1) :
    (setUp c ch d lba sectorCount).sector ch = Ata.sectorOf lba := by
  have nibble : (lba >>> 24 &&& (0x0F : Word)).toNat = lba.toNat / 2 ^ 24 % 2 ^ 4 := by
    rw [BitVec.toNat_and, BitVec.toNat_ushiftRight, Nat.shiftRight_eq_div_pow]
    exact Nat.and_two_pow_sub_one_eq_mod _ 4
  have bound := lba.isLt
  rw [Controller.sector, setUp, channel_setChannel]
  simp only [headOf_low d lba select, BitVec.toNat_setWidth, nibble, BitVec.toNat_ushiftRight,
    Nat.shiftRight_eq_div_pow, Ata.sectorOf]
  omega

theorem selected_setUp (c : Controller) (ch : Bool) (d : Drive) (lba : Word) (sectorCount : Byte)
    (select : d.driveSelect = 0 ∨ d.driveSelect = 1) :
    (setUp c ch d lba sectorCount).selected ch = (if ch then 2 else 0) + d.driveSelect := by
  rw [selected, setUp, channel_setChannel, headOf_select d lba select]

theorem count_setUp (c : Controller) (ch : Bool) (d : Drive) (lba : Word) {sectorCount : Byte} (some_ : sectorCount ≠ 0) :
    (setUp c ch d lba sectorCount).count ch = sectorCount.toNat := by
  rw [Controller.count, setUp, channel_setChannel, if_neg some_]

end Registers

section Transfers

variable {c : Controller} {drives : Drives} {drive : Byte} {ch : Bool}

/-- A channel between two transfers. -/
structure Idle (c : Controller) (ch : Bool) : Prop extends Rests c ch where
  known : (c.channel ch).busy = 0 ∨ ∃ drive, c.Selects ch drive

/-- The drives that the table has are where it says. -/
def Table (drives : Drives) (c : Controller) : Prop := ∀ n < 4, (drives n).present = true →
  (drives n).baseIo = baseOf (decide (2 ≤ n)) ∧ (drives n).driveSelect = BitVec.ofNat 8 (n % 2) ∧
    ∃ identity, c.attached (BitVec.ofNat 8 n) = .disk identity

/-- No status bit says busy once a busy period is over. -/
theorem status_free (free : (c.channel ch).busy = 0) : c.status ch &&& srBsy = 0 := by
  rw [status]
  split
  · decide
  · rw [free, if_neg (by decide)]
    split
    · decide
    · split <;> decide

theorem run_waitBsy (idle : Idle c ch) : (waitBsy (baseOf ch)).run bus c = (0, c.setBusy ch 0) := by
  rcases idle.known with free | ⟨drive, selects⟩
  · rw [waitBsy, waitBsyFor, run_bind, run_inb, read_status, if_pos (status_free free), run_pure, poll_free free]
  · exact run_waitBsyFor selects 100000 idle.soon

theorem free_setBusy (idle : Idle c ch) : (c.setBusy ch 0).free ch = true := by
  rw [Controller.free, busy_setBusy, phase_setBusy, idle.quiet]
  rfl

theorem decide_le_half {n : Nat} (small : n < 4) :
    (if decide (2 ≤ n) then (2 : Byte) else 0) + BitVec.ofNat 8 (n % 2) = BitVec.ofNat 8 n := by
  revert n
  decide

/-- The controller between two calls of the driver. -/
structure System (drives : Drives) (c : Controller) : Prop where
  prompt : ∀ period, c.pauses period < 100000
  idle : ∀ ch, Idle c ch
  table : Table drives c

/-- One more transfer has been made, and the schedule goes on. -/
structure Counted (drives : Drives) (before after : Controller) : Prop where
  system : System drives after
  transfers : after.transfers = before.transfers + 1
  refuses : after.refuses = before.refuses
  loses : after.loses = before.loses

/-- The registers of the transfer are set, and it counts. -/
def begun (c : Controller) (ch : Bool) (d : Drive) (lba : Word) (sectorCount : Byte) : Controller :=
  { setUp (c.setBusy ch 0) ch d lba sectorCount with transfers := c.transfers + 1 }

theorem begun_other (c : Controller) (ch : Bool) (d : Drive) (lba : Word) (sectorCount : Byte) :
    (begun c ch d lba sectorCount).channel (!ch) = c.channel (!ch) := by
  have apart : (!ch) ≠ ch := Bool.not_ne_self ch
  simp [begun, setUp, Controller.setBusy, setChannel, apart]

/-- Whatever follows the beginning of a transfer and comes to rest leaves the
controller between two calls. -/
theorem System.counted (system : System drives c) {d : Drive} {lba : Word} {sectorCount : Byte} {after : Controller}
    (selects : (begun c ch d lba sectorCount).Selects ch drive) (frame : Frame (begun c ch d lba sectorCount) after ch)
    (rests : Rests after ch) : Counted drives c after := by
  refine ⟨⟨?_, ?_, ?_⟩, frame.transfers, frame.refuses, frame.loses⟩
  · rw [frame.pauses]
    exact system.prompt
  · intro any
    by_cases same : any = ch
    · subst same
      exact ⟨rests, .inr ⟨drive, frame.selects selects⟩⟩
    · have other : any = !ch := Bool.eq_not.mpr same
      have kept := frame.other.trans (begun_other c ch d lba sectorCount)
      subst other
      obtain ⟨⟨quiet, soon⟩, known⟩ := system.idle !ch
      refine ⟨⟨by rw [kept]; exact quiet, by rw [kept]; exact soon⟩, ?_⟩
      rcases known with free | ⟨selected, same, disk⟩
      · exact .inl (by rw [kept]; exact free)
      · refine .inr ⟨selected, ?_, by rw [frame.attached]; exact disk⟩
        rw [← same, Controller.selected, Controller.selected, kept]
  · intro n small present
    rw [frame.attached]
    exact system.table n small present

/-- A drive of the table, once its registers are set. -/
theorem System.found (system : System drives c) (small : drive.toNat < 4) (present : (drives drive.toNat).present = true)
    (lba : Word) (sectorCount : Byte) : ∃ ch, (drives drive.toNat).baseIo = baseOf ch ∧
      ((drives drive.toNat).driveSelect = 0 ∨ (drives drive.toNat).driveSelect = 1) ∧
      (begun c ch (drives drive.toNat) lba sectorCount).Selects ch drive := by
  obtain ⟨base, select, identity, disk⟩ := system.table _ small present
  have bit : (drives drive.toNat).driveSelect = 0 ∨ (drives drive.toNat).driveSelect = 1 := by
    rw [select]
    have cases_ : drive.toNat % 2 = 0 ∨ drive.toNat % 2 = 1 := by omega
    rcases cases_ with even | odd
    · exact .inl (by rw [even]; rfl)
    · exact .inr (by rw [odd]; rfl)
  have whole : BitVec.ofNat 8 drive.toNat = drive := by rw [BitVec.ofNat_toNat, BitVec.setWidth_eq]
  refine ⟨decide (2 ≤ drive.toNat), base, bit, ?_, identity, ?_⟩
  · refine (selected_setUp (c.setBusy _ 0) _ _ lba sectorCount bit).trans ?_
    rw [select, decide_le_half small, whole]
  · rw [whole] at disk
    exact disk

/-- The wait, the registers and the command, up to the loop over the blocks. -/
theorem run_begin (idle : Idle c ch) {d : Drive} (base : d.baseIo = baseOf ch) {lba : Word} {sectorCount : Byte}
    (some_ : sectorCount ≠ 0) (select : d.driveSelect = 0 ∨ d.driveSelect = 1)
    (selects : (begun c ch d lba sectorCount).Selects ch drive) (writing : Bool) :
    (command d lba sectorCount (if writing then cmdWritePio else cmdReadPio)).run bus (c.setBusy ch 0) =
      ((), (begun c ch d lba sectorCount).nextBlock ch writing c.transfers (Ata.sectorOf lba) sectorCount.toNat 0) := by
  obtain ⟨same, identity, disk⟩ := selects
  have same : (setUp (c.setBusy ch 0) ch d lba sectorCount).selected ch = drive := same
  have disk : (setUp (c.setBusy ch 0) ch d lba sectorCount).attached drive = .disk identity := disk
  rw [run_command (free_setBusy idle) base, execute, same, disk, ← sector_setUp (c.setBusy ch 0) ch d lba sectorCount select,
    ← count_setUp (c.setBusy ch 0) ch d lba some_]
  cases writing <;> rfl

/-- A read by its ports: what is loaded, and whether all of it was. -/
theorem System.readSectors (system : System drives c) (small : drive.toNat < 4)
    (present : (drives drive.toNat).present = true) (lba : Word) {sectorCount : Byte} (some_ : sectorCount ≠ 0)
    (buffer : Bytes) : ∃ after, (readSectors drives drive lba sectorCount buffer).run bus c =
      ((if goodBlocks (c.refuses c.transfers) 0 sectorCount.toNat = sectorCount.toNat then 0 else -1,
        loadBlocks (c.sectors drive) (Ata.sectorOf lba) 0 (goodBlocks (c.refuses c.transfers) 0 sectorCount.toNat) buffer),
        after) ∧ Counted drives c after ∧ after.sectors = c.sectors := by
  obtain ⟨ch, base, select, selects⟩ := system.found small present lba sectorCount
  obtain ⟨after, ran, frame, rests, same⟩ := @run_readBlocks (begun c ch (drives drive.toNat) lba sectorCount) ch drive
    c.transfers (Ata.sectorOf lba) sectorCount.toNat sectorCount.toNat 0 buffer system.prompt selects (Nat.zero_add _)
  refine ⟨after, ?_, system.counted selects frame rests, same⟩
  have begins := run_begin (system.idle ch) base some_ select selects false
  rw [AtaPio.readSectors, if_neg (by simp [present]; omega), if_neg some_]
  simp only [run_bind]
  rw [base, run_waitBsy (system.idle ch)]
  simp only [ne_eq, not_true_eq_false, if_false, run_bind]
  exact (congrArg (fun begins => (readBlocks (baseOf ch) 0 sectorCount.toNat buffer).run bus begins.2) begins).trans ran

/-- A write by its ports: what is stored, and what is said about it. -/
theorem System.writeSectors (system : System drives c) (small : drive.toNat < 4)
    (present : (drives drive.toNat).present = true) (lba : Word) {sectorCount : Byte} (some_ : sectorCount ≠ 0)
    (buffer : Bytes) : ∃ after, (writeSectors drives drive lba sectorCount buffer).run bus c =
      (writeAnswer (c.refuses c.transfers) (c.loses c.transfers) 0 sectorCount.toNat, after) ∧ Counted drives c after ∧
      after.sectors = storeBlocks c.sectors drive (Ata.sectorOf lba) 0
        (goodBlocks (spoils (c.refuses c.transfers) (c.loses c.transfers)) 0 sectorCount.toNat) buffer := by
  obtain ⟨ch, base, select, selects⟩ := system.found small present lba sectorCount
  obtain ⟨after, ran, frame, rests, same⟩ := @run_writeBlocks (begun c ch (drives drive.toNat) lba sectorCount) ch drive
    c.transfers (Ata.sectorOf lba) sectorCount.toNat sectorCount.toNat 0 buffer system.prompt selects (Nat.zero_add _)
  refine ⟨after, ?_, system.counted selects frame rests, same⟩
  have begins := run_begin (system.idle ch) base some_ select selects true
  rw [AtaPio.writeSectors, if_neg (by simp [present]; omega), if_neg some_]
  simp only [run_bind]
  rw [base, run_waitBsy (system.idle ch)]
  simp only [ne_eq, not_true_eq_false, if_false, run_bind]
  exact (congrArg (fun begins => (writeBlocks (baseOf ch) buffer 0 sectorCount.toNat).run bus begins.2) begins).trans ran

end Transfers

/-- The calls that `diskfs.c` makes. -/
inductive Call where
  | read (drive : Byte) (lba : Word) (sectorCount : Byte) (buffer : Bytes)
  | write (drive : Byte) (lba : Word) (sectorCount : Byte) (buffer : Bytes)

/-- A call by its ports; a write leaves its buffer alone. -/
def Call.ports (drives : Drives) : Call → PortProgram (Int × Bytes)
  | read drive lba sectorCount buffer => readSectors drives drive lba sectorCount buffer
  | write drive lba sectorCount buffer => do
    let answer ← writeSectors drives drive lba sectorCount buffer
    pure (answer, buffer)

def Call.onAta (ata : Ata) : Call → (Int × Bytes) × Ata
  | read drive lba sectorCount buffer =>
    let (answer, loaded, ata) := ata.readSectors drive lba sectorCount.toNat buffer
    ((answer, loaded), ata)
  | write drive lba sectorCount buffer =>
    let (answer, ata) := ata.writeSectors drive lba sectorCount.toNat buffer
    ((answer, buffer), ata)

def runPorts (bus : Bus σ) (drives : Drives) : List Call → σ → List (Int × Bytes) × σ
  | [], s => ([], s)
  | call :: rest, s =>
    let (answer, s) := (call.ports drives).run bus s
    let (answers, s) := runPorts bus drives rest s
    (answer :: answers, s)

def runAta : List Call → Ata → List (Int × Bytes) × Ata
  | [], ata => ([], ata)
  | call :: rest, ata =>
    let (answer, ata) := call.onAta ata
    let (answers, ata) := runAta rest ata
    (answer :: answers, ata)

/-- The drives of the file system have the table's presence, the medium of the
controller in the bytes of each sector, and the count of its transfers. -/
structure Shows (drives : Drives) (c : Controller) (ata : Ata) : Prop where
  present : ∀ drive : Byte, drive.toNat < 4 → ata.present drive = (drives drive.toNat).present
  sectors : ∀ drive sector place, place < 512 → ata.sectors drive sector place = c.sectors drive sector place
  transfers : ata.transfers = c.transfers

section Refinement

variable {drives : Drives} {c after : Controller} {ata : Ata}

theorem Shows.driveExists (shows_ : Shows drives c ata) (drive : Byte) : ata.driveExists drive = AtaPio.driveExists drives drive := by
  rw [Ata.driveExists, AtaPio.driveExists]
  by_cases small : drive.toNat < 4
  · rw [shows_.present drive small]
  · rw [decide_eq_false small, Bool.false_and, Bool.false_and]

theorem Shows.driveExists_iff (shows_ : Shows drives c ata) (drive : Byte) :
    ata.driveExists drive = true ↔ drive.toNat < 4 ∧ (drives drive.toNat).present = true := by
  rw [shows_.driveExists, AtaPio.driveExists, Bool.and_eq_true, decide_eq_true_iff]

/-- The same bytes come into a buffer. -/
theorem Shows.load (shows_ : Shows drives c ata) (drive : Byte) (lba : Word) (blocks : Nat) (buffer : Bytes) :
    ata.load drive lba blocks buffer = loadBlocks (c.sectors drive) (Ata.sectorOf lba) 0 blocks buffer := by
  funext place
  rw [Ata.load, loadBlocks]
  by_cases inside : place < 512 * blocks
  · rw [if_pos inside, if_pos (by omega)]
    exact shows_.sectors _ _ _ (by omega)
  · rw [if_neg inside, if_neg (by omega)]

theorem Shows.store (shows_ : Shows drives c ata) (drive : Byte) (lba : Word) (blocks : Nat) (buffer : Bytes)
    (stored : after.sectors = storeBlocks c.sectors drive (Ata.sectorOf lba) 0 blocks buffer)
    (counted : after.transfers = c.transfers + 1) : Shows drives after (ata.store drive lba blocks buffer).tick := by
  refine ⟨shows_.present, ?_, ?_⟩
  · intro other sector place bound
    rw [Ata.tick_sectors, stored]
    simp only [storeBlocks, Ata.store, Nat.add_zero]
    by_cases inside : other = drive ∧ Ata.sectorOf lba ≤ sector ∧ sector < Ata.sectorOf lba + blocks
    · rw [if_pos inside, if_pos inside, Bytes.copy_inside (Nat.zero_le _) (by omega), Nat.sub_zero]
    · rw [if_neg inside, if_neg inside]
      exact shows_.sectors _ _ _ bound
  · rw [counted]
    exact congrArg (· + 1) shows_.transfers

/-- What a number of good blocks means to the file system. -/
def outcomeOf (good count : Nat) : Option Nat := if good = count then none else some good

theorem goodBlocks_le (bad : Nat → Bool) (block left : Nat) : goodBlocks bad block left ≤ left := by
  induction left generalizing block with
  | zero => exact Nat.le_refl _
  | succ left ih =>
    rw [goodBlocks]
    split
    · exact Nat.zero_le _
    · exact Nat.succ_le_succ (ih _)

/-- The block that the transfer stops at is bad. -/
theorem goodBlocks_stops (bad : Nat → Bool) (block left : Nat) (short : goodBlocks bad block left < left) :
    bad (block + goodBlocks bad block left) = true := by
  induction left generalizing block with
  | zero => exact absurd short (Nat.not_lt_zero _)
  | succ left ih =>
    cases here : bad block with
    | true => rw [goodBlocks_bad here, Nat.add_zero, here]
    | false =>
      rw [goodBlocks_good here] at short ⊢
      have later := ih (block + 1) (by omega)
      rwa [show block + (goodBlocks bad (block + 1) left + 1) = block + 1 + goodBlocks bad (block + 1) left by omega]

theorem goodBlocks_below {bad : Nat → Bool} (block left : Nat) {i : Nat} (below : i < goodBlocks bad block left) :
    bad (block + i) = false := by
  induction left generalizing block i with
  | zero => exact absurd below (Nat.not_lt_zero _)
  | succ left ih =>
    cases here : bad block with
    | true =>
      rw [goodBlocks_bad here] at below
      exact absurd below (Nat.not_lt_zero _)
    | false =>
      rw [goodBlocks_good here] at below
      cases i with
      | zero => exact here
      | succ i =>
        have later := ih (block + 1) (i := i) (by omega)
        rwa [show block + (i + 1) = block + 1 + i by omega]

theorem moved_outcomeOf {good count transfer : Nat} (outcome : ata.outcome transfer = outcomeOf good count) (le : good ≤ count) :
    ata.moved transfer count = good := by
  rw [Ata.moved, outcome, outcomeOf]
  by_cases all : good = count
  · rw [if_pos all]
    exact all.symm
  · rw [if_neg all]
    exact Nat.min_eq_left le

/-- One call, at the ports and on the drives of the file system. -/
structure Agrees (drives : Drives) (after : Controller) (answer : Int × Bytes) (ata : Ata) (call : Call) : Prop where
  answer : (call.onAta ata).1 = answer
  shows_ : Shows drives after (call.onAta ata).2
  outcome : (call.onAta ata).2.outcome = ata.outcome

theorem Shows.read (shows_ : Shows drives c ata) {drive : Byte} (small : drive.toNat < 4)
    (present : (drives drive.toNat).present = true) (lba : Word) {sectorCount : Byte} (some_ : sectorCount ≠ 0)
    (buffer : Bytes) (good : Nat) (le : good ≤ sectorCount.toNat) (same : after.sectors = c.sectors)
    (counted : after.transfers = c.transfers + 1)
    (outcome : ata.outcome ata.transfers = outcomeOf good sectorCount.toNat) :
    Agrees drives after (if good = sectorCount.toNat then 0 else -1,
      loadBlocks (c.sectors drive) (Ata.sectorOf lba) 0 good buffer) ata (.read drive lba sectorCount buffer) := by
  have there := (shows_.driveExists_iff drive).mpr ⟨small, present⟩
  have positive : sectorCount.toNat ≠ 0 := fun zero => some_ (BitVec.eq_of_toNat_eq zero)
  have ran := Ata.readSectors_present there positive lba buffer
  rw [moved_outcomeOf outcome le, shows_.load, outcome] at ran
  refine ⟨?_, ?_, ?_⟩
  · rw [Call.onAta, ran, outcomeOf]
    by_cases all : good = sectorCount.toNat <;> simp [all]
  · rw [Call.onAta, ran]
    refine ⟨shows_.present, ?_, ?_⟩
    · intro other sector place bound
      rw [same]
      exact shows_.sectors _ _ _ bound
    · rw [counted]
      exact congrArg (· + 1) shows_.transfers
  · rw [Call.onAta, ran]
    rfl

theorem Shows.write (shows_ : Shows drives c ata) {drive : Byte} (small : drive.toNat < 4)
    (present : (drives drive.toNat).present = true) (lba : Word) {sectorCount : Byte} (some_ : sectorCount ≠ 0)
    (buffer : Bytes) (good : Nat) (le : good ≤ sectorCount.toNat)
    (stored : after.sectors = storeBlocks c.sectors drive (Ata.sectorOf lba) 0 good buffer)
    (counted : after.transfers = c.transfers + 1)
    (outcome : ata.outcome ata.transfers = outcomeOf good sectorCount.toNat) :
    Agrees drives after (if good = sectorCount.toNat then 0 else -1, buffer) ata (.write drive lba sectorCount buffer) := by
  have there := (shows_.driveExists_iff drive).mpr ⟨small, present⟩
  have positive : sectorCount.toNat ≠ 0 := fun zero => some_ (BitVec.eq_of_toNat_eq zero)
  have ran := Ata.writeSectors_present there positive lba buffer
  rw [moved_outcomeOf outcome le, outcome] at ran
  refine ⟨?_, ?_, ?_⟩
  · rw [Call.onAta, ran, outcomeOf]
    by_cases all : good = sectorCount.toNat <;> simp [all]
  · rw [Call.onAta, ran]
    exact shows_.store drive lba good buffer stored counted
  · rw [Call.onAta, ran]
    rfl

/-- A call that gets to no drive changes nothing on either side. -/
theorem Shows.skipped (shows_ : Shows drives c ata) {call : Call} {answer : Int × Bytes}
    (same : call.onAta ata = (answer, ata)) : Agrees drives c answer ata call := by
  refine ⟨by rw [same], ?_, by rw [same]⟩
  rw [same]
  exact shows_

/-- What one call takes from the schedule: nothing, or the outcome of one
transfer. -/
structure Step (drives : Drives) (c : Controller) (call : Call) (answer : Int × Bytes) (after : Controller) : Prop where
  system : System drives after
  keeps : after.loses = c.loses
  agrees : (after.transfers = c.transfers ∧ ∀ ata, Shows drives c ata → Agrees drives after answer ata call) ∨
    (after.transfers = c.transfers + 1 ∧ ∃ outcome, ∀ ata, Shows drives c ata → ata.outcome ata.transfers = outcome →
      Agrees drives after answer ata call)

theorem goodBlocks_spoils {loses : Nat → Bool} (keeps : ∀ block, loses block = false) (refuses : Nat → Bool) :
    spoils refuses loses = refuses := by
  funext block
  rw [spoils, keeps, Bool.or_false]

/-- Without lost blocks the answer says whether all were stored. -/
theorem writeAnswer_keeps {refuses loses : Nat → Bool} (keeps : ∀ block, loses block = false) (left : Nat) :
    writeAnswer refuses loses 0 left = if goodBlocks refuses 0 left = left then 0 else -1 := by
  rw [writeAnswer, goodBlocks_spoils keeps]
  refine if_congr (or_iff_left ?_) rfl rfl
  rintro ⟨next, accepted⟩
  have refused := goodBlocks_stops refuses 0 left (by omega)
  rw [refused] at accepted
  cases accepted

/-- The check at the beginning of both calls. -/
theorem refused_iff (drives : Drives) (drive : Byte) : (4 ≤ drive.toNat ∨ (drives drive.toNat).present = false) ↔
    ¬ (drive.toNat < 4 ∧ (drives drive.toNat).present = true) := by
  rw [not_and_or, Nat.not_lt, Bool.not_eq_true]

theorem System.step (system : System drives c) (keeps : ∀ transfer block, c.loses transfer block = false) (call : Call) :
    ∃ answer after, (call.ports drives).run bus c = (answer, after) ∧ Step drives c call answer after := by
  cases call with
  | read drive lba sectorCount buffer =>
    by_cases there : drive.toNat < 4 ∧ (drives drive.toNat).present = true
    · by_cases none_ : sectorCount = 0
      · refine ⟨(0, buffer), c, ?_, system, rfl, .inl ⟨rfl, fun ata shows_ => shows_.skipped ?_⟩⟩
        · rw [Call.ports, AtaPio.readSectors, if_neg (mt (refused_iff ..).mp (not_not.mpr there)), if_pos none_]
          rfl
        · rw [Call.onAta, Ata.readSectors, if_neg (not_not.mpr ((shows_.driveExists_iff drive).mpr there)), if_pos (by rw [none_]; rfl)]
      · obtain ⟨after, ran, counted, same⟩ := system.readSectors there.1 there.2 lba none_ buffer
        exact ⟨_, after, ran, counted.system, counted.loses, .inr ⟨counted.transfers, _, fun ata shows_ outcome =>
          shows_.read there.1 there.2 lba none_ buffer _ (goodBlocks_le _ _ _) same counted.transfers outcome⟩⟩
    · refine ⟨(-1, buffer), c, ?_, system, rfl, .inl ⟨rfl, fun ata shows_ => shows_.skipped ?_⟩⟩
      · rw [Call.ports, AtaPio.readSectors, if_pos ((refused_iff ..).mpr there)]
        rfl
      · rw [Call.onAta, Ata.readSectors, if_pos (mt (shows_.driveExists_iff drive).mp there)]
  | write drive lba sectorCount buffer =>
    by_cases there : drive.toNat < 4 ∧ (drives drive.toNat).present = true
    · by_cases none_ : sectorCount = 0
      · refine ⟨(0, buffer), c, ?_, system, rfl, .inl ⟨rfl, fun ata shows_ => shows_.skipped ?_⟩⟩
        · rw [Call.ports, AtaPio.writeSectors, if_neg (mt (refused_iff ..).mp (not_not.mpr there)), if_pos none_]
          rfl
        · rw [Call.onAta, Ata.writeSectors, if_neg (not_not.mpr ((shows_.driveExists_iff drive).mpr there)), if_pos (by rw [none_]; rfl)]
      · obtain ⟨after, ran, counted, same⟩ := system.writeSectors there.1 there.2 lba none_ buffer
        rw [writeAnswer_keeps (keeps _)] at ran
        rw [goodBlocks_spoils (keeps _)] at same
        refine ⟨_, after, ?_, counted.system, counted.loses, .inr ⟨counted.transfers, _, fun ata shows_ outcome =>
          shows_.write there.1 there.2 lba none_ buffer _ (goodBlocks_le _ _ _) same counted.transfers outcome⟩⟩
        rw [Call.ports, run_bind, ran, run_pure]
    · refine ⟨(-1, buffer), c, ?_, system, rfl, .inl ⟨rfl, fun ata shows_ => shows_.skipped ?_⟩⟩
      · rw [Call.ports, AtaPio.writeSectors, if_pos ((refused_iff ..).mpr there)]
        rfl
      · rw [Call.onAta, Ata.writeSectors, if_pos (mt (shows_.driveExists_iff drive).mp there)]

/-- The ports that the drives of a machine answer at. -/
def Decoded (_ : Nat) (port : Port) : Prop := (decode port).isSome = true

/-- The drives of the file system over what the ports show, with the outcomes
of the transfers to come. -/
def ataOver (drives : Drives) (c : Controller) (outcome : Nat → Option Nat) : Ata where
  present drive := (drives drive.toNat).present
  sectors := c.sectors
  outcome := outcome
  transfers := c.transfers

theorem shows_ataOver (drives : Drives) (c : Controller) (outcome : Nat → Option Nat) :
    Shows drives c (ataOver drives c outcome) := ⟨fun _ _ => rfl, fun _ _ _ _ => rfl, rfl⟩

/-- Any calls, on any drives of the file system that show the controller and
have its outcomes. -/
theorem System.runs (system : System drives c) (keeps : ∀ transfer block, c.loses transfer block = false)
    (calls : List Call) : ∃ outcome : Nat → Option Nat, ∀ ata, Shows drives c ata →
      (∀ transfer, c.transfers ≤ transfer → ata.outcome transfer = outcome transfer) →
      (runPorts bus drives calls c).1 = (runAta calls ata).1 ∧
        Shows drives (runPorts bus drives calls c).2 (runAta calls ata).2 := by
  induction calls generalizing c with
  | nil => exact ⟨fun _ => none, fun ata shows_ _ => ⟨rfl, shows_⟩⟩
  | cons call rest ih =>
    obtain ⟨answer, after, ran, next, same, agrees⟩ := system.step keeps call
    obtain ⟨later, follows⟩ := ih next (by rw [same]; exact keeps)
    have combine {ata : Ata} (both : Agrees drives after answer ata call)
        (outcomes : ∀ transfer, after.transfers ≤ transfer → ata.outcome transfer = later transfer) :
        (runPorts bus drives (call :: rest) c).1 = (runAta (call :: rest) ata).1 ∧
          Shows drives (runPorts bus drives (call :: rest) c).2 (runAta (call :: rest) ata).2 := by
      obtain ⟨answers, shown⟩ := follows _ both.shows_ (by rw [both.outcome]; exact outcomes)
      simp only [runPorts, runAta, ran]
      exact ⟨by rw [both.answer, answers], shown⟩
    rcases agrees with ⟨unchanged, agrees⟩ | ⟨counted, outcome, agrees⟩
    · refine ⟨later, fun ata shows_ outcomes => combine (agrees ata shows_) ?_⟩
      rw [unchanged]
      exact outcomes
    · refine ⟨Function.update later c.transfers outcome, fun ata shows_ outcomes => combine (agrees ata shows_ ?_) ?_⟩
      · rw [shows_.transfers, outcomes _ (Nat.le_refl _), Function.update_self]
      · intro transfer past
        rw [outcomes transfer (by omega), Function.update_of_ne (by omega)]

end Refinement

section Machines

variable {ch : Bool}

theorem decoded_base (ch : Bool) (reg : Fin 8) (width : Nat) : Decoded width (baseOf ch + BitVec.ofNat 16 reg) := by
  rw [Decoded, decode_base]
  rfl

theorem reads_waitBsyFor (ch : Bool) (timeout : Nat) : (waitBsyFor (baseOf ch) timeout).Reads Decoded := by
  induction timeout with
  | zero => exact trivial
  | succ timeout ih =>
    refine ⟨decoded_base ch 7 8, fun status => ?_⟩
    change (if status &&& srBsy = 0 then _ else _ : PortProgram Int).Reads Decoded
    split
    · exact trivial
    · exact ih

theorem reads_waitDrqFor (ch : Bool) (timeout : Nat) : (waitDrqFor (baseOf ch) timeout).Reads Decoded := by
  induction timeout with
  | zero => exact trivial
  | succ timeout ih =>
    refine ⟨decoded_base ch 7 8, fun status => ?_⟩
    change (if status &&& srErr ≠ 0 then _ else if status &&& srDrq ≠ 0 then _ else _ : PortProgram Int).Reads Decoded
    split
    · exact trivial
    · split
      · exact trivial
      · exact ih

theorem reads_readWords (ch : Bool) (index count : Nat) (buf : Bytes) :
    (readWords (baseOf ch) index count buf).Reads Decoded := by
  induction count generalizing index buf with
  | zero => exact trivial
  | succ count ih => exact ⟨decoded_base ch 0 16, fun word => ih _ _⟩

theorem reads_writeWords (ch : Bool) (buf : Bytes) (index count : Nat) :
    (writeWords (baseOf ch) buf index count).Reads Decoded := by
  induction count generalizing index with
  | zero => exact trivial
  | succ count ih => exact ih _

theorem reads_readBlocks (ch : Bool) (i left : Nat) (buf : Bytes) : (readBlocks (baseOf ch) i left buf).Reads Decoded := by
  induction left generalizing i buf with
  | zero => exact trivial
  | succ left ih =>
    refine Reads.bind (reads_waitDrqFor ch _) fun answer => ?_
    split
    · exact trivial
    · exact Reads.bind (reads_readWords ..) fun buf => ih _ _

theorem reads_writeBlocks (ch : Bool) (buf : Bytes) (i left : Nat) : (writeBlocks (baseOf ch) buf i left).Reads Decoded := by
  induction left generalizing i with
  | zero => exact Reads.bind (m := outb (baseOf ch + regCommand) cmdCacheFlush) trivial fun _ => Reads.bind (reads_waitBsyFor ch _) fun _ => trivial
  | succ left ih =>
    refine Reads.bind (reads_waitDrqFor ch _) fun answer => ?_
    split
    · exact trivial
    · exact Reads.bind (reads_writeWords ..) fun _ => ih _

section Table

variable {drives : Drives} {c : Controller}

theorem Table.based (table : Table drives c) {drive : Byte}
    (there : ¬ (4 ≤ drive.toNat ∨ (drives drive.toNat).present = false)) : ∃ ch, (drives drive.toNat).baseIo = baseOf ch := by
  obtain ⟨small, present⟩ := not_not.mp (mt (refused_iff ..).mpr there)
  exact ⟨_, (table _ small present).1⟩

theorem Table.reads_readSectors (table : Table drives c) (drive : Byte) (lba : Word) (sectorCount : Byte) (buffer : Bytes) :
    (readSectors drives drive lba sectorCount buffer).Reads Decoded := by
  rw [AtaPio.readSectors]
  split
  · exact trivial
  · next there =>
    obtain ⟨ch, base⟩ := table.based there
    split
    · exact trivial
    · simp only [base]
      refine Reads.bind (reads_waitBsyFor ch _) fun answer => ?_
      split
      · exact trivial
      · exact Reads.bind trivial fun _ => reads_readBlocks ..

theorem Table.reads_writeSectors (table : Table drives c) (drive : Byte) (lba : Word) (sectorCount : Byte) (buffer : Bytes) :
    (writeSectors drives drive lba sectorCount buffer).Reads Decoded := by
  rw [AtaPio.writeSectors]
  split
  · exact trivial
  · next there =>
    obtain ⟨ch, base⟩ := table.based there
    split
    · exact trivial
    · simp only [base]
      refine Reads.bind (reads_waitBsyFor ch _) fun answer => ?_
      split
      · exact trivial
      · exact Reads.bind trivial fun _ => reads_writeBlocks ..

/-- The calls read the ports of the drives only. -/
theorem Table.reads (table : Table drives c) (call : Call) : (call.ports drives).Reads Decoded := by
  cases call with
  | read drive lba sectorCount buffer => exact table.reads_readSectors drive lba sectorCount buffer
  | write drive lba sectorCount buffer =>
    exact Reads.bind (table.reads_writeSectors drive lba sectorCount buffer) fun _ => trivial

end Table

/-- Calls on a machine whose ports show the controller. -/
theorem runPorts_view {machine : Bus σ} {view : σ → Controller} (follows : machine.Follows bus view Decoded)
    {drives : Drives} (calls : List Call) (s : σ) (system : System drives (view s))
    (keeps : ∀ transfer block, (view s).loses transfer block = false) :
    runPorts bus drives calls (view s) = ((runPorts machine drives calls s).1, view (runPorts machine drives calls s).2) := by
  induction calls generalizing s with
  | nil => rfl
  | cons call rest ih =>
    have here := follows.run (system.table.reads call) s
    obtain ⟨answer, after, ran, next, same, _⟩ := system.step keeps call
    obtain ⟨rfl, rfl⟩ := Prod.mk.inj (here.symm.trans ran)
    simp only [runPorts, here]
    rw [ih _ next (by rw [same]; exact keeps)]

end Machines

end MexOS.Drivers.AtaPio
