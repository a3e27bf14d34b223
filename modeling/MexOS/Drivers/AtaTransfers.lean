import MexOS.Drivers.AtaController
import MexOS.Fs.Ata

/-! The driver of `ata.c` on the controller: polling, the words of a block and
the blocks of a transfer. -/

namespace MexOS.Drivers.AtaPio

open MexOS.Machine PortProgram

namespace Controller

variable {c : Controller} {ch : Bool} {drive : Byte}

@[simp] theorem channel_setChannel (c : Controller) (ch : Bool) (channel : Channel) :
    (c.setChannel ch channel).channel ch = channel := Function.update_self ..

@[simp] theorem setChannel_setChannel (c : Controller) (ch : Bool) (first second : Channel) :
    (c.setChannel ch first).setChannel ch second = c.setChannel ch second := by
  simp [setChannel]

theorem enter_setPhase (c : Controller) (ch : Bool) (first second : Phase) :
    (c.setPhase ch first).enter ch second = c.enter ch second := by
  simp [enter, setPhase, setChannel]

/-- A drive of the channel is selected. -/
def Selects (c : Controller) (ch : Bool) (drive : Byte) : Prop :=
  c.selected ch = drive ∧ ∃ identity, c.attached drive = .disk identity

/-- The bits that the driver looks at; a busy drive shows no other. -/
theorem Selects.status (selects : c.Selects ch drive) :
    (c.status ch &&& srBsy = 0 ↔ (c.channel ch).busy = 0) ∧
    (c.status ch &&& srErr ≠ 0 ↔ (c.channel ch).busy = 0 ∧ (c.channel ch).phase.failed = true) ∧
    (c.status ch &&& srDrq ≠ 0 ↔ (c.channel ch).busy = 0 ∧ (c.channel ch).phase.failed = false ∧
      (c.channel ch).phase.requests = true) := by
  obtain ⟨same, identity, disk⟩ := selects
  have shown : c.status ch = if 0 < (c.channel ch).busy then 0x80
      else if (c.channel ch).phase.failed then 0x51
      else if (c.channel ch).phase.requests then 0x58
      else 0x50 := by
    rw [Controller.status, same, disk]
  rw [shown]
  by_cases busy : (c.channel ch).busy = 0
  · rw [if_neg (by omega)]
    cases (c.channel ch).phase.failed <;> cases (c.channel ch).phase.requests <;> simp [busy, srBsy, srErr, srDrq]
  · rw [if_pos (by omega)]
    simp [busy, srBsy, srErr, srDrq]

theorem Selects.setBusy (selects : c.Selects ch drive) (busy : Nat) : (c.setBusy ch busy).Selects ch drive := by
  obtain ⟨same, disk⟩ := selects
  refine ⟨?_, disk⟩
  rw [← same]
  simp [selected, Controller.setBusy]

end Controller

section Polling

variable {c : Controller} {ch : Bool} {drive : Byte}

open Controller

theorem poll_free (free : (c.channel ch).busy = 0) : c.poll ch = c.setBusy ch 0 := by
  rw [poll, free]

theorem poll_setBusy (c : Controller) (ch : Bool) (busy : Nat) : (c.poll ch).setBusy ch busy = c.setBusy ch busy := by
  simp [poll, Controller.setBusy]

theorem poll_busy (c : Controller) (ch : Bool) : ((c.poll ch).channel ch).busy = (c.channel ch).busy - 1 := by
  simp [poll, Controller.setBusy]

theorem poll_phase (c : Controller) (ch : Bool) : ((c.poll ch).channel ch).phase = (c.channel ch).phase := by
  simp [poll, Controller.setBusy]

/-- Polling for the end of a busy period. -/
theorem run_waitBsyFor (selects : c.Selects ch drive) (timeout : Nat) (soon : (c.channel ch).busy < timeout) :
    (waitBsyFor (baseOf ch) timeout).run bus c = (0, c.setBusy ch 0) := by
  induction timeout generalizing c with
  | zero => exact absurd soon (Nat.not_lt_zero _)
  | succ timeout ih =>
    rw [waitBsyFor, run_bind, run_inb, read_status]
    by_cases free : (c.channel ch).busy = 0
    · rw [if_pos (selects.status.1.mpr free), run_pure, poll_free free]
    · have later := ih (c := c.poll ch) (selects.setBusy _) (by rw [poll_busy]; omega)
      rw [if_neg (mt selects.status.1.mp free), later, poll_setBusy]

/-- Polling for a data request, or for the error that comes in its place. -/
theorem run_waitDrqFor (selects : c.Selects ch drive) (timeout : Nat) (soon : (c.channel ch).busy < timeout)
    (answers : (c.channel ch).phase.failed = false → (c.channel ch).phase.requests = true) :
    (waitDrqFor (baseOf ch) timeout).run bus c =
      (if (c.channel ch).phase.failed then -1 else 0, c.setBusy ch 0) := by
  induction timeout generalizing c with
  | zero => exact absurd soon (Nat.not_lt_zero _)
  | succ timeout ih =>
    obtain ⟨_, err, drq⟩ := selects.status
    rw [waitDrqFor, run_bind, run_inb, read_status]
    by_cases free : (c.channel ch).busy = 0
    · rw [poll_free free]
      cases error : (c.channel ch).phase.failed with
      | true => rw [if_pos (err.mpr ⟨free, error⟩), run_pure, if_pos rfl]
      | false =>
        have clear : ¬ (c.status ch &&& srErr ≠ 0) := fun set => by simpa [error] using (err.mp set).2
        rw [if_neg clear, if_pos (drq.mpr ⟨free, error, answers error⟩), run_pure, if_neg (by decide)]
    · have later := ih (c := c.poll ch) (selects.setBusy _) (by rw [poll_busy]; omega) (by rwa [poll_phase])
      rw [if_neg (mt err.mp (fun both => free both.1)), if_neg (mt drq.mp (fun both => free both.1)), later,
        poll_setBusy, poll_phase]

end Polling

section Words

variable {c : Controller} {ch : Bool} {number sector count block : Nat}

open Controller

theorem nextBlock_setPhase (c : Controller) (ch writing : Bool) (number sector count block : Nat) (phase : Phase) :
    (c.setPhase ch phase).nextBlock ch writing number sector count block =
      c.nextBlock ch writing number sector count block := enter_setPhase ..

theorem selected_setPhase (c : Controller) (ch : Bool) (phase : Phase) :
    (c.setPhase ch phase).selected ch = c.selected ch := by
  simp [selected, setPhase]

theorem busy_setPhase (c : Controller) (ch : Bool) (phase : Phase) :
    ((c.setPhase ch phase).channel ch).busy = (c.channel ch).busy := by
  simp [setPhase]

theorem phase_setPhase (c : Controller) (ch : Bool) (phase : Phase) :
    ((c.setPhase ch phase).channel ch).phase = phase := by
  simp [setPhase]

/-- The words up to the end of a block are the bytes of the sector. -/
theorem run_readWords (left index word : Nat) (buf staged : Bytes) (free : (c.channel ch).busy = 0)
    (phase : (c.channel ch).phase = .data false number sector count block word staged) (rest : word + left + 1 = 256) :
    (readWords (baseOf ch) index (left + 1) buf).run bus c =
      (buf.copy (2 * index) (c.sectors (c.selected ch) (sector + block)) (2 * word) (2 * (left + 1)),
        c.nextBlock ch false number sector count (block + 1)) := by
  induction left generalizing c index word buf with
  | zero =>
    have last : ¬ word + 1 < 256 := by omega
    rw [readWords, run_bind, run_inw, read_data, dataWord, if_neg (by omega), phase]
    simp only [if_neg last, readWords, run_pure, Bytes.setHalf_half]
  | succ left ih =>
    have inside : word + 1 < 256 := by omega
    have later := ih (c := c.setPhase ch (.data false number sector count block (word + 1) staged)) (index + 1) (word + 1)
      (buf.copy (2 * index) (c.sectors (c.selected ch) (sector + block)) (2 * word) 2)
      (by rw [busy_setPhase, free]) (phase_setPhase ..) (by omega)
    rw [readWords, run_bind, run_inw, read_data, dataWord, if_neg (by omega), phase]
    simp only [if_pos inside, Bytes.setHalf_half]
    rw [later, nextBlock_setPhase, selected_setPhase]
    have whole := Bytes.copy_copy buf (c.sectors (c.selected ch) (sector + block)) (2 * index) (2 * word) 2 (2 * (left + 1))
    rw [show 2 * (left + 1 + 1) = 2 + 2 * (left + 1) by omega, ← whole]
    rfl

/-- What the last word of a block that is written does. -/
def finishBlock (c : Controller) (ch : Bool) (number sector count block : Nat) (staged : Bytes) : Controller :=
  if c.loses number block then c.enter ch (.idle true)
  else (c.storeBlock (c.selected ch) (sector + block) staged).nextBlock ch true number sector count (block + 1)

theorem finishBlock_setPhase (c : Controller) (ch : Bool) (number sector count block : Nat) (staged : Bytes)
    (phase : Phase) : finishBlock (c.setPhase ch phase) ch number sector count block staged =
      finishBlock c ch number sector count block staged := by
  rw [finishBlock, finishBlock, enter_setPhase, selected_setPhase]
  congr 1
  exact nextBlock_setPhase (c.storeBlock (c.selected ch) (sector + block) staged) ..

theorem run_writeWords (left index word : Nat) (buf staged : Bytes) (free : (c.channel ch).busy = 0)
    (phase : (c.channel ch).phase = .data true number sector count block word staged) (rest : word + left + 1 = 256) :
    (writeWords (baseOf ch) buf index (left + 1)).run bus c =
      ((), finishBlock c ch number sector count block (staged.copy (2 * word) buf (2 * index) (2 * (left + 1)))) := by
  induction left generalizing c index word staged with
  | zero =>
    have last : ¬ word + 1 < 256 := by omega
    rw [writeWords, run_bind, run_outw, write_data, takeWord, if_neg (by omega), phase]
    simp only [if_neg last, writeWords, run_pure, Bytes.setHalf_half]
    rfl
  | succ left ih =>
    have inside : word + 1 < 256 := by omega
    have later := ih (c := c.setPhase ch (.data true number sector count block (word + 1)
      (staged.copy (2 * word) buf (2 * index) 2))) (index + 1) (word + 1) (staged.copy (2 * word) buf (2 * index) 2)
      (by rw [busy_setPhase, free]) (phase_setPhase ..) (by omega)
    rw [writeWords, run_bind, run_outw, write_data, takeWord, if_neg (by omega), phase]
    simp only [if_pos inside, Bytes.setHalf_half]
    have whole := Bytes.copy_copy staged buf (2 * word) (2 * index) 2 (2 * (left + 1))
    rw [later, finishBlock_setPhase, show 2 * (left + 1 + 1) = 2 + 2 * (left + 1) by omega, ← whole]
    rfl

end Words

/-- What a transfer leaves alone: the schedule of the controller, the other
channel and the selection. -/
structure Frame (before after : Controller) (ch : Bool) : Prop where
  attached : after.attached = before.attached
  pauses : after.pauses = before.pauses
  refuses : after.refuses = before.refuses
  loses : after.loses = before.loses
  transfers : after.transfers = before.transfers
  other : after.channel (!ch) = before.channel (!ch)
  head : (after.channel ch).driveHead = (before.channel ch).driveHead

/-- No data is asked for, and a busy period is over in time. -/
structure Rests (c : Controller) (ch : Bool) : Prop where
  quiet : (c.channel ch).phase.requests = false
  soon : (c.channel ch).busy < 100000

namespace Frame

variable {c before middle after : Controller} {ch : Bool} {drive : Byte}

open Controller

theorem refl (c : Controller) (ch : Bool) : Frame c c ch := ⟨rfl, rfl, rfl, rfl, rfl, rfl, rfl⟩

theorem trans (first : Frame before middle ch) (second : Frame middle after ch) : Frame before after ch where
  attached := second.attached.trans first.attached
  pauses := second.pauses.trans first.pauses
  refuses := second.refuses.trans first.refuses
  loses := second.loses.trans first.loses
  transfers := second.transfers.trans first.transfers
  other := second.other.trans first.other
  head := second.head.trans first.head

theorem setChannel (c : Controller) (ch : Bool) (channel : Channel) (same : channel.driveHead = (c.channel ch).driveHead) :
    Frame c (c.setChannel ch channel) ch :=
  ⟨rfl, rfl, rfl, rfl, rfl, Function.update_of_ne (Bool.not_ne_self ch) _ _, by rw [channel_setChannel, same]⟩

theorem setBusy (c : Controller) (ch : Bool) (busy : Nat) : Frame c (c.setBusy ch busy) ch := setChannel c ch _ rfl

theorem enter (c : Controller) (ch : Bool) (phase : Phase) : Frame c (c.enter ch phase) ch := by
  obtain ⟨attached, pauses, refuses, loses, transfers, other, head⟩ :=
    setChannel c ch { c.channel ch with phase, busy := c.pauses c.periods } rfl
  exact ⟨attached, pauses, refuses, loses, transfers, other, head⟩

theorem storeBlock (c : Controller) (ch : Bool) (drive : Byte) (sector : Nat) (block : Bytes) :
    Frame c (c.storeBlock drive sector block) ch := ⟨rfl, rfl, rfl, rfl, rfl, rfl, rfl⟩

theorem selected (frame : Frame before after ch) : after.selected ch = before.selected ch := by
  rw [Controller.selected, Controller.selected, frame.head]

theorem selects (frame : Frame before after ch) (selects : before.Selects ch drive) : after.Selects ch drive := by
  obtain ⟨same, identity, disk⟩ := selects
  exact ⟨frame.selected.trans same, identity, by rw [frame.attached, disk]⟩

end Frame

section Blocks

variable {c : Controller} {ch : Bool} {drive : Byte} {number sector count : Nat}

open Controller

theorem phase_enter (c : Controller) (ch : Bool) (phase : Phase) : ((c.enter ch phase).channel ch).phase = phase := by
  simp [enter, setChannel]

theorem busy_enter (c : Controller) (ch : Bool) (phase : Phase) :
    ((c.enter ch phase).channel ch).busy = c.pauses c.periods := by
  simp [enter, setChannel]

theorem phase_setBusy (c : Controller) (ch : Bool) (busy : Nat) :
    ((c.setBusy ch busy).channel ch).phase = (c.channel ch).phase := by
  simp [setBusy]

theorem busy_setBusy (c : Controller) (ch : Bool) (busy : Nat) : ((c.setBusy ch busy).channel ch).busy = busy := by
  simp [setBusy]

/-- How many blocks there are before a bad one. -/
def goodBlocks (bad : Nat → Bool) : Nat → Nat → Nat
  | _, 0 => 0
  | block, left + 1 => if bad block then 0 else goodBlocks bad (block + 1) left + 1

theorem goodBlocks_bad {bad : Nat → Bool} {block : Nat} (here : bad block = true) (left : Nat) :
    goodBlocks bad block (left + 1) = 0 := by
  rw [goodBlocks, if_pos here]

theorem goodBlocks_good {bad : Nat → Bool} {block : Nat} (good : bad block = false) (left : Nat) :
    goodBlocks bad block (left + 1) = goodBlocks bad (block + 1) left + 1 := by
  rw [goodBlocks, if_neg (by rw [good]; decide)]

/-- The blocks from `first` on, in a buffer that begins with block 0. -/
def loadBlocks (medium : Nat → Bytes) (sector first blocks : Nat) (buf : Bytes) : Bytes := fun place =>
  if 512 * first ≤ place ∧ place < 512 * (first + blocks) then medium (sector + place / 512) (place % 512) else buf place

theorem loadBlocks_none (medium : Nat → Bytes) (sector first : Nat) (buf : Bytes) :
    loadBlocks medium sector first 0 buf = buf := by
  funext place
  exact if_neg (by omega)

theorem loadBlocks_succ (medium : Nat → Bytes) (sector first blocks : Nat) (buf : Bytes) :
    loadBlocks medium sector (first + 1) blocks (buf.copy (512 * first) (medium (sector + first)) 0 512) =
      loadBlocks medium sector first (blocks + 1) buf := by
  funext place
  simp only [loadBlocks, Bytes.copy]
  by_cases later : 512 * (first + 1) ≤ place ∧ place < 512 * (first + 1 + blocks)
  · rw [if_pos later, if_pos (by omega)]
  · rw [if_neg later]
    by_cases here : 512 * first ≤ place ∧ place < 512 * first + 512
    · have index : place / 512 = first := by omega
      rw [if_pos here, if_pos (by omega), index]
      congr 1
      omega
    · rw [if_neg here, if_neg (by omega)]

theorem nextBlock_done (writing : Bool) {block : Nat} (done : count ≤ block) :
    c.nextBlock ch writing number sector count block = c.enter ch (.idle false) := by
  rw [nextBlock, if_pos done]

theorem nextBlock_refused (writing : Bool) {block : Nat} (more : block < count) (refused : c.refuses number block = true) :
    c.nextBlock ch writing number sector count block = c.enter ch (.idle true) := by
  rw [nextBlock, if_neg (Nat.not_le.mpr more), if_pos refused]

theorem nextBlock_ready (writing : Bool) {block : Nat} (more : block < count) (ready : c.refuses number block = false) :
    c.nextBlock ch writing number sector count block =
      c.enter ch (.data writing number sector count block 0 Bytes.zero) := by
  rw [nextBlock, if_neg (Nat.not_le.mpr more), if_neg (by rw [ready]; decide)]

/-- Waiting for a data request of a phase that has just been entered. -/
theorem run_waitDrq (phase : Phase) (prompt : ∀ period, c.pauses period < 100000) (selects : c.Selects ch drive)
    (answers : phase.failed = false → phase.requests = true) :
    (waitDrq (baseOf ch)).run bus (c.enter ch phase) =
      (if phase.failed then -1 else 0, (c.enter ch phase).setBusy ch 0) := by
  have ran := run_waitDrqFor ((Frame.enter c ch phase).selects selects) 100000 (by rw [busy_enter]; exact prompt _)
    (by rwa [phase_enter])
  rwa [phase_enter] at ran

/-- The loop over the blocks that are read. -/
theorem run_readBlocks (left block : Nat) (buf : Bytes) (prompt : ∀ period, c.pauses period < 100000)
    (selects : c.Selects ch drive) (whole : block + left = count) : ∃ after,
    (readBlocks (baseOf ch) block left buf).run bus (c.nextBlock ch false number sector count block) =
      ((if goodBlocks (c.refuses number) block left = left then 0 else -1,
        loadBlocks (c.sectors drive) sector block (goodBlocks (c.refuses number) block left) buf), after) ∧
      Frame c after ch ∧ Rests after ch ∧ after.sectors = c.sectors := by
  induction left generalizing c block buf with
  | zero =>
    rw [nextBlock_done false (by omega), goodBlocks, if_pos rfl, loadBlocks_none, readBlocks, run_pure]
    refine ⟨_, rfl, .enter .., ⟨?_, ?_⟩, rfl⟩
    · rw [phase_enter]
      rfl
    · rw [busy_enter]
      exact prompt _
  | succ left ih =>
    rw [readBlocks, run_bind]
    cases refused : c.refuses number block with
    | true =>
      rw [nextBlock_refused false (by omega) refused, run_waitDrq _ prompt selects (by decide), goodBlocks_bad refused,
        loadBlocks_none]
      refine ⟨_, rfl, (Frame.enter ..).trans (.setBusy ..), ⟨?_, ?_⟩, rfl⟩
      · rw [phase_setBusy, phase_enter]
        rfl
      · rw [busy_setBusy]
        decide
    | false =>
      rw [nextBlock_ready false (by omega) refused, run_waitDrq _ prompt selects fun _ => rfl, goodBlocks_good refused,
        ← loadBlocks_succ]
      have framed := (Frame.enter c ch (.data false number sector count block 0 Bytes.zero)).trans (.setBusy _ ch 0)
      obtain ⟨after, ran, frame, rests, same⟩ := ih (block + 1)
        (buf.copy (512 * block) (c.sectors drive (sector + block)) 0 512)
        (by rw [framed.pauses]; exact prompt) (framed.selects selects) (by omega)
      refine ⟨after, ?_, framed.trans frame, rests, same⟩
      have words := run_readWords 255 (block * 256) 0 buf Bytes.zero (busy_setBusy
        (c.enter ch (.data false number sector count block 0 Bytes.zero)) ch 0) (by rw [phase_setBusy, phase_enter]) rfl
      rw [framed.selected, selects.1, show 2 * (block * 256) = 512 * block by omega] at words
      rw [framed.refuses] at ran
      simp only [Nat.add_right_cancel_iff]
      refine Eq.trans ?_ ran
      change ((readWords (baseOf ch) (block * 256) 256 buf) >>= fun buf => readBlocks (baseOf ch) (block + 1) left buf).run bus _ = _
      rw [run_bind, words]
      rfl

/-- The medium with some blocks of a buffer that begins with block 0. -/
def storeBlocks (sectors : Byte → Nat → Bytes) (drive : Byte) (sector first blocks : Nat) (buf : Bytes) :
    Byte → Nat → Bytes := fun other place =>
  if other = drive ∧ sector + first ≤ place ∧ place < sector + first + blocks then
    (sectors other place).copy 0 buf (512 * (place - sector)) 512
  else sectors other place

theorem storeBlocks_none (sectors : Byte → Nat → Bytes) (drive : Byte) (sector first : Nat) (buf : Bytes) :
    storeBlocks sectors drive sector first 0 buf = sectors := by
  funext other place
  exact if_neg (by omega)

/-- A block that is put together in another buffer first. -/
theorem copy_staged (dest staged source : Bytes) (start length : Nat) :
    dest.copy 0 (staged.copy 0 source start length) 0 length = dest.copy 0 source start length := by
  funext place
  simp only [Bytes.copy]
  by_cases inside : 0 ≤ place ∧ place < 0 + length
  · rw [if_pos inside, if_pos inside, if_pos (by omega)]
    congr 1
    omega
  · rw [if_neg inside, if_neg inside]

theorem storeBlocks_succ (c : Controller) (drive : Byte) (sector first blocks : Nat) (buf staged : Bytes) :
    storeBlocks (c.storeBlock drive (sector + first) (staged.copy 0 buf (512 * first) 512)).sectors drive sector
      (first + 1) blocks buf = storeBlocks c.sectors drive sector first (blocks + 1) buf := by
  funext other place
  simp only [storeBlocks, storeBlock, copy_staged]
  by_cases later : other = drive ∧ sector + (first + 1) ≤ place ∧ place < sector + (first + 1) + blocks
  · have apart : ¬ (other = drive ∧ place = sector + first) := by omega
    rw [if_pos later, if_neg apart, if_pos ⟨later.1, by omega, by omega⟩]
  · rw [if_neg later]
    by_cases here : other = drive ∧ place = sector + first
    · obtain ⟨rfl, rfl⟩ := here
      rw [if_pos ⟨rfl, rfl⟩, if_pos ⟨rfl, by omega, by omega⟩, Nat.add_sub_cancel_left]
    · have outside : ¬ (other = drive ∧ sector + first ≤ place ∧ place < sector + first + (blocks + 1)) := by
        rintro ⟨same, lower, upper⟩
        have apart : place ≠ sector + first := fun first => here ⟨same, first⟩
        exact later ⟨same, by omega, by omega⟩
      rw [if_neg here, if_neg outside]

theorem execute_flush (selects : c.Selects ch drive) : c.execute ch cmdCacheFlush = c.enter ch (.idle false) := by
  obtain ⟨same, identity, disk⟩ := selects
  rw [execute, same, disk]
  rfl

/-- The flush at the end; it is not taken by a channel that is still busy. -/
theorem run_flush (block : Nat) (buf : Bytes) (prompt : ∀ period, c.pauses period < 100000)
    (selects : c.Selects ch drive) (rests : Rests c ch) : ∃ after,
    (writeBlocks (baseOf ch) buf block 0).run bus c = (0, after) ∧ Frame c after ch ∧ Rests after ch ∧
      after.sectors = c.sectors := by
  have done (next : Controller) (frame : Frame c next ch) (quiet : Rests next ch) (same : next.sectors = c.sectors) :
      ∃ after, (waitBsy (baseOf ch) >>= fun _ => pure (0 : Int)).run bus next = (0, after) ∧ Frame c after ch ∧
        Rests after ch ∧ after.sectors = c.sectors := by
    rw [run_bind, waitBsy, run_waitBsyFor (frame.selects selects) 100000 quiet.soon]
    refine ⟨_, rfl, frame.trans (.setBusy ..), ⟨?_, ?_⟩, same⟩
    · rw [phase_setBusy]
      exact quiet.quiet
    · rw [busy_setBusy]
      decide
  have command : bus.write 8 (baseOf ch + regCommand) cmdCacheFlush c = c.takeRegister ch 7 cmdCacheFlush :=
    write_register c ch 7 (by decide) _
  rw [writeBlocks, run_bind, run_outb, command, takeRegister]
  by_cases free : c.free ch = true
  · rw [if_pos free]
    change ∃ after, (waitBsy (baseOf ch) >>= fun _ => pure (0 : Int)).run bus (c.execute ch cmdCacheFlush) = _ ∧ _
    rw [execute_flush selects]
    refine done _ (.enter ..) ⟨?_, ?_⟩ rfl
    · rw [phase_enter]
      rfl
    · rw [busy_enter]
      exact prompt _
  · rw [if_neg free]
    exact done c (.refl ..) rests rfl

/-- Whether a block does not get to the medium. -/
def spoils (refuses loses : Nat → Bool) (block : Nat) : Bool := refuses block || loses block

/-- The answer of a transfer that ends at the first spoilt block. An error that
comes with the last block is not seen. -/
def writeAnswer (refuses loses : Nat → Bool) (block left : Nat) : Int :=
  let stored := goodBlocks (spoils refuses loses) block left
  if stored = left ∨ (stored + 1 = left ∧ refuses (block + stored) = false) then 0 else -1

section Answers

variable {refuses loses : Nat → Bool} {block left : Nat}

theorem writeAnswer_good (good : spoils refuses loses block = false) :
    writeAnswer refuses loses block (left + 1) = writeAnswer refuses loses (block + 1) left := by
  simp only [writeAnswer, goodBlocks_good good]
  rw [show block + (goodBlocks (spoils refuses loses) (block + 1) left + 1) =
    block + 1 + goodBlocks (spoils refuses loses) (block + 1) left by omega]
  exact if_congr (or_congr (by omega) (and_congr_left fun _ => by omega)) rfl rfl

theorem writeAnswer_refused (refused : refuses block = true) : writeAnswer refuses loses block (left + 1) = -1 := by
  have spoilt : spoils refuses loses block = true := by rw [spoils, refused, Bool.true_or]
  simp only [writeAnswer, goodBlocks_bad spoilt]
  apply if_neg
  rintro (none_left | ⟨_, accepted⟩)
  · omega
  · rw [Nat.add_zero, refused] at accepted
    cases accepted

theorem writeAnswer_lost (accepted : refuses block = false) (lost : loses block = true) :
    writeAnswer refuses loses block (left + 1) = if left = 0 then 0 else -1 := by
  have spoilt : spoils refuses loses block = true := by rw [spoils, lost, Bool.or_true]
  simp only [writeAnswer, goodBlocks_bad spoilt, Nat.add_zero, accepted, and_true]
  exact if_congr (by omega) rfl rfl

end Answers

/-- The loop over the blocks that are written. -/
theorem run_writeBlocks (left block : Nat) (buf : Bytes) (prompt : ∀ period, c.pauses period < 100000)
    (selects : c.Selects ch drive) (whole : block + left = count) : ∃ after,
    (writeBlocks (baseOf ch) buf block left).run bus (c.nextBlock ch true number sector count block) =
      (writeAnswer (c.refuses number) (c.loses number) block left, after) ∧ Frame c after ch ∧ Rests after ch ∧
      after.sectors = storeBlocks c.sectors drive sector block
        (goodBlocks (spoils (c.refuses number) (c.loses number)) block left) buf := by
  induction left generalizing c block with
  | zero =>
    have entered := Frame.enter c ch (.idle false)
    obtain ⟨after, ran, frame, rests, same⟩ := run_flush (c := c.enter ch (.idle false)) block buf
      (by rw [entered.pauses]; exact prompt) (entered.selects selects)
      ⟨by rw [phase_enter]; rfl, by rw [busy_enter]; exact prompt _⟩
    rw [nextBlock_done true (by omega), ran, goodBlocks, storeBlocks_none]
    exact ⟨after, rfl, entered.trans frame, rests, same⟩
  | succ left ih =>
    rw [writeBlocks, run_bind]
    cases refused : c.refuses number block with
    | true =>
      have spoilt : spoils (c.refuses number) (c.loses number) block = true := by rw [spoils, refused, Bool.true_or]
      rw [nextBlock_refused true (by omega) refused, run_waitDrq _ prompt selects (by decide), goodBlocks_bad spoilt,
        storeBlocks_none, writeAnswer_refused refused]
      refine ⟨_, rfl, (Frame.enter ..).trans (.setBusy ..), ⟨?_, ?_⟩, rfl⟩
      · rw [phase_setBusy, phase_enter]
        rfl
      · rw [busy_setBusy]
        decide
    | false =>
      rw [nextBlock_ready true (by omega) refused, run_waitDrq _ prompt selects fun _ => rfl]
      have framed := (Frame.enter c ch (.data true number sector count block 0 Bytes.zero)).trans (.setBusy _ ch 0)
      have words := run_writeWords 255 (block * 256) 0 buf Bytes.zero (busy_setBusy
        (c.enter ch (.data true number sector count block 0 Bytes.zero)) ch 0) (by rw [phase_setBusy, phase_enter]) rfl
      rw [finishBlock, framed.selected, selects.1, framed.loses, show 2 * (block * 256) = 512 * block by omega] at words
      change ∃ after, (writeWords (baseOf ch) buf (block * 256) 256 >>= fun _ => writeBlocks (baseOf ch) buf (block + 1) left).run
        bus _ = _ ∧ _
      rw [run_bind, words]
      have medium : ((c.enter ch (.data true number sector count block 0 Bytes.zero)).setBusy ch 0).sectors = c.sectors := rfl
      generalize (c.enter ch (.data true number sector count block 0 Bytes.zero)).setBusy ch 0 = waiting at framed medium ⊢
      have prompted : ∀ period, waiting.pauses period < 100000 := by
        rw [framed.pauses]
        exact prompt
      cases lost : c.loses number block with
      | true =>
        have spoilt : spoils (c.refuses number) (c.loses number) block = true := by rw [spoils, lost, Bool.or_true]
        rw [if_pos rfl, goodBlocks_bad spoilt, storeBlocks_none, writeAnswer_lost refused lost]
        have entered := framed.trans (.enter waiting ch (.idle true))
        have rests : Rests (waiting.enter ch (.idle true)) ch :=
          ⟨by rw [phase_enter]; rfl, by rw [busy_enter]; exact prompted _⟩
        cases left with
        | zero =>
          obtain ⟨after, ran, frame, quiet, same⟩ := run_flush (c := waiting.enter ch (.idle true)) (block + 1) buf
            prompted (entered.selects selects) rests
          exact ⟨after, ran, entered.trans frame, quiet, same.trans medium⟩
        | succ left =>
          rw [writeBlocks, run_bind, run_waitDrq _ prompted (framed.selects selects) (by decide)]
          refine ⟨_, rfl, entered.trans (.setBusy ..), ⟨?_, ?_⟩, medium⟩
          · rw [phase_setBusy, phase_enter]
            rfl
          · rw [busy_setBusy]
            decide
      | false =>
        have good : spoils (c.refuses number) (c.loses number) block = false := by rw [spoils, refused, lost, Bool.or_self]
        have stored := framed.trans (.storeBlock waiting ch drive (sector + block)
          (Bytes.zero.copy 0 buf (512 * block) 512))
        obtain ⟨after, ran, frame, quiet, same⟩ := ih (c := waiting.storeBlock drive (sector + block)
          (Bytes.zero.copy 0 buf (512 * block) 512)) (block + 1) prompted (stored.selects selects) (by omega)
        rw [stored.refuses, stored.loses] at ran same
        rw [if_neg (by decide), writeAnswer_good good, goodBlocks_good good]
        refine ⟨after, ran, stored.trans frame, quiet, ?_⟩
        rw [same, ← medium]
        exact storeBlocks_succ waiting drive sector block _ buf Bytes.zero

end Blocks

end MexOS.Drivers.AtaPio
