import MexOS.Drivers.Pci

/-! What the configuration accesses read and write, bit by bit. -/

namespace MexOS.Drivers.Pci

open MexOS.Machine PortProgram

section Address

variable (slot : Slot) (offset : Byte)

def Slot.address : Word := configAddress slot.bus (slot.device.setWidth 8) (slot.function.setWidth 8) offset

theorem enable_bit (n : Nat) : (0x80000000#32).getLsbD n = decide (n = 31) := by
  change (BitVec.twoPow 32 31).getLsbD n = _
  rw [BitVec.getLsbD_twoPow]
  simp
  grind

/-- The host reads the place back from the address. -/
theorem slot_address : Host.slot (slot.address offset) = slot := by
  obtain ⟨bus, device, function⟩ := slot
  rw [Host.slot, Slot.address, configAddress, Slot.mk.injEq]
  refine ⟨?_, ?_, ?_⟩
  · ext i inside
    simp [enable_bit]
    grind
  · ext i inside
    simp [enable_bit]
    grind
  · ext i inside
    simp [enable_bit]
    grind

theorem register_address : Host.register (slot.address offset) = offset.extractLsb' 2 6 := by
  rw [Host.register, Slot.address, configAddress]
  ext i inside
  have one : i = 0 ∨ i = 1 ∨ i = 2 ∨ i = 3 ∨ i = 4 ∨ i = 5 := by omega
  rcases one with rfl | rfl | rfl | rfl | rfl | rfl <;> simp

theorem msb_address : (slot.address offset).msb = true := by
  have enabled : (0x80000000 : Word).msb = true := rfl
  rw [Slot.address, configAddress, BitVec.msb_or, enabled, Bool.or_true]

end Address

section Reads

variable (slot : Slot) (offset : Byte) (h : Host)

theorem write_address (address : Word) : Host.bus.write 32 configAddressPort address h = { h with address } := by
  have same : address.setWidth 32 = address := BitVec.setWidth_eq address
  exact congrArg (fun address => { h with address }) same

theorem read_data : Host.bus.read 32 configDataPort { h with address := slot.address offset } =
    (h.registers slot (offset.extractLsb' 2 6), { h with address := slot.address offset }) := by
  have selected := slot_address slot offset
  have place := register_address slot offset
  change (if configDataPort = configDataPort ∧ (slot.address offset).msb = true then _ else _) = _
  rw [if_pos ⟨rfl, msb_address slot offset⟩]
  simp only [selected, place, BitVec.setWidth_eq]

theorem write_data (value : Word) : Host.bus.write 32 configDataPort value { h with address := slot.address offset } =
    { h.store slot (offset.extractLsb' 2 6) value with address := slot.address offset } := by
  have selected := slot_address slot offset
  have place := register_address slot offset
  have apart : configDataPort ≠ configAddressPort := by decide
  change Host.write 32 configDataPort value _ = _
  rw [Host.write, if_neg apart, if_pos ⟨rfl, msb_address slot offset⟩]
  simp only [selected, place, BitVec.setWidth_eq]
  rfl

end Reads

section Writes

variable {width : Nat}

/-- `value` in the place of `width` bits of `data`, as the partial writes form it. -/
def splice (data : Word) (shift : Nat) (value : BitVec width) : Word :=
  data &&& ~~~((BitVec.allOnes width).setWidth 32 <<< shift) ||| value.setWidth 32 <<< shift

theorem splice_bit (data : Word) {shift : Nat} (value : BitVec width) (room : shift + width ≤ 32) {i : Nat} (inside : i < 32) :
    (splice data shift value).getLsbD i =
      if shift ≤ i ∧ i < shift + width then value.getLsbD (i - shift) else data.getLsbD i := by
  simp only [splice, BitVec.getLsbD_or, BitVec.getLsbD_and, BitVec.getLsbD_not, BitVec.getLsbD_shiftLeft,
    BitVec.getLsbD_setWidth, BitVec.getLsbD_allOnes]
  have past : shift + width ≤ i → value.getLsbD (i - shift) = false := fun beyond =>
    BitVec.getLsbD_of_ge _ _ (by omega)
  grind

/-- A register after a write of `value` to its bits from `shift` on. The bits
beside them are written as they were read, so those that a one clears are cleared. -/
structure Written (before after : Host) (slot : Slot) (reg : BitVec 6) (shift : Nat) (value : BitVec width) : Prop where
  plain : ∀ i < 32, (before.plain slot reg).getLsbD i = true → (after.registers slot reg).getLsbD i =
    if shift ≤ i ∧ i < shift + width then value.getLsbD (i - shift) else (before.registers slot reg).getLsbD i
  clears : ∀ i < 32, (before.plain slot reg).getLsbD i = false → (before.clears slot reg).getLsbD i = true →
    (after.registers slot reg).getLsbD i =
      ((before.registers slot reg).getLsbD i && decide (shift ≤ i ∧ i < shift + width) && !value.getLsbD (i - shift))
  fixed : ∀ i < 32, (before.plain slot reg).getLsbD i = false → (before.clears slot reg).getLsbD i = false →
    (after.registers slot reg).getLsbD i = (before.registers slot reg).getLsbD i
  others : ∀ place other, (place, other) ≠ (slot, reg) → after.registers place other = before.registers place other
  masks : after.plain = before.plain ∧ after.clears = before.clears

theorem written_store (h : Host) (slot : Slot) (offset : Byte) (reg : BitVec 6) {shift : Nat} (value : BitVec width)
    (room : shift + width ≤ 32) : Written h { h.store slot reg (splice (h.registers slot reg) shift value) with
      address := slot.address offset } slot reg shift value := by
  have here : (h.store slot reg (splice (h.registers slot reg) shift value)).registers slot reg =
      h.accept slot reg (splice (h.registers slot reg) shift value) := by
    simp [Host.store]
  refine ⟨fun i inside plain => ?_, fun i inside not_plain clears => ?_, fun i inside not_plain not_clears => ?_,
    fun place other apart => ?_, rfl, rfl⟩
  · simp only [here, Host.accept, BitVec.getLsbD_or, BitVec.getLsbD_and, BitVec.getLsbD_not, plain,
      splice_bit _ value room inside]
    simp
  · simp only [here, Host.accept, BitVec.getLsbD_or, BitVec.getLsbD_and, BitVec.getLsbD_not, not_plain, clears,
      splice_bit _ value room inside]
    grind
  · simp only [here, Host.accept, BitVec.getLsbD_or, BitVec.getLsbD_and, BitVec.getLsbD_not, not_plain, not_clears]
    simp [inside]
  · simp only [Host.store]
    by_cases same : place = slot
    · subst same
      have different : other ≠ reg := fun equal => apart (by rw [equal])
      rw [Function.update_self, Function.update_of_ne different]
    · rw [Function.update_of_ne same]

end Writes

section Programs

variable (slot : Slot) (offset : Byte) (h : Host)

theorem run_configReadDword : (configReadDword slot.bus (slot.device.setWidth 8) (slot.function.setWidth 8) offset).run
    Host.bus h = (h.registers slot (offset.extractLsb' 2 6), { h with address := slot.address offset }) := by
  rw [configReadDword, run_bind, run_outl, run_inl, write_address]
  exact read_data slot offset h

theorem run_configReadWord : (configReadWord slot.bus (slot.device.setWidth 8) (slot.function.setWidth 8) offset).run
    Host.bus h = ((h.registers slot (offset.extractLsb' 2 6) >>> ((offset &&& 2).toNat * 8)).setWidth 16,
      { h with address := slot.address offset }) := by
  rw [configReadWord, run_bind, run_outl, write_address, ← Slot.address, run_bind, run_inl, read_data, run_pure]

theorem run_configReadByte : (configReadByte slot.bus (slot.device.setWidth 8) (slot.function.setWidth 8) offset).run
    Host.bus h = ((h.registers slot (offset.extractLsb' 2 6) >>> ((offset &&& 3).toNat * 8)).setWidth 8,
      { h with address := slot.address offset }) := by
  rw [configReadByte, run_bind, run_outl, write_address, ← Slot.address, run_bind, run_inl, read_data, run_pure]

theorem run_configWriteWord (value : BitVec 16) :
    (configWriteWord slot.bus (slot.device.setWidth 8) (slot.function.setWidth 8) offset value).run Host.bus h =
      ((), { h.store slot (offset.extractLsb' 2 6) (splice (h.registers slot (offset.extractLsb' 2 6))
        ((offset &&& 2).toNat * 8) value) with address := slot.address offset }) := by
  rw [configWriteWord, run_bind, run_outl, write_address, ← Slot.address, run_bind, run_inl, read_data, run_outl, write_data]
  rfl

theorem run_configWriteByte (value : Byte) :
    (configWriteByte slot.bus (slot.device.setWidth 8) (slot.function.setWidth 8) offset value).run Host.bus h =
      ((), { h.store slot (offset.extractLsb' 2 6) (splice (h.registers slot (offset.extractLsb' 2 6))
        ((offset &&& 3).toNat * 8) value) with address := slot.address offset }) := by
  rw [configWriteByte, run_bind, run_outl, write_address, ← Slot.address, run_bind, run_inl, read_data, run_outl, write_data]
  rfl

theorem byte_shift : (offset &&& 3).toNat * 8 + 8 ≤ 32 := by
  have bound := offset.isLt
  have low : (offset &&& 3).toNat = offset.toNat % 4 := by
    rw [BitVec.toNat_and]
    exact Nat.and_two_pow_sub_one_eq_mod _ 2
  omega

theorem word_shift : (offset &&& 2).toNat * 8 + 16 ≤ 32 := by
  have le : (offset &&& 2).toNat ≤ 2 := by
    rw [BitVec.toNat_and]
    exact Nat.and_le_right
  omega

/-- A byte, a word at an even offset and a double word at a multiple of four
are written to their own place, together with what a write of the bytes beside
them does. -/
theorem config_writes (byte : Byte) (word : BitVec 16) (dword : Word) :
    Written h ((configWriteByte slot.bus (slot.device.setWidth 8) (slot.function.setWidth 8) offset byte).run Host.bus h).2
      slot (offset.extractLsb' 2 6) ((offset &&& 3).toNat * 8) byte ∧
    Written h ((configWriteWord slot.bus (slot.device.setWidth 8) (slot.function.setWidth 8) offset word).run Host.bus h).2
      slot (offset.extractLsb' 2 6) ((offset &&& 2).toNat * 8) word ∧
    Written h ((configWriteDword slot.bus (slot.device.setWidth 8) (slot.function.setWidth 8) offset dword).run Host.bus h).2
      slot (offset.extractLsb' 2 6) 0 dword := by
  refine ⟨?_, ?_, ?_⟩
  · rw [run_configWriteByte]
    exact written_store h slot offset _ byte (byte_shift offset)
  · rw [run_configWriteWord]
    exact written_store h slot offset _ word (word_shift offset)
  · have whole : splice (h.registers slot (offset.extractLsb' 2 6)) 0 dword = dword := by
      rw [splice, BitVec.setWidth_eq, BitVec.setWidth_eq, BitVec.shiftLeft_zero, BitVec.shiftLeft_zero]
      simp
    have written := written_store h slot offset (offset.extractLsb' 2 6) dword (Nat.le_refl (0 + 32))
    rw [whole] at written
    rw [configWriteDword, run_bind, run_outl, run_outl, write_address, ← Slot.address, write_data]
    exact written

end Programs

/-- The device is at this place. -/
structure PciDevice.At (dev : PciDevice) (slot : Slot) : Prop where
  bus : dev.bus = slot.bus
  device : dev.device = slot.device.setWidth 8
  function : dev.function = slot.function.setWidth 8

/-- Bus mastering is turned on by a write of the command, which writes back the
status beside it: every bit of it that a one clears is lost. -/
theorem enableBusMastering_clears {dev : PciDevice} {slot : Slot} (at_ : dev.At slot) (h : Host) :
    let after := ((enableBusMastering dev).run Host.bus h).2
    (∀ i < 32, (after.registers slot 1).getLsbD i =
      if (h.plain slot 1).getLsbD i then (h.registers slot 1).getLsbD i || decide (i = 2)
      else (h.registers slot 1).getLsbD i && !(h.clears slot 1).getLsbD i) ∧
    ∀ place other, (place, other) ≠ (slot, (1 : BitVec 6)) → after.registers place other = h.registers place other := by
  intro after
  have reg : regCommand.extractLsb' 2 6 = 1 := by decide
  have shift : (regCommand &&& 2).toNat * 8 = 0 := by decide
  obtain ⟨bus, device, function⟩ := at_
  have ran : after = { h.store slot 1 (splice (h.registers slot 1) 0 ((h.registers slot 1).setWidth 16 ||| (4 : BitVec 16))) with
      address := slot.address regCommand } := by
    change ((enableBusMastering dev).run Host.bus h).2 = _
    rw [enableBusMastering, bus, device, function, run_bind, run_configReadWord, run_configWriteWord, reg, shift]
    rfl
  have written := written_store h slot regCommand 1 ((h.registers slot 1).setWidth 16 ||| (4 : BitVec 16)) (show 0 + 16 ≤ 32 by decide)
  rw [← ran] at written
  have value (i : Nat) : ((h.registers slot 1).setWidth 16 ||| (4 : BitVec 16)).getLsbD i =
      (decide (i < 16) && (h.registers slot 1).getLsbD i || decide (i = 2)) := by
    change (_ ||| BitVec.twoPow 16 2).getLsbD i = _
    rw [BitVec.getLsbD_or, BitVec.getLsbD_setWidth, BitVec.getLsbD_twoPow]
    grind
  refine ⟨fun i inside => ?_, written.others⟩
  cases plain : (h.plain slot 1).getLsbD i with
  | true =>
    rw [written.plain i inside plain, Nat.sub_zero, value]
    grind
  | false =>
    cases clears : (h.clears slot 1).getLsbD i with
    | true =>
      rw [written.clears i inside plain clears, Nat.sub_zero, value]
      grind
    | false =>
      rw [written.fixed i inside plain clears]
      simp

/-- A function whose status says that a transfer of its own was aborted. -/
def aborted : Host where
  address := 0
  registers _ _ := 0x20000000
  plain _ _ := 0x00000147
  clears _ _ := 0xF9000000

theorem enableBusMastering_clears_abort :
    let after := ((enableBusMastering ⟨0, 31, 2, 0, 0, 0, 0, 0, 0, 0, 0, []⟩).run Host.bus aborted).2
    (after.registers ⟨0, 31, 2⟩ 1).getLsbD 29 = false ∧ (after.registers ⟨0, 31, 2⟩ 1).getLsbD 2 = true := by
  obtain ⟨bits, _⟩ := enableBusMastering_clears
    (show (⟨0, 31, 2, 0, 0, 0, 0, 0, 0, 0, 0, []⟩ : PciDevice).At ⟨0, 31, 2⟩ from ⟨rfl, rfl, rfl⟩) aborted
  exact ⟨(bits 29 (by decide)).trans (by decide), (bits 2 (by decide)).trans (by decide)⟩

end MexOS.Drivers.Pci
