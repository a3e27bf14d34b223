import MexOS.Machine.Bytes

/-! The drives behind `ata_read_sectors` and `ata_write_sectors`. -/

namespace MexOS.Fs

open MexOS.Machine

/-- `outcome` says for each transfer, by its number, whether it works (`none`)
or after how many sectors it fails. -/
structure Ata where
  present : Byte → Bool
  sectors : Byte → Nat → Bytes
  outcome : Nat → Option Nat
  transfers : Nat

namespace Ata

/-- The drive gets the low 28 bits of a sector number. -/
def sectorOf (lba : Word) : Nat := lba.toNat % 2 ^ 28

def driveExists (ata : Ata) (drive : Byte) : Bool := drive.toNat < 4 && ata.present drive

/-- Count one transfer. -/
def tick (ata : Ata) : Ata := { ata with transfers := ata.transfers + 1 }

/-- `count` sectors of a drive, stored to the beginning of a buffer. -/
def load (ata : Ata) (drive : Byte) (lba : Word) (count : Nat) (buffer : Bytes) : Bytes := fun place =>
  if place < 512 * count then ata.sectors drive (sectorOf lba + place / 512) (place % 512) else buffer place

def store (ata : Ata) (drive : Byte) (lba : Word) (count : Nat) (buffer : Bytes) : Ata :=
  { ata with sectors := fun other sector =>
      if other = drive ∧ sectorOf lba ≤ sector ∧ sector < sectorOf lba + count then
        fun place => buffer (512 * (sector - sectorOf lba) + place)
      else ata.sectors other sector }

def readSectors (ata : Ata) (drive : Byte) (lba : Word) (count : Nat) (buffer : Bytes) : Int × Bytes × Ata :=
  if ¬ ata.driveExists drive then (-1, buffer, ata)
  else if count = 0 then (0, buffer, ata)
  else match ata.outcome ata.transfers with
    | none => (0, ata.load drive lba count buffer, ata.tick)
    | some done => (-1, ata.load drive lba (min done count) buffer, ata.tick)

def writeSectors (ata : Ata) (drive : Byte) (lba : Word) (count : Nat) (buffer : Bytes) : Int × Ata :=
  if ¬ ata.driveExists drive then (-1, ata)
  else if count = 0 then (0, ata)
  else match ata.outcome ata.transfers with
    | none => (0, (ata.store drive lba count buffer).tick)
    | some done => (-1, (ata.store drive lba (min done count) buffer).tick)

/-- The drive is there and every transfer works. -/
structure Working (ata : Ata) (drive : Byte) : Prop where
  driveExists : ata.driveExists drive = true
  works : ∀ transfer, ata.outcome transfer = none

@[simp] theorem tick_sectors (ata : Ata) : ata.tick.sectors = ata.sectors := rfl

namespace Working

variable {ata : Ata} {drive : Byte} {count : Nat}

theorem tick (working : Working ata drive) : Working ata.tick drive := ⟨working.driveExists, working.works⟩

theorem store (working : Working ata drive) (lba : Word) (count : Nat) (buffer : Bytes) :
    Working (ata.store drive lba count buffer) drive := ⟨working.driveExists, working.works⟩

theorem readSectors (working : Working ata drive) (positive : count ≠ 0) (lba : Word) (buffer : Bytes) :
    ata.readSectors drive lba count buffer = (0, ata.load drive lba count buffer, ata.tick) := by
  simp [Ata.readSectors, working.driveExists, positive, working.works]

theorem writeSectors (working : Working ata drive) (positive : count ≠ 0) (lba : Word) (buffer : Bytes) :
    ata.writeSectors drive lba count buffer = (0, (ata.store drive lba count buffer).tick) := by
  simp [Ata.writeSectors, working.driveExists, positive, working.works]

end Working

theorem load_one (ata : Ata) (drive : Byte) (lba : Word) (buffer : Bytes) {place : Nat} (inside : place < 512) :
    ata.load drive lba 1 buffer place = ata.sectors drive (sectorOf lba) place := by
  have first : place / 512 = 0 := Nat.div_eq_of_lt inside
  rw [load, if_pos (by omega), first, Nat.add_zero, Nat.mod_eq_of_lt inside]

theorem store_one_self (ata : Ata) (drive : Byte) (lba : Word) (buffer : Bytes) :
    (ata.store drive lba 1 buffer).sectors drive (sectorOf lba) = buffer := by
  simp [store]

theorem store_outside (ata : Ata) (drive : Byte) (lba : Word) (count : Nat) (buffer : Bytes) {sector : Nat}
    (outside : sector < sectorOf lba ∨ sectorOf lba + count ≤ sector) :
    (ata.store drive lba count buffer).sectors drive sector = ata.sectors drive sector := by
  simp only [store]
  rw [if_neg (by omega)]

theorem store_inside (ata : Ata) (drive : Byte) (lba : Word) (count : Nat) (buffer : Bytes) {sector : Nat}
    (lower : sectorOf lba ≤ sector) (upper : sector < sectorOf lba + count) (place : Nat) :
    (ata.store drive lba count buffer).sectors drive sector place =
      buffer (512 * (sector - sectorOf lba) + place) := by
  simp only [store]
  rw [if_pos ⟨trivial, lower, upper⟩]

/-- How many of `count` sectors a transfer moves. -/
def moved (ata : Ata) (transfer count : Nat) : Nat :=
  match ata.outcome transfer with
  | none => count
  | some done => min done count

/-- Of the transfers to come, `count` work after the first `skip`. -/
def Works (ata : Ata) (skip count : Nat) : Prop := ∀ i < count, ata.outcome (ata.transfers + skip + i) = none

/-- The sectors hold what is in the buffer. -/
def Holds (ata : Ata) (drive : Byte) (lba : Word) (count : Nat) (buffer : Bytes) : Prop :=
  ∀ place < 512 * count, ata.sectors drive (sectorOf lba + place / 512) (place % 512) = buffer place

section Transfers

variable {ata : Ata} {drive : Byte} {count : Nat}

theorem moved_le (ata : Ata) (transfer count : Nat) : ata.moved transfer count ≤ count := by
  unfold moved
  split
  · exact Nat.le_refl _
  · exact Nat.min_le_right _ _

theorem moved_of_works {transfer : Nat} (works : ata.outcome transfer = none) (count : Nat) :
    ata.moved transfer count = count := by
  simp only [moved, works]

/-- A transfer from a drive that is there answers 0 exactly when it works. -/
theorem readSectors_present (present : ata.driveExists drive = true) (positive : count ≠ 0) (lba : Word) (buffer : Bytes) :
    ata.readSectors drive lba count buffer =
      (if ata.outcome ata.transfers = none then 0 else -1, ata.load drive lba (ata.moved ata.transfers count) buffer,
        ata.tick) := by
  rw [readSectors, if_neg (by simp [present]), if_neg positive]
  cases outcome : ata.outcome ata.transfers <;> simp [moved, outcome]

theorem writeSectors_present (present : ata.driveExists drive = true) (positive : count ≠ 0) (lba : Word) (buffer : Bytes) :
    ata.writeSectors drive lba count buffer =
      (if ata.outcome ata.transfers = none then 0 else -1,
        (ata.store drive lba (ata.moved ata.transfers count) buffer).tick) := by
  rw [writeSectors, if_neg (by simp [present]), if_neg positive]
  cases outcome : ata.outcome ata.transfers <;> simp [moved, outcome]

/-- Loading changes nothing in a buffer exactly when the sectors hold it. -/
theorem same_load_iff {room : Nat} (inside : count ≤ room) (lba : Word) (buffer : Bytes) :
    Bytes.Same buffer (ata.load drive lba count buffer) 0 (512 * room) ↔ ata.Holds drive lba count buffer := by
  constructor
  · intro same place bound
    have loaded := same place (Nat.zero_le _) (by omega)
    rw [load, if_pos bound] at loaded
    exact loaded
  · intro holds place _ _
    rw [load]
    split
    · next bound => exact holds place bound
    · rfl

theorem Holds.fewer {lba : Word} {buffer : Bytes} (holds : ata.Holds drive lba count buffer) {fewer : Nat}
    (less : fewer ≤ count) : ata.Holds drive lba fewer buffer := by
  intro place bound
  exact holds place (by omega)

theorem readSectors_sectors (ata : Ata) (drive : Byte) (lba : Word) (count : Nat) (buffer : Bytes) :
    (ata.readSectors drive lba count buffer).2.2.sectors = ata.sectors := by
  unfold readSectors
  split
  · rfl
  · split
    · rfl
    · split <;> rfl

/-- A transfer touches none but its own sectors. -/
theorem writeSectors_outside {lba : Word} {buffer : Bytes} {sector : Nat}
    (outside : sector < sectorOf lba ∨ sectorOf lba + count ≤ sector) :
    (ata.writeSectors drive lba count buffer).2.sectors drive sector = ata.sectors drive sector := by
  unfold writeSectors
  split
  · rfl
  · split
    · rfl
    · split
      · rw [tick_sectors, store_outside _ _ _ _ _ outside]
      · rw [tick_sectors, store_outside _ _ _ _ _ (by omega)]

end Transfers

end Ata

end MexOS.Fs
