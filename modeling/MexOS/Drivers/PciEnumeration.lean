import MexOS.Drivers.PciAccess
import Mathlib.Data.List.Nodup

/-! The list that `pci_init` makes, against the functions that are there. -/

namespace MexOS.Drivers.Pci

open MexOS.Machine PortProgram

abbrev Space := Slot → BitVec 6 → Word

section Functions

variable (space : Space) (slot : Slot)

def vendorOf : BitVec 16 := (space slot 0).setWidth 16

/-- A function answers with the number of its vendor. -/
def present : Bool := vendorOf space slot != vendorInvalid

theorem absent_iff : present space slot = false ↔ vendorOf space slot = vendorInvalid := by
  simp [present]

def headerOf : Byte := (space slot 3 >>> 16).setWidth 8

/-- The device says it has more functions than one. -/
def several : Bool := headerOf space ⟨slot.bus, slot.device, 0⟩ &&& 0x80 != 0

def describe : PciDevice where
  bus := slot.bus
  device := slot.device.setWidth 8
  function := slot.function.setWidth 8
  vendorId := vendorOf space slot
  deviceId := (space slot 0 >>> 16).setWidth 16
  classCode := (space slot 2 >>> 24).setWidth 8
  subclass := (space slot 2 >>> 16).setWidth 8
  progIf := (space slot 2 >>> 8).setWidth 8
  revision := (space slot 2).setWidth 8
  interruptLine := (space slot 15).setWidth 8
  interruptPin := (space slot 15 >>> 8).setWidth 8
  bar := [space slot 4, space slot 5, space slot 6, space slot 7, space slot 8, space slot 9]

/-- What `pci_check_function` does to the list. -/
def Devices.add (kmalloc : Nat → Bool) (found : Devices) : Devices :=
  if present space slot = false then found
  else if kmalloc found.allocations = false then { found with allocations := found.allocations + 1 }
  else { list := describe space slot :: found.list, allocations := found.allocations + 1 }

/-- The functions of a device that are asked for their vendor. -/
def functionsOf (bus : Byte) (device : Nat) : List Slot :=
  if present space ⟨bus, BitVec.ofNat 5 device, 0⟩ = false then []
  else if several space ⟨bus, BitVec.ofNat 5 device, 0⟩ then
    (List.range maxFunction).map fun function => ⟨bus, BitVec.ofNat 5 device, BitVec.ofNat 3 function⟩
  else [⟨bus, BitVec.ofNat 5 device, 0⟩]

/-- The buses that are looked through. -/
def busesOf : List Byte :=
  if several space ⟨0, 0, 0⟩ then
    ((List.range maxFunction).filter fun function => present space ⟨0, 0, BitVec.ofNat 3 function⟩).map (BitVec.ofNat 8)
  else [0]

def candidates : List Slot :=
  (busesOf space).flatMap fun bus => (List.range maxDevice).flatMap fun device => functionsOf space bus device

end Functions

section Programs

theorem looks_configReadWord (slot : Slot) (offset : Byte) :
    Looks Host.bus Host.registers (configReadWord slot.bus (slot.device.setWidth 8) (slot.function.setWidth 8) offset)
      fun space => (space slot (offset.extractLsb' 2 6) >>> ((offset &&& 2).toNat * 8)).setWidth 16 := by
  intro h
  rw [run_configReadWord]
  exact ⟨rfl, rfl⟩

theorem looks_configReadByte (slot : Slot) (offset : Byte) :
    Looks Host.bus Host.registers (configReadByte slot.bus (slot.device.setWidth 8) (slot.function.setWidth 8) offset)
      fun space => (space slot (offset.extractLsb' 2 6) >>> ((offset &&& 3).toNat * 8)).setWidth 8 := by
  intro h
  rw [run_configReadByte]
  exact ⟨rfl, rfl⟩

theorem looks_configReadDword (slot : Slot) (offset : Byte) :
    Looks Host.bus Host.registers (configReadDword slot.bus (slot.device.setWidth 8) (slot.function.setWidth 8) offset)
      fun space => space slot (offset.extractLsb' 2 6) := by
  intro h
  rw [run_configReadDword]
  exact ⟨rfl, rfl⟩

theorem looks_vendor (slot : Slot) : Looks Host.bus Host.registers
    (configReadWord slot.bus (slot.device.setWidth 8) (slot.function.setWidth 8) regVendorId) fun space => vendorOf space slot :=
  looks_configReadWord slot regVendorId

theorem looks_readBars (slot : Slot) (list : List Nat) : Looks Host.bus Host.registers
    (readBars slot.bus (slot.device.setWidth 8) (slot.function.setWidth 8) list)
      fun space => list.map fun i => space slot ((regBar0 + BitVec.ofNat 8 (i * 4)).extractLsb' 2 6) := by
  induction list with
  | nil => exact Looks.pure []
  | cons i rest ih =>
    exact (looks_configReadDword slot _).bind fun bar => ih.bind fun bars => Looks.pure (bar :: bars)

theorem looks_checkFunction (kmalloc : Nat → Bool) (slot : Slot) (found : Devices) :
    Looks Host.bus Host.registers (checkFunction kmalloc slot.bus (slot.device.setWidth 8) (slot.function.setWidth 8) found)
      fun space => found.add space slot kmalloc := by
  have fields (vendorId : BitVec 16) := (looks_configReadWord slot regDeviceId).bind fun deviceId =>
    (looks_configReadByte slot regClass).bind fun classCode => (looks_configReadByte slot regSubclass).bind fun subclass =>
    (looks_configReadByte slot regProgIf).bind fun progIf => (looks_configReadByte slot regRevision).bind fun revision =>
    (looks_configReadByte slot regInterruptLine).bind fun interruptLine =>
    (looks_configReadByte slot regInterruptPin).bind fun interruptPin =>
    (looks_readBars slot (List.range 6)).bind fun bar => @Looks.pure _ _ _ Host.bus Host.registers
      (Devices.mk (PciDevice.mk slot.bus (slot.device.setWidth 8) (slot.function.setWidth 8) vendorId deviceId classCode subclass
        progIf revision interruptLine interruptPin bar :: found.list) (found.allocations + 1))
  have whole := (looks_vendor slot).bind fun vendorId => Looks.ite (vendorId = vendorInvalid) (Looks.pure found) <|
    Looks.ite (kmalloc found.allocations = false) (Looks.pure { found with allocations := found.allocations + 1 }) (fields vendorId)
  intro h
  obtain ⟨value, same⟩ := whole h
  refine ⟨value.trans ?_, same⟩
  by_cases absent : vendorOf h.registers slot = vendorInvalid
  · exact (if_pos absent).trans (if_pos ((absent_iff ..).mpr absent)).symm
  · exact (if_neg absent).trans (if_neg (mt (absent_iff ..).mp absent)).symm

theorem deviceByte {device : Nat} (small : device < 32) : (BitVec.ofNat 5 device).setWidth 8 = BitVec.ofNat 8 device := by
  revert device
  decide

theorem functionByte {function : Nat} (small : function < 8) :
    (BitVec.ofNat 3 function).setWidth 8 = BitVec.ofNat 8 function := by
  revert function
  decide

theorem looks_checkDevice (kmalloc : Nat → Bool) (bus : Byte) {device : Nat} (small : device < 32) (found : Devices) :
    Looks Host.bus Host.registers (checkDevice kmalloc bus (BitVec.ofNat 8 device) found)
      fun space => (functionsOf space bus device).foldl (fun found slot => found.add space slot kmalloc) found := by
  have one (function : Nat) (inside : function < 8) (found : Devices) :
      Looks Host.bus Host.registers (do
        let vendorId ← configReadWord bus (BitVec.ofNat 8 device) (BitVec.ofNat 8 function) regVendorId
        if vendorId ≠ vendorInvalid then checkFunction kmalloc bus (BitVec.ofNat 8 device) (BitVec.ofNat 8 function) found
        else pure found) fun space => found.add space ⟨bus, BitVec.ofNat 5 device, BitVec.ofNat 3 function⟩ kmalloc := by
    rw [← deviceByte small, ← functionByte inside]
    have whole := (looks_vendor ⟨bus, BitVec.ofNat 5 device, BitVec.ofNat 3 function⟩).bind fun vendorId =>
      Looks.ite (vendorId ≠ vendorInvalid)
        (looks_checkFunction kmalloc ⟨bus, BitVec.ofNat 5 device, BitVec.ofNat 3 function⟩ found) (Looks.pure found)
    refine whole.congr fun space => ?_
    by_cases there : vendorOf space ⟨bus, BitVec.ofNat 5 device, BitVec.ofNat 3 function⟩ ≠ vendorInvalid
    · exact if_pos there
    · exact (if_neg there).trans (if_pos ((absent_iff ..).mpr (not_not.mp there))).symm
  have first : Looks Host.bus Host.registers (configReadWord bus (BitVec.ofNat 8 device) 0 regVendorId)
      fun space => vendorOf space ⟨bus, BitVec.ofNat 5 device, 0⟩ := by
    rw [← deviceByte small]
    exact looks_vendor ⟨bus, BitVec.ofNat 5 device, 0⟩
  have zeroth (found : Devices) : Looks Host.bus Host.registers (checkFunction kmalloc bus (BitVec.ofNat 8 device) 0 found)
      fun space => found.add space ⟨bus, BitVec.ofNat 5 device, 0⟩ kmalloc := by
    rw [← deviceByte small]
    exact looks_checkFunction kmalloc ⟨bus, BitVec.ofNat 5 device, 0⟩ found
  have header : Looks Host.bus Host.registers (configReadByte bus (BitVec.ofNat 8 device) 0 regHeaderType)
      fun space => headerOf space ⟨bus, BitVec.ofNat 5 device, 0⟩ := by
    rw [← deviceByte small]
    exact looks_configReadByte ⟨bus, BitVec.ofNat 5 device, 0⟩ regHeaderType
  have loop := Looks.foldlM (List.range' 1 (maxFunction - 1)) fun found function member =>
    one function (List.mem_range'_1.mp member).2 found
  have whole := first.bind fun vendorId => Looks.ite (vendorId = vendorInvalid) (Looks.pure found) <|
    (zeroth found).bind fun found => header.bind fun headerType => Looks.ite (headerType &&& 0x80 ≠ 0) (loop found) (Looks.pure found)
  refine whole.congr fun space => ?_
  by_cases absent : vendorOf space ⟨bus, BitVec.ofNat 5 device, 0⟩ = vendorInvalid
  · rw [functionsOf, if_pos ((absent_iff ..).mpr absent)]
    exact if_pos absent
  · rw [functionsOf, if_neg (mt (absent_iff ..).mp absent)]
    refine (if_neg absent).trans ?_
    by_cases more : headerOf space ⟨bus, BitVec.ofNat 5 device, 0⟩ &&& 0x80 ≠ 0
    · have several_ : several space ⟨bus, BitVec.ofNat 5 device, 0⟩ = true := bne_iff_ne.mpr more
      have all : List.range maxFunction = 0 :: List.range' 1 (maxFunction - 1) := rfl
      rw [if_pos several_, List.foldl_map, all]
      exact if_pos more
    · have one_ : ¬ several space ⟨bus, BitVec.ofNat 5 device, 0⟩ = true := fun several_ => more (bne_iff_ne.mp several_)
      rw [if_neg one_]
      exact if_neg more

theorem looks_checkBus (kmalloc : Nat → Bool) (bus : Byte) (found : Devices) :
    Looks Host.bus Host.registers (checkBus kmalloc bus found) fun space =>
      ((List.range maxDevice).flatMap fun device => functionsOf space bus device).foldl
        (fun found slot => found.add space slot kmalloc) found := by
  have loop := Looks.foldlM (List.range maxDevice) fun found device member =>
    looks_checkDevice kmalloc bus (List.mem_range.mp member) found
  exact (loop found).congr fun space => (List.foldl_flatMap ..).symm

theorem flatMap_filter (list : List α) (keep : α → Bool) (f : α → List β) :
    (list.filter keep).flatMap f = list.flatMap fun a => if keep a then f a else [] := by
  induction list with
  | nil => rfl
  | cons a rest ih =>
    cases kept : keep a <;> simp [kept, ih]

theorem looks_init (kmalloc : Nat → Bool) : Looks Host.bus Host.registers (init kmalloc) fun space =>
    (candidates space).foldl (fun found slot => found.add space slot kmalloc) ⟨[], 0⟩ := by
  have one (function : Nat) (inside : function < 8) (found : Devices) :
      Looks Host.bus Host.registers (do
        let vendorId ← configReadWord 0 0 (BitVec.ofNat 8 function) regVendorId
        if vendorId ≠ vendorInvalid then checkBus kmalloc (BitVec.ofNat 8 function) found else pure found)
      fun space => (if present space ⟨0, 0, BitVec.ofNat 3 function⟩ then
        (List.range maxDevice).flatMap fun device => functionsOf space (BitVec.ofNat 8 function) device else []).foldl
          (fun found slot => found.add space slot kmalloc) found := by
    have vendor := looks_vendor ⟨0, 0, BitVec.ofNat 3 function⟩
    rw [functionByte inside] at vendor
    have whole := vendor.bind fun vendorId => Looks.ite (vendorId ≠ vendorInvalid)
      (looks_checkBus kmalloc (BitVec.ofNat 8 function) found) (Looks.pure found)
    refine whole.congr fun space => ?_
    by_cases there : vendorOf space ⟨0, 0, BitVec.ofNat 3 function⟩ ≠ vendorInvalid
    · have some_ : present space ⟨0, 0, BitVec.ofNat 3 function⟩ = true := bne_iff_ne.mpr there
      rw [if_pos some_]
      exact if_pos there
    · have none_ : ¬ present space ⟨0, 0, BitVec.ofNat 3 function⟩ = true := fun some_ => there (bne_iff_ne.mp some_)
      rw [if_neg none_]
      exact if_neg there
  have header : Looks Host.bus Host.registers (configReadByte 0 0 0 regHeaderType) fun space => headerOf space ⟨0, 0, 0⟩ :=
    looks_configReadByte ⟨0, 0, 0⟩ regHeaderType
  have loop := Looks.foldlM (List.range maxFunction) fun found function member =>
    one function (List.mem_range.mp member) found
  have whole := header.bind fun headerType =>
    Looks.ite (headerType &&& 0x80 = 0) (looks_checkBus kmalloc 0 ⟨[], 0⟩) (loop ⟨[], 0⟩)
  refine whole.congr fun space => ?_
  by_cases single : headerOf space ⟨0, 0, 0⟩ &&& 0x80 = 0
  · have one_ : ¬ several space ⟨0, 0, 0⟩ = true := fun several_ => bne_iff_ne.mp several_ single
    rw [candidates, busesOf, if_neg one_, List.flatMap_singleton]
    exact if_pos single
  · have several_ : several space ⟨0, 0, 0⟩ = true := bne_iff_ne.mpr single
    rw [candidates, busesOf, if_pos several_]
    refine (if_neg single).trans ?_
    rw [List.flatMap_map, flatMap_filter, List.foldl_flatMap]

end Programs

section Order

variable (space : Space)

/-- The place of a function in the order of the search. -/
def Slot.key (slot : Slot) : Nat := slot.bus.toNat * 256 + slot.device.toNat * 8 + slot.function.toNat

theorem Slot.key_injective : Function.Injective Slot.key := by
  rintro ⟨bus, device, function⟩ ⟨bus', device', function'⟩ same
  have bounds := And.intro device.isLt device'.isLt
  have bounds' := And.intro function.isLt function'.isLt
  simp only [key] at same
  obtain ⟨buses, devices, functions⟩ : bus.toNat = bus'.toNat ∧ device.toNat = device'.toNat ∧ function.toNat = function'.toNat := by
    omega
  rw [BitVec.eq_of_toNat_eq buses, BitVec.eq_of_toNat_eq devices, BitVec.eq_of_toNat_eq functions]

/-- The bus is looked through. -/
def Scanned (bus : Byte) : Prop :=
  if several space ⟨0, 0, 0⟩ then bus.toNat < 8 ∧ present space ⟨0, 0, bus.setWidth 3⟩ = true else bus = 0

/-- The function is one that the search can find: it is there, its bus is looked
through, and it is the first of its device or a device of several. -/
structure Findable (slot : Slot) : Prop where
  scanned : Scanned space slot.bus
  device : present space ⟨slot.bus, slot.device, 0⟩ = true
  several : slot.function ≠ 0 → several space slot = true
  present : present space slot = true

theorem mem_busesOf {bus : Byte} : bus ∈ busesOf space ↔ Scanned space bus := by
  rw [busesOf, Scanned]
  split
  · simp only [List.mem_map, List.mem_filter, List.mem_range]
    constructor
    · rintro ⟨function, ⟨small, there⟩, rfl⟩
      have small : function < 8 := small
      have low : (BitVec.ofNat 8 function).setWidth 3 = BitVec.ofNat 3 function := by
        clear there
        revert small function
        decide
      have value : (BitVec.ofNat 8 function).toNat = function := Nat.mod_eq_of_lt (by omega)
      rw [low, value]
      exact ⟨small, there⟩
    · rintro ⟨small, there⟩
      have low : BitVec.ofNat 3 bus.toNat = bus.setWidth 3 := by
        apply BitVec.eq_of_toNat_eq
        simp
      exact ⟨bus.toNat, ⟨small, by rw [low]; exact there⟩, by simp⟩
  · exact List.mem_singleton

theorem mem_functionsOf {bus : Byte} {device : Nat} {slot : Slot} : slot ∈ functionsOf space bus device ↔
    slot.bus = bus ∧ slot.device = BitVec.ofNat 5 device ∧ present space ⟨slot.bus, slot.device, 0⟩ = true ∧
      (slot.function ≠ 0 → several space slot = true) := by
  obtain ⟨bus', device', function⟩ := slot
  rw [functionsOf]
  cases there : present space ⟨bus, BitVec.ofNat 5 device, 0⟩ with
  | false =>
    rw [if_pos rfl]
    refine iff_of_false List.not_mem_nil ?_
    rintro ⟨rfl, rfl, found, _⟩
    rw [there] at found
    cases found
  | true =>
    rw [if_neg (by decide)]
    split
    · next more =>
      rw [List.mem_map]
      constructor
      · rintro ⟨number, _, same⟩
        obtain ⟨rfl, rfl, rfl⟩ := Slot.mk.inj same
        exact ⟨rfl, rfl, there, fun _ => more⟩
      · rintro ⟨rfl, rfl, _, _⟩
        exact ⟨function.toNat, List.mem_range.mpr function.isLt, by simp⟩
    · next single =>
      rw [List.mem_singleton]
      constructor
      · rintro ⟨rfl, rfl, rfl⟩
        exact ⟨rfl, rfl, there, fun other => absurd rfl other⟩
      · rintro ⟨rfl, rfl, _, more⟩
        have zero : function = 0 := Decidable.byContradiction fun other => single (more other)
        rw [zero]

theorem mem_candidates {slot : Slot} : slot ∈ candidates space ↔ Scanned space slot.bus ∧
    present space ⟨slot.bus, slot.device, 0⟩ = true ∧ (slot.function ≠ 0 → several space slot = true) := by
  simp only [candidates, List.mem_flatMap, List.mem_range, mem_functionsOf, mem_busesOf]
  constructor
  · rintro ⟨bus, scanned, device, _, rfl, _, rest⟩
    exact ⟨scanned, rest⟩
  · rintro ⟨scanned, rest⟩
    exact ⟨slot.bus, scanned, slot.device.toNat, slot.device.isLt, rfl, by simp, rest⟩

theorem functionsOf_ascend (bus : Byte) (device : Nat) : (functionsOf space bus device).Pairwise fun a b => a.key < b.key := by
  rw [functionsOf]
  split
  · exact List.Pairwise.nil
  · split
    · refine List.pairwise_map.mpr (List.pairwise_lt_range.imp_of_mem fun {a b} left right less => ?_)
      have small : a < 8 ∧ b < 8 := ⟨List.mem_range.mp left, List.mem_range.mp right⟩
      have low : (BitVec.ofNat 3 a).toNat = a ∧ (BitVec.ofNat 3 b).toNat = b :=
        ⟨Nat.mod_eq_of_lt small.1, Nat.mod_eq_of_lt small.2⟩
      simp only [Slot.key, low]
      omega
    · exact List.pairwise_singleton ..

theorem busesOf_ascend : (busesOf space).Pairwise fun a b => a.toNat < b.toNat := by
  rw [busesOf]
  split
  · refine List.pairwise_map.mpr ((List.pairwise_lt_range.filter _).imp_of_mem fun {a b} left right less => ?_)
    have small : a < 8 ∧ b < 8 := ⟨List.mem_range.mp (List.mem_filter.mp left).1, List.mem_range.mp (List.mem_filter.mp right).1⟩
    have low : (BitVec.ofNat 8 a).toNat = a ∧ (BitVec.ofNat 8 b).toNat = b :=
      ⟨Nat.mod_eq_of_lt (by omega), Nat.mod_eq_of_lt (by omega)⟩
    rw [low.1, low.2]
    exact less
  · exact List.pairwise_singleton ..

/-- The search goes up through buses, devices and functions. -/
theorem candidates_ascend : (candidates space).Pairwise fun a b => a.key < b.key := by
  refine List.pairwise_flatMap.mpr ⟨fun bus _ => List.pairwise_flatMap.mpr ⟨fun device _ => functionsOf_ascend space bus device, ?_⟩, ?_⟩
  · refine List.pairwise_lt_range.imp_of_mem fun {a b} left right less x inA y inB => ?_
    obtain ⟨busX, deviceX, _⟩ := (mem_functionsOf space).mp inA
    obtain ⟨busY, deviceY, _⟩ := (mem_functionsOf space).mp inB
    have small : a < 32 ∧ b < 32 := ⟨List.mem_range.mp left, List.mem_range.mp right⟩
    have low : x.device.toNat = a ∧ y.device.toNat = b := by
      rw [deviceX, deviceY]
      exact ⟨Nat.mod_eq_of_lt small.1, Nat.mod_eq_of_lt small.2⟩
    have bounds := And.intro x.function.isLt y.function.isLt
    simp only [Slot.key, busX, busY, low]
    omega
  · refine (busesOf_ascend space).imp fun {a b} less x inA y inB => ?_
    obtain ⟨_, _, inDevice⟩ := List.mem_flatMap.mp inA
    obtain ⟨_, _, inOther⟩ := List.mem_flatMap.mp inB
    have buses := And.intro ((mem_functionsOf space).mp inDevice).1 ((mem_functionsOf space).mp inOther).1
    have bounds := And.intro x.function.isLt x.device.isLt
    simp only [Slot.key, buses]
    omega

/-- The functions that are found, in the order of the search. -/
def found : List Slot := (candidates space).filter fun slot => present space slot

theorem mem_found {slot : Slot} : slot ∈ found space ↔ Findable space slot := by
  rw [found, List.mem_filter, mem_candidates]
  constructor
  · rintro ⟨⟨scanned, device, several_⟩, there⟩
    exact ⟨scanned, device, several_, there⟩
  · rintro ⟨scanned, device, several_, there⟩
    exact ⟨⟨scanned, device, several_⟩, there⟩

theorem found_ascend : (found space).Pairwise fun a b => a.key < b.key := (candidates_ascend space).filter _

/-- The request for the `n`th function that is found is the `n`th. -/
theorem foldl_add (kmalloc : Nat → Bool) (slots : List Slot) (start : Devices) :
    slots.foldl (fun devices slot => devices.add space slot kmalloc) start =
      { list := (((slots.filter fun slot => present space slot).zipIdx start.allocations).filter fun entry => kmalloc entry.2).reverse.map
          (fun entry => describe space entry.1) ++ start.list
        allocations := start.allocations + (slots.filter fun slot => present space slot).length } := by
  induction slots generalizing start with
  | nil => rfl
  | cons slot rest ih =>
    rw [List.foldl_cons, ih]
    cases there : present space slot with
    | false =>
      have same : start.add space slot kmalloc = start := if_pos there
      rw [same, List.filter_cons_of_neg (by rw [there]; decide)]
    | true =>
      rw [List.filter_cons_of_pos there, List.zipIdx_cons, List.length_cons]
      cases met : kmalloc start.allocations with
      | false =>
        have dropped : start.add space slot kmalloc = { start with allocations := start.allocations + 1 } := by
          rw [Devices.add, there, if_neg (by decide), if_pos met]
        rw [dropped, List.filter_cons_of_neg (by rw [met]; decide)]
        simp only [Nat.add_assoc, Nat.add_comm 1]
      | true =>
        have kept : start.add space slot kmalloc =
            { list := describe space slot :: start.list, allocations := start.allocations + 1 } := by
          rw [Devices.add, there, if_neg (by decide), if_neg (by rw [met]; decide)]
        have first := List.filter_cons_of_pos (p := fun entry : Slot × Nat => kmalloc entry.2) (a := (slot, start.allocations))
          (l := (rest.filter fun slot => present space slot).zipIdx (start.allocations + 1)) met
        rw [kept, first, List.reverse_cons, List.map_append]
        simp only [List.append_assoc, Nat.add_assoc, Nat.add_comm 1]
        rfl

end Order

section Lists

variable (kmalloc : Nat → Bool) (h : Host)

theorem run_init : ((init kmalloc).run Host.bus h).1 =
    { list := ((found h.registers).zipIdx.filter fun entry => kmalloc entry.2).reverse.map fun entry => describe h.registers entry.1
      allocations := (found h.registers).length } := by
  refine (looks_init kmalloc h).1.trans ((foldl_add ..).trans ?_)
  rw [List.append_nil, Nat.zero_add]
  rfl

/-- The list of `pci_init`: the functions that can be found, each once, the last
one of the search first; those without memory are left out. -/
theorem init_finds : ∃ slots : List Slot, slots.Pairwise (fun a b => a.key < b.key) ∧
    (∀ slot, slot ∈ slots ↔ Findable h.registers slot) ∧
    ((init kmalloc).run Host.bus h).1.allocations = slots.length ∧
    ((init kmalloc).run Host.bus h).1.list =
      (slots.zipIdx.filter fun entry => kmalloc entry.2).reverse.map (fun entry => describe h.registers entry.1) ∧
    ((init kmalloc).run Host.bus h).2.registers = h.registers := by
  refine ⟨found h.registers, found_ascend _, fun slot => mem_found _, ?_, ?_, (looks_init kmalloc h).2⟩
  · rw [run_init]
  · rw [run_init]

def PciDevice.key (dev : PciDevice) : Nat := dev.bus.toNat * 256 + dev.device.toNat * 8 + dev.function.toNat

theorem key_describe (space : Space) (slot : Slot) : (describe space slot).key = slot.key := by
  have device : (slot.device.setWidth 8).toNat = slot.device.toNat := by
    rw [BitVec.toNat_setWidth]
    exact Nat.mod_eq_of_lt (Nat.lt_of_lt_of_le slot.device.isLt (by decide))
  have function : (slot.function.setWidth 8).toNat = slot.function.toNat := by
    rw [BitVec.toNat_setWidth]
    exact Nat.mod_eq_of_lt (Nat.lt_of_lt_of_le slot.function.isLt (by decide))
  simp only [PciDevice.key, Slot.key, describe, device, function]

/-- In a list that goes down the first match is the greatest. -/
theorem findDevice_iff (matching : PciDevice → Bool) {list : List PciDevice} (down : list.Pairwise fun a b => b.key < a.key)
    (dev : PciDevice) : findDevice matching list = some dev ↔
      dev ∈ list ∧ matching dev = true ∧ ∀ other ∈ list, matching other = true → other.key ≤ dev.key := by
  induction list with
  | nil => exact iff_of_false (by rintro ⟨⟩) fun ⟨member, _⟩ => List.not_mem_nil member
  | cons first rest ih =>
    obtain ⟨below, later⟩ := List.pairwise_cons.mp down
    rw [findDevice]
    by_cases here : matching first = true
    · rw [if_pos here, Option.some.injEq]
      constructor
      · rintro rfl
        refine ⟨List.mem_cons_self .., here, fun other member _ => ?_⟩
        rcases List.mem_cons.mp member with rfl | member
        · exact Nat.le_refl _
        · exact Nat.le_of_lt (below other member)
      · rintro ⟨member, _, greatest⟩
        rcases List.mem_cons.mp member with rfl | member
        · rfl
        · have less := below dev member
          have le := greatest first (List.mem_cons_self ..) here
          omega
    · rw [if_neg here, ih later]
      constructor
      · rintro ⟨member, matches_, greatest⟩
        refine ⟨List.mem_cons_of_mem _ member, matches_, fun other inside matched => ?_⟩
        rcases List.mem_cons.mp inside with rfl | inside
        · exact absurd matched here
        · exact greatest other inside matched
      · rintro ⟨member, matches_, greatest⟩
        rcases List.mem_cons.mp member with rfl | member
        · exact absurd matches_ here
        · exact ⟨member, matches_, fun other inside => greatest other (List.mem_cons_of_mem _ inside)⟩

theorem init_descends : ((init kmalloc).run Host.bus h).1.list.Pairwise fun a b => b.key < a.key := by
  rw [run_init, List.pairwise_map, List.pairwise_reverse]
  simp only [key_describe]
  have ascend : ((found h.registers).zipIdx 0).Pairwise fun a b => a.1.key < b.1.key := by
    rw [← List.pairwise_map (R := fun a b : Slot => a.key < b.key), List.zipIdx_map_fst]
    exact found_ascend h.registers
  exact ascend.filter _

/-- Both searches return the match that comes last by bus, device and function. -/
theorem find_greatest (classCode subclass : Byte) (vendorId deviceId : BitVec 16) (dev : PciDevice) :
    let list := ((init kmalloc).run Host.bus h).1.list
    (findDeviceByClass list classCode subclass = some dev ↔ dev ∈ list ∧ (dev.classCode = classCode ∧ dev.subclass = subclass) ∧
      ∀ other ∈ list, other.classCode = classCode ∧ other.subclass = subclass → other.key ≤ dev.key) ∧
    (findDeviceById list vendorId deviceId = some dev ↔ dev ∈ list ∧ (dev.vendorId = vendorId ∧ dev.deviceId = deviceId) ∧
      ∀ other ∈ list, other.vendorId = vendorId ∧ other.deviceId = deviceId → other.key ≤ dev.key) := by
  have down := init_descends kmalloc h
  constructor
  · rw [findDeviceByClass, findDevice_iff _ down]
    simp only [Bool.and_eq_true, decide_eq_true_eq]
  · rw [findDeviceById, findDevice_iff _ down]
    simp only [Bool.and_eq_true, decide_eq_true_eq]

end Lists

end MexOS.Drivers.Pci
