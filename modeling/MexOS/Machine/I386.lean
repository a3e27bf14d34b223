import MexOS.Machine.Memory

/-! The part of the i386 instruction set that hand-written kernel assembly
needs: moves, the stack, the flags image, one conditional jump and `ret`. -/

namespace MexOS.Machine

inductive Reg where
  | eax | ecx | edx | ebx | esp | ebp | esi | edi
  deriving DecidableEq, Repr

structure Cpu where
  reg : Reg → Word
  eflags : Word
  mem : Memory

namespace Cpu

def set (cpu : Cpu) (target : Reg) (value : Word) : Cpu :=
  { cpu with reg := Function.update cpu.reg target value }

@[simp] theorem reg_set (cpu : Cpu) (target source : Reg) (value : Word) :
    (cpu.set target value).reg source = if source = target then value else cpu.reg source := by
  simp only [set, Function.update_apply]

@[simp] theorem mem_set (cpu : Cpu) (target : Reg) (value : Word) :
    (cpu.set target value).mem = cpu.mem := rfl

@[simp] theorem eflags_set (cpu : Cpu) (target : Reg) (value : Word) :
    (cpu.set target value).eflags = cpu.eflags := rfl

def store (cpu : Cpu) (address value : Word) : Cpu :=
  { cpu with mem := storeWord cpu.mem address value }

@[simp] theorem reg_store (cpu : Cpu) (address value : Word) :
    (cpu.store address value).reg = cpu.reg := rfl

@[simp] theorem mem_store (cpu : Cpu) (address value : Word) :
    (cpu.store address value).mem = storeWord cpu.mem address value := rfl

@[simp] theorem eflags_store (cpu : Cpu) (address value : Word) :
    (cpu.store address value).eflags = cpu.eflags := rfl

def load (cpu : Cpu) (address : Word) : Word := loadWord cpu.mem address

/-- Decrement the stack pointer, then store. -/
def push (cpu : Cpu) (value : Word) : Cpu :=
  (cpu.set .esp (cpu.reg .esp - 4)).store (cpu.reg .esp - 4) value

/-- The word on top of the stack and the machine without it. -/
def pop (cpu : Cpu) : Word × Cpu := (cpu.load (cpu.reg .esp), cpu.set .esp (cpu.reg .esp + 4))

def carryFlag : Word := 0x001
def parityFlag : Word := 0x004
def zeroFlag : Word := 0x040
def signFlag : Word := 0x080
def overflowFlag : Word := 0x800

/-- Flags after a logical operation: carry and overflow are cleared, parity
looks at the low byte only. -/
def logicFlags (eflags value : Word) : Word :=
  let cleared := eflags &&& ~~~(carryFlag ||| parityFlag ||| zeroFlag ||| signFlag ||| overflowFlag)
  let parity := (List.range 8).foldl (fun even bit => even != value.getLsbD bit) true
  cleared ||| (if parity then parityFlag else 0) ||| (if value = 0 then zeroFlag else 0) |||
    (if value.msb then signFlag else 0)

end Cpu

inductive Instr where
  | movRegReg (source target : Reg)
  | movLoad (displacement : Word) (base target : Reg)
  | movStore (source : Reg) (displacement : Word) (base : Reg)
  | pushReg (source : Reg)
  | pushMem (displacement : Word) (base : Reg)
  | popReg (target : Reg)
  | popMem (displacement : Word) (base : Reg)
  | pushf
  | popf
  | testReg (first second : Reg)
  | jz (target : Nat)
  | ret
  deriving DecidableEq, Repr

inductive Control where
  | next
  | jump (target : Nat)
  | leave (eip : Word)

def Instr.exec (cpu : Cpu) : Instr → Cpu × Control
  | movRegReg source target => (cpu.set target (cpu.reg source), .next)
  | movLoad displacement base target =>
    (cpu.set target (cpu.load (cpu.reg base + displacement)), .next)
  | movStore source displacement base =>
    (cpu.store (cpu.reg base + displacement) (cpu.reg source), .next)
  | pushReg source => (cpu.push (cpu.reg source), .next)
  | pushMem displacement base => (cpu.push (cpu.load (cpu.reg base + displacement)), .next)
  | popReg target =>
    let (value, popped) := cpu.pop
    (popped.set target value, .next)
  | popMem displacement base =>
    let (value, popped) := cpu.pop
    (popped.store (popped.reg base + displacement) value, .next)
  | pushf => (cpu.push cpu.eflags, .next)
  | popf =>
    let (value, popped) := cpu.pop
    ({ popped with eflags := value }, .next)
  | testReg first second =>
    ({ cpu with eflags := Cpu.logicFlags cpu.eflags (cpu.reg first &&& cpu.reg second) }, .next)
  | jz target =>
    if cpu.eflags &&& Cpu.zeroFlag = 0 then (cpu, .next) else (cpu, .jump target)
  | ret =>
    let (value, popped) := cpu.pop
    (popped, .leave value)

/-- Run a procedure from an instruction index until it returns, giving the
machine and the address execution continues at. -/
def runFrom (code : List Instr) : Nat → Nat → Cpu → Option (Cpu × Word)
  | 0, _, _ => none
  | fuel + 1, pc, cpu =>
    match code[pc]? with
    | none => none
    | some instr =>
      match instr.exec cpu with
      | (after, .next) => runFrom code fuel (pc + 1) after
      | (after, .jump target) => runFrom code fuel target after
      | (after, .leave eip) => some (after, eip)

/-- Without backward jumps every instruction runs at most once. -/
def runProcedure (code : List Instr) (cpu : Cpu) : Option (Cpu × Word) :=
  runFrom code code.length 0 cpu

/-- Instructions that always fall through to the next one. -/
def Instr.straight : Instr → Bool
  | jz _ | ret => false
  | _ => true

def execBlock (cpu : Cpu) : List Instr → Cpu
  | [] => cpu
  | instr :: rest => execBlock (instr.exec cpu).1 rest

theorem Instr.exec_straight {instr : Instr} (straight : instr.straight = true) (cpu : Cpu) :
    instr.exec cpu = ((instr.exec cpu).1, .next) := by
  cases instr <;> first | rfl | simp [Instr.straight] at straight

/-- A straight block takes one unit of fuel for each instruction. -/
theorem runFrom_block {code rest : List Instr} (fuel pc : Nat) (block : List Instr)
    (placed : code.drop pc = block ++ rest) (straight : block.all Instr.straight = true) :
    runFrom code (fuel + block.length) pc cpu =
      runFrom code fuel (pc + block.length) (execBlock cpu block) := by
  induction block generalizing pc cpu with
  | nil => rfl
  | cons instr block ih =>
    have here : code[pc]? = some instr := by
      have first := congrArg (fun tail => tail[0]?) placed
      simpa using first
    have later : code.drop (pc + 1) = block ++ rest := by
      have tail := congrArg (List.drop 1) placed
      simpa [Nat.add_comm] using tail
    simp only [List.all_cons, Bool.and_eq_true] at straight
    have step : runFrom code (fuel + block.length + 1) pc cpu =
        runFrom code (fuel + block.length) (pc + 1) (instr.exec cpu).1 := by
      rw [runFrom, here]
      dsimp only
      rw [Instr.exec_straight straight.1 cpu]
    rw [List.length_cons, ← Nat.add_assoc, step, ih _ later straight.2, execBlock,
      Nat.add_assoc, Nat.add_comm 1]

theorem runFrom_jz {code : List Instr} (target : Nat) (here : code[pc]? = some (.jz target)) :
    runFrom code (fuel + 1) pc cpu =
      if cpu.eflags &&& Cpu.zeroFlag = 0 then runFrom code fuel (pc + 1) cpu
      else runFrom code fuel target cpu := by
  rw [runFrom, here]
  by_cases clear : cpu.eflags &&& Cpu.zeroFlag = 0
  · simp only [Instr.exec, clear, ↓reduceIte]
  · simp only [Instr.exec, clear, ↓reduceIte]

theorem runFrom_ret {code : List Instr} (here : code[pc]? = some .ret) :
    runFrom code (fuel + 1) pc cpu = some (cpu.pop.2, cpu.pop.1) := by
  rw [runFrom, here]
  rfl

theorem zeroFlag_logicFlags (eflags value : Word) :
    Cpu.logicFlags eflags value &&& Cpu.zeroFlag = 0 ↔ value ≠ 0 := by
  have clear : eflags &&& ~~~(Cpu.carryFlag ||| Cpu.parityFlag ||| Cpu.zeroFlag ||| Cpu.signFlag |||
      Cpu.overflowFlag) &&& Cpu.zeroFlag = 0 := by
    rw [BitVec.and_assoc]
    simp [Cpu.carryFlag, Cpu.parityFlag, Cpu.zeroFlag, Cpu.signFlag, Cpu.overflowFlag]
  simp only [Cpu.logicFlags, BitVec.and_or_distrib_right, clear]
  split <;> split <;> split <;> simp_all [Cpu.parityFlag, Cpu.zeroFlag, Cpu.signFlag]

end MexOS.Machine
