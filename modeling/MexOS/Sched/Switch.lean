import MexOS.Machine.I386
import Mathlib.Data.List.Nodup

/-! `switch_context` of `sched/switch.s` as i386 code, and what a task finds
when it is switched back in. -/

namespace MexOS.Sched

open MexOS.Machine

def loadNew : Nat := 16
def switchDone : Nat := 30

/-- The instructions of `switch_context`; the two labels are `loadNew` and
`switchDone`. -/
def switchContext : List Instr :=
  [ .pushReg .ebp,
    .movRegReg .esp .ebp,
    .movLoad 8 .ebp .eax,
    .testReg .eax .eax,
    .jz loadNew,
    .movStore .edi 0 .eax,
    .movStore .esi 4 .eax,
    .movStore .ebp 8 .eax,
    .movStore .esp 12 .eax,
    .movStore .ebx 16 .eax,
    .movStore .edx 20 .eax,
    .movStore .ecx 24 .eax,
    .movLoad 4 .ebp .ecx,
    .movStore .ecx 32 .eax,
    .pushf,
    .popMem 36 .eax,
    .movLoad 12 .ebp .eax,
    .testReg .eax .eax,
    .jz switchDone,
    .movLoad 0 .eax .edi,
    .movLoad 4 .eax .esi,
    .movLoad 16 .eax .ebx,
    .movLoad 20 .eax .edx,
    .movLoad 24 .eax .ecx,
    .pushMem 36 .eax,
    .popf,
    .movLoad 12 .eax .esp,
    .movLoad 8 .eax .ebp,
    .pushMem 32 .eax,
    .ret,
    .popReg .ebp,
    .ret ]

/-- What the caller left on its stack: the return address and the two
arguments of the C prototype. -/
def returnAddress (cpu : Cpu) : Word := cpu.load (cpu.reg .esp)
def oldArgument (cpu : Cpu) : Word := cpu.load (cpu.reg .esp + 4)
def newArgument (cpu : Cpu) : Word := cpu.load (cpu.reg .esp + 8)

/-- The words of a context that `switch_context` writes, by byte offset. -/
def contextSlots : List Word := [0, 4, 8, 12, 16, 20, 24, 32, 36]

/-- No word of the context shares a byte with the cell. -/
def Clear (context cell : Word) : Prop := ∀ slot ∈ contextSlots, Apart (context + slot) cell

/-- The context lies outside the five stack cells that a call of
`switch_context` uses: two below the stack pointer and three from it on. -/
def FrameClear (context : Word) (cpu : Cpu) : Prop :=
  ∀ cell ∈ [cpu.reg .esp - 8, cpu.reg .esp - 4, cpu.reg .esp, cpu.reg .esp + 4, cpu.reg .esp + 8],
    Clear context cell

-- Over `List`, since an instance for all words would enumerate them.
instance : Decidable (Clear context cell) := List.decidableBAll _ _
instance : Decidable (FrameClear context cpu) := List.decidableBAll _ _

private theorem slots_apart : ∀ first ∈ contextSlots, ∀ second ∈ contextSlots,
    first = second ∨ Apart first second := by
  have checked : (contextSlots.all fun first => contextSlots.all fun second =>
      decide (first = second ∨ Apart first second)) = true := by decide
  simpa only [List.all_eq_true, decide_eq_true_eq] using checked

def entryBlock : List Instr := switchContext.take 4
def saveBlock : List Instr := (switchContext.drop 5).take 11
def testBlock : List Instr := (switchContext.drop 16).take 2
def restoreBlock : List Instr := (switchContext.drop 19).take 10

theorem entry_reg (cpu : Cpu) (source : Reg) : (execBlock cpu entryBlock).reg source =
    if source = .eax then oldArgument cpu
    else if source = .esp ∨ source = .ebp then cpu.reg .esp - 4 else cpu.reg source := by
  have apart : Apart (cpu.reg .esp + 4) (cpu.reg .esp - 4) := by constructor <;> bv_omega
  have argument : cpu.reg .esp - 4 + 8 = cpu.reg .esp + 4 := by bv_omega
  cases source <;>
    simp only [entryBlock, switchContext, List.take, execBlock, Instr.exec, Cpu.push, Cpu.load,
      oldArgument, Cpu.reg_set, Cpu.reg_store, Cpu.mem_store, Cpu.mem_set, reduceCtorEq, ↓reduceIte,
      argument, loadWord_storeWord_apart apart, or_self, or_true, true_or]

theorem entry_eax (cpu : Cpu) : (execBlock cpu entryBlock).reg .eax = oldArgument cpu := by
  rw [entry_reg, if_pos rfl]

theorem entry_esp (cpu : Cpu) : (execBlock cpu entryBlock).reg .esp = cpu.reg .esp - 4 := rfl
theorem entry_ebp (cpu : Cpu) : (execBlock cpu entryBlock).reg .ebp = cpu.reg .esp - 4 := rfl

theorem entry_mem (cpu : Cpu) : (execBlock cpu entryBlock).mem =
    storeWord cpu.mem (cpu.reg .esp - 4) (cpu.reg .ebp) := rfl

theorem entry_zero (cpu : Cpu) :
    (execBlock cpu entryBlock).eflags &&& Cpu.zeroFlag = 0 ↔ oldArgument cpu ≠ 0 := by
  have argument := entry_reg cpu .eax
  have tested : (execBlock cpu entryBlock).eflags = Cpu.logicFlags cpu.eflags
      ((execBlock cpu entryBlock).reg .eax &&& (execBlock cpu entryBlock).reg .eax) := rfl
  rw [tested, zeroFlag_logicFlags, argument]
  simp

/-- The stores of the save part, up to the return address. -/
def registerCells (cpu : Cpu) : List (Word × Word) :=
  let old := cpu.reg .eax
  [(old + 0, cpu.reg .edi), (old + 4, cpu.reg .esi), (old + 8, cpu.reg .ebp),
    (old + 12, cpu.reg .esp), (old + 16, cpu.reg .ebx), (old + 20, cpu.reg .edx),
    (old + 24, cpu.reg .ecx)]

/-- The stores from the return address on; the flags pass through the stack. -/
def resumeCells (cpu : Cpu) (returning : Word) : List (Word × Word) :=
  let old := cpu.reg .eax
  [(old + 32, returning), (cpu.reg .esp - 4, cpu.eflags), (old + 36, cpu.eflags)]

theorem save_mem (cpu : Cpu) : (execBlock cpu saveBlock).mem =
    storeWords cpu.mem (registerCells cpu ++
      resumeCells cpu (loadWord (storeWords cpu.mem (registerCells cpu)) (cpu.reg .ebp + 4))) := by
  simp only [saveBlock, switchContext, List.take, List.drop, execBlock, Instr.exec, Cpu.push,
    Cpu.load, Cpu.pop, Cpu.reg_set, Cpu.reg_store, Cpu.mem_store, Cpu.mem_set, reduceCtorEq,
    ↓reduceIte, Cpu.eflags_store, Cpu.eflags_set, storeWords, registerCells, resumeCells,
    List.foldl, loadWord_storeWord_self, List.cons_append, List.nil_append]

theorem save_reg (cpu : Cpu) (source : Reg) (other : source ≠ .ecx) :
    (execBlock cpu saveBlock).reg source = cpu.reg source := by
  have restored : cpu.reg .esp - 4 + 4 = cpu.reg .esp := by bv_omega
  cases source <;>
    simp only [saveBlock, switchContext, List.take, List.drop, execBlock, Instr.exec, Cpu.push,
      Cpu.load, Cpu.pop, Cpu.reg_set, Cpu.reg_store, reduceCtorEq, ↓reduceIte, ne_eq, not_true,
      restored] at other ⊢

/-- Every store of the save part is a context word or the flags cell. -/
private theorem cells_placed (cpu : Cpu) (returning : Word) :
    ∀ cell ∈ registerCells cpu ++ resumeCells cpu returning,
      (∃ slot ∈ contextSlots, cell.1 = cpu.reg .eax + slot) ∨ cell.1 = cpu.reg .esp - 4 := by
  simp [registerCells, resumeCells, contextSlots]

/-- A stack cell outside the context keeps its word through the save part. -/
theorem save_stack {cpu : Cpu} {place : Word} (clear : Clear (cpu.reg .eax) place)
    (apart : Apart place (cpu.reg .esp - 4)) :
    loadWord (execBlock cpu saveBlock).mem place = loadWord cpu.mem place := by
  rw [save_mem]
  apply loadWord_storeWords_apart
  intro cell member
  rcases cells_placed cpu _ cell member with ⟨slot, known, same⟩ | same
  · rw [same]
    exact (clear slot known).symm
  · rwa [same]

/-- The return address is read off the caller's frame after the registers
have been stored. -/
theorem save_returning {cpu : Cpu} (clear : Clear (cpu.reg .eax) (cpu.reg .ebp + 4)) :
    loadWord (storeWords cpu.mem (registerCells cpu)) (cpu.reg .ebp + 4) =
      loadWord cpu.mem (cpu.reg .ebp + 4) := by
  apply loadWord_storeWords_apart
  intro cell member
  have placed : ∃ slot ∈ contextSlots, cell.1 = cpu.reg .eax + slot := by
    simp [registerCells] at member
    simp [contextSlots]
    rcases member with rfl | rfl | rfl | rfl | rfl | rfl | rfl <;> simp
  obtain ⟨slot, known, same⟩ := placed
  rw [same]
  exact (clear slot known).symm

private theorem cells_nodup {cpu : Cpu} (returning : Word)
    (clear : Clear (cpu.reg .eax) (cpu.reg .esp - 4)) :
    ((registerCells cpu ++ resumeCells cpu returning).map Prod.fst).Nodup := by
  have distinct : ∀ slot ∈ contextSlots, cpu.reg .eax + slot ≠ cpu.reg .esp - 4 :=
    fun slot known => (clear slot known).ne
  simp [contextSlots] at distinct
  simp [registerCells, resumeCells, distinct, Ne.symm (distinct.2.2.2.2.2.2.2.2)]

/-- Each word of the old context holds what the save part stored there. -/
theorem save_slot {cpu : Cpu} {slot value : Word} (known : slot ∈ contextSlots)
    (clear : Clear (cpu.reg .eax) (cpu.reg .esp - 4))
    (frame : Clear (cpu.reg .eax) (cpu.reg .ebp + 4))
    (written : (cpu.reg .eax + slot, value) ∈ registerCells cpu ++
      resumeCells cpu (loadWord cpu.mem (cpu.reg .ebp + 4))) :
    loadWord (execBlock cpu saveBlock).mem (cpu.reg .eax + slot) = value := by
  rw [save_mem, save_returning frame]
  apply loadWord_storeWords_mem _ written
  intro cell member
  rcases cells_placed cpu _ cell member with ⟨other, placed, same⟩ | same
  · rcases slots_apart slot known other placed with equal | apart
    · subst other
      exact .inl (List.inj_on_of_nodup_map (cells_nodup _ clear) member written same)
    · rw [same]
      exact .inr (apart_offsets apart)
  · rw [same]
    exact .inr (clear slot known)

/-- The machine at the label `.load_new`, whether or not a context was saved. -/
def atLoadNew (cpu : Cpu) : Cpu :=
  if oldArgument cpu = 0 then execBlock cpu entryBlock
  else execBlock (execBlock cpu entryBlock) saveBlock

theorem reaches_loadNew (cpu : Cpu) : ∃ fuel, runProcedure switchContext cpu =
    runFrom switchContext (fuel + 14) loadNew (atLoadNew cpu) := by
  have entered : runProcedure switchContext cpu =
      runFrom switchContext 28 4 (execBlock cpu entryBlock) :=
    runFrom_block 28 0 entryBlock (List.take_append_drop 4 switchContext).symm rfl
  have tested := entry_zero cpu
  by_cases absent : oldArgument cpu = 0
  · refine ⟨13, ?_⟩
    have jumps : ¬(execBlock cpu entryBlock).eflags &&& Cpu.zeroFlag = 0 := by
      rw [tested]
      simpa using absent
    rw [entered, atLoadNew, runFrom_jz loadNew rfl]
    simp only [jumps, absent, ↓reduceIte]
  · refine ⟨2, ?_⟩
    have falls := tested.mpr absent
    have saved : runFrom switchContext 27 5 (execBlock cpu entryBlock) =
        runFrom switchContext 16 16 (execBlock (execBlock cpu entryBlock) saveBlock) :=
      runFrom_block 16 5 saveBlock (List.take_append_drop 11 _).symm rfl
    rw [entered, atLoadNew, runFrom_jz loadNew rfl]
    simp only [falls, absent, ↓reduceIte]
    exact saved

theorem test_reg (cpu : Cpu) (source : Reg) : (execBlock cpu testBlock).reg source =
    if source = .eax then loadWord cpu.mem (cpu.reg .ebp + 12) else cpu.reg source := by
  cases source <;> rfl

/-- The registers after the restore part, before the final `ret`. The flags
have passed through the cell below the old stack pointer. -/
theorem restore_reg (cpu : Cpu) (source : Reg) : (execBlock cpu restoreBlock).reg source =
    let context := cpu.reg .eax
    let flagged := storeWord cpu.mem (cpu.reg .esp - 4) (loadWord cpu.mem (context + 36))
    match source with
    | .eax => context
    | .ecx => loadWord cpu.mem (context + 24)
    | .edx => loadWord cpu.mem (context + 20)
    | .ebx => loadWord cpu.mem (context + 16)
    | .esp => loadWord flagged (context + 12) - 4
    | .ebp => loadWord flagged (context + 8)
    | .esi => loadWord cpu.mem (context + 4)
    | .edi => loadWord cpu.mem (context + 0) := by
  cases source <;>
    simp only [restoreBlock, switchContext, List.take, List.drop, execBlock, Instr.exec, Cpu.push,
      Cpu.load, Cpu.pop, Cpu.reg_set, Cpu.reg_store, Cpu.mem_set, Cpu.mem_store, reduceCtorEq,
      ↓reduceIte]

/-- The restore part writes the flags cell and the top of the new stack. -/
theorem restore_frame {cpu : Cpu} {place : Word} (flagged : Apart place (cpu.reg .esp - 4))
    (resumed : Apart place ((execBlock cpu restoreBlock).reg .esp)) :
    loadWord (execBlock cpu restoreBlock).mem place = loadWord cpu.mem place := by
  rw [restore_reg] at resumed
  simp only [restoreBlock, switchContext, List.take, List.drop, execBlock, Instr.exec, Cpu.push,
    Cpu.load, Cpu.pop, Cpu.reg_set, Cpu.reg_store, Cpu.mem_set, Cpu.mem_store, reduceCtorEq,
    ↓reduceIte]
  exact (loadWord_storeWord_apart resumed).trans (loadWord_storeWord_apart flagged)

/-- The new stack ends in the resume address. -/
theorem restore_top (cpu : Cpu) : (execBlock cpu restoreBlock).pop.1 =
    loadWord (storeWord cpu.mem (cpu.reg .esp - 4) (loadWord cpu.mem (cpu.reg .eax + 36)))
      (cpu.reg .eax + 32) := by
  simp only [restoreBlock, switchContext, List.take, List.drop, execBlock, Instr.exec, Cpu.push,
    Cpu.load, Cpu.pop, Cpu.reg_set, Cpu.reg_store, Cpu.mem_set, Cpu.mem_store, reduceCtorEq,
    ↓reduceIte, loadWord_storeWord_self]

/-- Loading the context `context` from the label `.load_new`: the stack is
switched first, then the resume address is pushed on the new stack. -/
theorem restores {cpu : Cpu} {context : Word} (fuel : Nat)
    (argument : loadWord cpu.mem (cpu.reg .ebp + 12) = context) (present : context ≠ 0)
    (clear : Clear context (cpu.reg .esp - 4)) :
    ∃ after, runFrom switchContext (fuel + 14) loadNew cpu =
        some (after, loadWord cpu.mem (context + 32)) ∧
      after.reg .esp = loadWord cpu.mem (context + 12) ∧
      after.reg .ebp = loadWord cpu.mem (context + 8) ∧
      after.reg .ebx = loadWord cpu.mem (context + 16) ∧
      after.reg .esi = loadWord cpu.mem (context + 4) ∧
      after.reg .edi = loadWord cpu.mem (context + 0) ∧
      ∀ place, Apart place (cpu.reg .esp - 4) → Apart place (after.reg .esp - 4) →
        loadWord after.mem place = loadWord cpu.mem place := by
  have tested : (execBlock cpu testBlock).eflags &&& Cpu.zeroFlag = 0 := by
    have flags : (execBlock cpu testBlock).eflags = Cpu.logicFlags cpu.eflags (context &&& context) := by
      rw [← argument]
      rfl
    rw [flags, zeroFlag_logicFlags]
    simpa using present
  have first : runFrom switchContext (fuel + 14) loadNew cpu =
      runFrom switchContext (fuel + 12) 18 (execBlock cpu testBlock) :=
    runFrom_block (fuel + 12) 16 testBlock (List.take_append_drop 2 _).symm rfl
  have second : runFrom switchContext (fuel + 11) 19 (execBlock cpu testBlock) =
      runFrom switchContext (fuel + 1) 29 (execBlock (execBlock cpu testBlock) restoreBlock) :=
    runFrom_block (fuel + 1) 19 restoreBlock (List.take_append_drop 10 _).symm rfl
  have kept (slot : Word) (known : slot ∈ contextSlots) (value : Word) :
      loadWord (storeWord cpu.mem (cpu.reg .esp - 4) value) (context + slot) =
        loadWord cpu.mem (context + slot) := loadWord_storeWord_apart (clear slot known)
  have loaded : (execBlock cpu testBlock).reg .eax = context := by
    rw [test_reg, if_pos rfl, argument]
  have stack : (execBlock cpu testBlock).reg .esp = cpu.reg .esp := rfl
  have memory : (execBlock cpu testBlock).mem = cpu.mem := rfl
  rw [first, runFrom_jz switchDone rfl]
  simp only [tested, ↓reduceIte]
  rw [second, runFrom_ret rfl, restore_top, loaded, stack, memory, kept 32 (by simp [contextSlots])]
  have frame (place : Word) (flagged : Apart place (cpu.reg .esp - 4))
      (resumed : Apart place
        ((execBlock (execBlock cpu testBlock) restoreBlock).pop.2.reg .esp - 4)) :
      loadWord (execBlock (execBlock cpu testBlock) restoreBlock).pop.2.mem place =
        loadWord cpu.mem place := by
    rw [Cpu.pop, Cpu.reg_set, if_pos rfl, BitVec.add_sub_cancel] at resumed
    exact @restore_frame (execBlock cpu testBlock) place flagged resumed
  refine ⟨_, rfl, ?_, ?_, ?_, ?_, ?_, frame⟩
  all_goals
    simp only [Cpu.pop, Cpu.reg_set, reduceCtorEq, ↓reduceIte, restore_reg, loaded, stack, memory]
  · rw [kept 12 (by simp [contextSlots]), BitVec.sub_add_cancel]
  · rw [kept 8 (by simp [contextSlots])]

theorem atLoadNew_stack (cpu : Cpu) : (atLoadNew cpu).reg .esp = cpu.reg .esp - 4 ∧
    (atLoadNew cpu).reg .ebp = cpu.reg .esp - 4 := by
  unfold atLoadNew
  split <;> simp [save_reg, entry_reg]

/-- A cell above the frame pointer, outside the old context, is as the caller
left it. -/
theorem atLoadNew_frame {cpu : Cpu} {place : Word}
    (pushed : Apart place (cpu.reg .esp - 4)) (flagged : Apart place (cpu.reg .esp - 8))
    (clear : oldArgument cpu ≠ 0 → Clear (oldArgument cpu) place) :
    loadWord (atLoadNew cpu).mem place = loadWord cpu.mem place := by
  have entered : loadWord (execBlock cpu entryBlock).mem place = loadWord cpu.mem place := by
    rw [entry_mem]
    exact loadWord_storeWord_apart pushed
  unfold atLoadNew
  split
  · exact entered
  · rename_i present
    have frame : cpu.reg .esp - 4 - 4 = cpu.reg .esp - 8 := by bv_omega
    rw [save_stack, entered]
    · rw [entry_eax]
      exact clear present
    · rwa [entry_esp, frame]

/-- Where the save part ran, each context word holds the caller's register,
and the saved stack pointer and frame pointer are those of the callee. -/
theorem atLoadNew_saved {cpu : Cpu} (present : oldArgument cpu ≠ 0)
    (clear : FrameClear (oldArgument cpu) cpu) :
    let context := oldArgument cpu
    loadWord (atLoadNew cpu).mem (context + 0) = cpu.reg .edi ∧
    loadWord (atLoadNew cpu).mem (context + 4) = cpu.reg .esi ∧
    loadWord (atLoadNew cpu).mem (context + 8) = cpu.reg .esp - 4 ∧
    loadWord (atLoadNew cpu).mem (context + 12) = cpu.reg .esp - 4 ∧
    loadWord (atLoadNew cpu).mem (context + 16) = cpu.reg .ebx ∧
    loadWord (atLoadNew cpu).mem (context + 32) = returnAddress cpu := by
  have frame : cpu.reg .esp - 4 - 4 = cpu.reg .esp - 8 := by bv_omega
  have above : cpu.reg .esp - 4 + 4 = cpu.reg .esp := by bv_omega
  have apart : Apart (cpu.reg .esp) (cpu.reg .esp - 4) := by constructor <;> bv_omega
  have flags : Clear ((execBlock cpu entryBlock).reg .eax)
      ((execBlock cpu entryBlock).reg .esp - 4) := by
    rw [entry_eax, entry_esp, frame]
    exact clear _ (by simp)
  have returning : Clear ((execBlock cpu entryBlock).reg .eax)
      ((execBlock cpu entryBlock).reg .ebp + 4) := by
    rw [entry_eax, entry_ebp, above]
    exact clear _ (by simp)
  have address : loadWord (execBlock cpu entryBlock).mem
      ((execBlock cpu entryBlock).reg .ebp + 4) = returnAddress cpu := by
    rw [entry_ebp, above, entry_mem, loadWord_storeWord_apart apart]
    rfl
  have slot {offset value : Word} (known : offset ∈ contextSlots)
      (written : (oldArgument cpu + offset, value) ∈
        registerCells (execBlock cpu entryBlock) ++
          resumeCells (execBlock cpu entryBlock) (returnAddress cpu)) :
      loadWord (atLoadNew cpu).mem (oldArgument cpu + offset) = value := by
    rw [← entry_eax, ← address] at written
    have saved := save_slot known flags returning written
    rw [entry_eax] at saved
    rwa [atLoadNew, if_neg present]
  refine ⟨slot (by simp [contextSlots]) ?_, slot (by simp [contextSlots]) ?_,
    slot (by simp [contextSlots]) ?_, slot (by simp [contextSlots]) ?_,
    slot (by simp [contextSlots]) ?_, slot (by simp [contextSlots]) ?_⟩
  all_goals simp [registerCells, resumeCells, entry_reg]

/-- One call of `switch_context` that loads `context`: the caller's own
context, when it saves one, lies elsewhere. -/
structure LoadsContext (cpu : Cpu) (context : Word) : Prop where
  argument : newArgument cpu = context
  present : context ≠ 0
  pushed : Clear context (cpu.reg .esp - 4)
  flagged : Clear context (cpu.reg .esp - 8)
  frame : oldArgument cpu ≠ 0 → FrameClear (oldArgument cpu) cpu
  elsewhere : oldArgument cpu ≠ 0 → ∀ slot ∈ contextSlots, Clear (oldArgument cpu) (context + slot)

/-- A call that loads a context continues at its `eip` with its registers, and
past `.load_new` it writes only below the two stack pointers. -/
theorem LoadsContext.run {cpu : Cpu} {context : Word} (loads : LoadsContext cpu context) :
    ∃ after, runProcedure switchContext cpu = some (after, loadWord cpu.mem (context + 32)) ∧
      after.reg .esp = loadWord cpu.mem (context + 12) ∧
      after.reg .ebp = loadWord cpu.mem (context + 8) ∧
      after.reg .ebx = loadWord cpu.mem (context + 16) ∧
      after.reg .esi = loadWord cpu.mem (context + 4) ∧
      after.reg .edi = loadWord cpu.mem (context + 0) ∧
      ∀ place, Apart place (cpu.reg .esp - 8) → Apart place (after.reg .esp - 4) →
        loadWord after.mem place = loadWord (atLoadNew cpu).mem place := by
  obtain ⟨fuel, reached⟩ := reaches_loadNew cpu
  obtain ⟨stack, base⟩ := atLoadNew_stack cpu
  have below : cpu.reg .esp - 4 - 4 = cpu.reg .esp - 8 := by bv_omega
  have kept (slot : Word) (known : slot ∈ contextSlots) :
      loadWord (atLoadNew cpu).mem (context + slot) = loadWord cpu.mem (context + slot) :=
    atLoadNew_frame (loads.pushed slot known) (loads.flagged slot known)
      fun present => loads.elsewhere present slot known
  have argument : loadWord (atLoadNew cpu).mem ((atLoadNew cpu).reg .ebp + 12) = context := by
    have cell : cpu.reg .esp - 4 + 12 = cpu.reg .esp + 8 := by bv_omega
    rw [base, cell, atLoadNew_frame, ← loads.argument]
    · rfl
    · constructor <;> bv_omega
    · constructor <;> bv_omega
    · exact fun present => loads.frame present _ (by simp)
  have clear : Clear context ((atLoadNew cpu).reg .esp - 4) := by
    rw [stack, below]
    exact loads.flagged
  obtain ⟨after, returned, esp, ebp, ebx, esi, edi, rest⟩ :=
    restores fuel argument loads.present clear
  rw [stack, below] at rest
  refine ⟨after, ?_, ?_, ?_, ?_, ?_, ?_, rest⟩
  · rw [reached, returned, kept 32 (by simp [contextSlots])]
  · rw [esp, kept 12 (by simp [contextSlots])]
  · rw [ebp, kept 8 (by simp [contextSlots])]
  · rw [ebx, kept 16 (by simp [contextSlots])]
  · rw [esi, kept 4 (by simp [contextSlots])]
  · rw [edi, kept 0 (by simp [contextSlots])]

/-- A task leaves the processor through one call and is loaded back by a later
one. Its context and its stack from the saved stack pointer up to `top` are as
they were left; what ran in between is otherwise arbitrary. -/
structure RoundTrip (leaving other back : Cpu) (resumed : Word) (top : Nat) : Prop where
  left : runProcedure switchContext leaving = some (other, resumed)
  saving : oldArgument leaving ≠ 0
  switches : LoadsContext leaving (newArgument leaving)
  landing : Clear (oldArgument leaving) (other.reg .esp - 4)
  loads : LoadsContext back (oldArgument leaving)
  contextKept : ∀ slot ∈ contextSlots,
    back.load (oldArgument leaving + slot) = other.load (oldArgument leaving + slot)
  stackKept : ∀ place : Word, (leaving.reg .esp - 4).toNat ≤ place.toNat → place.toNat < top →
    back.mem place = other.mem place

/-- How an ordinary return leaves the caller: past the return address, with
the callee-saved registers of the C calling convention. -/
def ResumesAsReturn (caller resumed : Cpu) (eip : Word) : Prop :=
  eip = returnAddress caller ∧ resumed.reg .esp = caller.reg .esp + 4 ∧
    resumed.reg .ebp = caller.reg .ebp ∧ resumed.reg .ebx = caller.reg .ebx ∧
    resumed.reg .esi = caller.reg .esi ∧ resumed.reg .edi = caller.reg .edi

/-- The words a departing task leaves in its own context. -/
theorem RoundTrip.context {leaving other back : Cpu} {resumed : Word}
    (trip : RoundTrip leaving other back resumed top) (slot : Word) (known : slot ∈ contextSlots) :
    loadWord back.mem (oldArgument leaving + slot) =
      loadWord (atLoadNew leaving).mem (oldArgument leaving + slot) := by
  obtain ⟨after, returned, _, _, _, _, _, frame⟩ := trip.switches.run
  have same : after = other := by
    have both := returned.symm.trans trip.left
    simp only [Option.some.injEq, Prod.mk.injEq] at both
    exact both.1
  subst after
  have clear := trip.switches.frame trip.saving _ (List.mem_cons_self)
  exact (trip.contextKept slot known).trans
    (frame _ (clear slot known) (trip.landing slot known))

/-- A task switched back in continues at its return address with `ebx`, `esi`
and `edi` intact, but its stack pointer is eight bytes below where a return
would leave it and `ebp` is the frame of `switch_context` itself. -/
theorem round_trip_resumes_in_callee_frame {leaving other back : Cpu} {resumed : Word}
    (trip : RoundTrip leaving other back resumed top) :
    ∃ after eip, runProcedure switchContext back = some (after, eip) ∧
      ¬ ResumesAsReturn leaving after eip ∧
      eip = returnAddress leaving ∧
      after.reg .esp = leaving.reg .esp + 4 - 8 ∧ after.reg .ebp = leaving.reg .esp - 4 ∧
      after.reg .ebx = leaving.reg .ebx ∧ after.reg .esi = leaving.reg .esi ∧
      after.reg .edi = leaving.reg .edi := by
  obtain ⟨after, returned, esp, ebp, ebx, esi, edi, _⟩ := trip.loads.run
  obtain ⟨savedEdi, savedEsi, savedEbp, savedEsp, savedEbx, savedEip⟩ :=
    atLoadNew_saved trip.saving (trip.switches.frame trip.saving)
  rw [trip.context _ (by simp [contextSlots])] at returned esp ebp ebx esi edi
  rw [savedEsp] at esp
  rw [savedEip] at returned
  have lower : after.reg .esp ≠ leaving.reg .esp + 4 := by rw [esp]; bv_omega
  refine ⟨after, returnAddress leaving, returned, ?_, rfl, ?_, ?_, ?_, ?_, ?_⟩
  · exact fun ordinary => lower ordinary.2.1
  · rw [esp]
    bv_omega
  · rw [ebp, savedEbp]
  · rw [ebx, savedEbx]
  · rw [esi, savedEsi]
  · rw [edi, savedEdi]

instance : Decidable (LoadsContext cpu context) :=
  decidable_of_iff (newArgument cpu = context ∧ context ≠ 0 ∧ Clear context (cpu.reg .esp - 4) ∧
      Clear context (cpu.reg .esp - 8) ∧
      (oldArgument cpu ≠ 0 → FrameClear (oldArgument cpu) cpu ∧
        contextSlots.all (fun slot => decide (Clear (oldArgument cpu) (context + slot))) = true)) <| by
    simp only [List.all_eq_true, decide_eq_true_eq]
    constructor
    · rintro ⟨argument, present, pushed, flagged, others⟩
      exact ⟨argument, present, pushed, flagged, fun saves => (others saves).1,
        fun saves => (others saves).2⟩
    · rintro ⟨argument, present, pushed, flagged, frame, elsewhere⟩
      exact ⟨argument, present, pushed, flagged, fun saves => ⟨frame saves, elsewhere saves⟩⟩

/-- A task at `0x1000` with its context at `0x2000`, about to switch to the
context at `0x2100`, whose stack is at `0x3000`. -/
def sampleLeaving : Cpu where
  reg := fun source => if source = .esp then 0x1000 else if source = .ebp then 0x1040 else 7
  eflags := 0x202
  mem := storeWords (fun _ => 0) [(0x1000, 0x10abcd), (0x1004, 0x2000), (0x1008, 0x2100),
    (0x210c, 0x3000), (0x2120, 0x10beef)]

def sampleOther : Cpu := ((runProcedure switchContext sampleLeaving).getD (sampleLeaving, 0)).1

/-- The other task, deeper on its stack, switches back. -/
def sampleBack : Cpu where
  reg := fun source => if source = .esp then 0x2f00 else 9
  eflags := 0x202
  mem := storeWords sampleOther.mem [(0x2f00, 0x10cafe), (0x2f04, 0x2100), (0x2f08, 0x2000)]

private theorem some_of_snd {result : Option (Cpu × Word)} {other : Cpu} {eip : Word}
    (resumed : result.map Prod.snd = some eip) :
    result = some ((result.getD (other, 0)).1, eip) := by
  cases result with
  | none => simp at resumed
  | some pair =>
    simp at resumed
    simp [← resumed]

private theorem store_above {memory : Memory} {place cell value : Word}
    (below : place.toNat < 0x1100) (far : 0x2f00 ≤ cell.toNat ∧ cell.toNat ≤ 0x2f08) :
    storeWord memory cell value place = memory place :=
  storeWord_frame (by bv_omega)

theorem sampleTrip : RoundTrip sampleLeaving sampleOther sampleBack 0x10beef 0x1100 where
  left := some_of_snd (by decide +kernel)
  saving := by decide +kernel
  switches := by decide +kernel
  landing := by decide +kernel
  loads := by decide +kernel
  contextKept := by
    have checked : (contextSlots.all fun slot =>
        decide (sampleBack.load (oldArgument sampleLeaving + slot) =
          sampleOther.load (oldArgument sampleLeaving + slot))) = true := by decide +kernel
    simpa only [List.all_eq_true, decide_eq_true_eq] using checked
  stackKept := by
    intro place _ below
    simp only [sampleBack, storeWords, List.foldl]
    rw [store_above below, store_above below, store_above below] <;> decide

theorem round_trip_resumes_in_callee_frame_sample :
    ∃ after eip, runProcedure switchContext sampleBack = some (after, eip) ∧
      ¬ ResumesAsReturn sampleLeaving after eip :=
  let ⟨after, eip, returned, differs, _⟩ := round_trip_resumes_in_callee_frame sampleTrip
  ⟨after, eip, returned, differs⟩

/-- At the sample the resumed stack pointer is `0xffc`; a return would leave
`0x1004`. -/
theorem switch_context_breaks_calling_convention :
    RoundTrip sampleLeaving sampleOther sampleBack 0x10beef 0x1100 ∧
      ¬ ∃ after eip, runProcedure switchContext sampleBack = some (after, eip) ∧
        ResumesAsReturn sampleLeaving after eip := by
  refine ⟨sampleTrip, ?_⟩
  rintro ⟨after, eip, returned, ordinary⟩
  have stack : (runProcedure switchContext sampleBack).map (fun result => result.1.reg .esp) =
      some 0xffc := by decide +kernel
  rw [returned] at stack
  have lower : after.reg .esp = 0xffc := Option.some.inj stack
  have top : after.reg .esp = sampleLeaving.reg .esp + 4 := ordinary.2.1
  rw [lower] at top
  revert top
  decide

end MexOS.Sched
