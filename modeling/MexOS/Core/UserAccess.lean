import MexOS.Core.Syscall
import MexOS.Fs.InodeTable

/-! Which accesses of `syscall_handler` to the memory of the caller stand behind
a check of the address: all but those of the path that `SYS_EXEC` passes on. -/

namespace MexOS.Core

open MexOS.Machine MexOS.Mm MexOS.Fs

/-- An earlier check of a range that the address is in, for writing if the
access is a write. -/
def Covered (earlier : List UserAccess) (address : Word) (write : Bool) : Prop :=
  ∃ ptr len mode, .checked ptr len mode ∈ earlier ∧ (write = true → mode = true) ∧
    ∃ i < len.toNat, address = ptr + BitVec.ofNat 32 i

/-- The access stands behind a check. -/
def validated (earlier : List UserAccess) : UserAccess → Prop
  | .checked .. => True
  | .read address => Covered earlier address false
  | .wrote address => Covered earlier address true

namespace Handler

open Monitored

/-- Every access of the handler stands behind a check. -/
def Validated (handler : Handler α) : Prop := Guarded validated [] handler

/-- An access to one of the `count` bytes at `ptr`, a write only if the mode
says so. -/
def Touches (ptr : Word) (count : Nat) (mode : Bool) : UserAccess → Prop
  | .checked .. => False
  | .read address => ∃ i < count, address = ptr + BitVec.ofNat 32 i
  | .wrote address => mode = true ∧ ∃ i < count, address = ptr + BitVec.ofNat 32 i

variable {p : Paging} {services : Services} {ptr path : Word} {count i : Nat} {mode : Bool}

theorem Touches.validated {event : UserAccess} {len : Word} {earlier : List UserAccess}
    (touches : Touches ptr len.toNat mode event) (checked : .checked ptr len mode ∈ earlier)
    (more : List UserAccess) : validated (earlier ++ more) event := by
  have before : UserAccess.checked ptr len mode ∈ earlier ++ more := List.mem_append_left more checked
  cases event with
  | checked => trivial
  | read address => exact ⟨ptr, len, mode, before, by simp, touches⟩
  | wrote address =>
    obtain ⟨writes, inside⟩ := touches
    exact ⟨ptr, len, mode, before, fun _ => writes, inside⟩

theorem loadUser_shows (inside : i < count) :
    (loadUser p (ptr + BitVec.ofNat 32 i)).Shows (Touches ptr count mode) := by
  intro event shown
  obtain rfl := List.mem_singleton.mp shown
  exact ⟨i, inside, rfl⟩

theorem storeUser_shows {value : Byte} (inside : i < count) :
    (storeUser p (ptr + BitVec.ofNat 32 i) value).Shows (Touches ptr count true) := by
  intro event shown
  obtain rfl := List.mem_singleton.mp shown
  exact ⟨rfl, i, inside, rfl⟩

theorem copyFromUser_shows {left : Nat} (inside : i + left ≤ count) :
    (copyFromUser p ptr left i).Shows (Touches ptr count mode) := by
  induction left generalizing i with
  | zero => exact .pure _ _
  | succ left ih => exact (loadUser_shows (by omega)).bind fun _ _ => ih (by omega)

theorem copyToUser_shows {bytes : Bytes} {left : Nat} (inside : i + left ≤ count) :
    (copyToUser ptr bytes left p i).Shows (Touches ptr count true) := by
  induction left generalizing i p with
  | zero => exact .pure _ _
  | succ left ih => exact (storeUser_shows (by omega)).bind fun _ _ => ih (by omega)

theorem writeLoop_shows {left : Nat} (inside : i + left ≤ count) :
    (writeLoop services ptr left p i).Shows (Touches ptr count mode) := by
  induction left generalizing i p with
  | zero => exact .pure _ _
  | succ left ih =>
    refine (loadUser_shows (by omega)).bind ?_
    intro c _
    split
    · exact .pure _ _
    · exact ih (by omega)

theorem readLoop_shows {keyboard : List Byte} {left : Nat} (inside : i + left ≤ count) :
    (readLoop ptr left p i keyboard).Shows (Touches ptr count true) := by
  induction left generalizing i p keyboard with
  | zero => exact .pure _ _
  | succ left ih =>
    cases keyboard with
    | nil => exact .pure _ _
    | cons char keyboard => exact (storeUser_shows (by omega)).bind fun _ _ => ih (by omega)

theorem storeFields_shows {offsets : List Nat} {turn : Nat} (inside : ∀ offset ∈ offsets, offset < count) :
    (storeFields services ptr turn p offsets).Shows (Touches ptr count true) := by
  induction offsets generalizing turn p with
  | nil => exact .pure _ _
  | cons offset rest ih =>
    refine (storeUser_shows (inside offset List.mem_cons_self)).bind ?_
    intro q _
    exact ih fun other member => inside other (List.mem_cons_of_mem _ member)

theorem loadFields_shows {offsets : List Nat} (inside : ∀ offset ∈ offsets, offset < count) :
    (loadFields p ptr offsets).Shows (Touches ptr count mode) := by
  induction offsets with
  | nil => exact .pure _ _
  | cons offset rest ih =>
    refine (loadUser_shows (inside offset List.mem_cons_self)).bind ?_
    intro _ _
    exact ih fun other member => inside other (List.mem_cons_of_mem _ member)

theorem convertFields_shows {fields : List (List Nat)} {turn : Nat}
    (inside : ∀ field ∈ fields, ∀ offset ∈ field, offset < count) :
    (convertFields services ptr turn p fields).Shows (Touches ptr count true) := by
  induction fields generalizing turn p with
  | nil => exact .pure _ _
  | cons field rest ih =>
    have here := inside field List.mem_cons_self
    refine (loadFields_shows here).bind ?_
    intro _ _
    refine (storeFields_shows here).bind ?_
    intro q _
    exact ih fun other member => inside other (List.mem_cons_of_mem _ member)

theorem rtcReadTime_shows : (rtcReadTime p services ptr).Shows (Touches ptr rtcTimeBytes true) := by
  refine (storeFields_shows (by decide)).bind ?_
  intro q _
  split
  · exact .pure _ _
  · have inside : ∀ field ∈ (if services.binary then [] else rtcFields.take 6), ∀ offset ∈ field,
        offset < rtcTimeBytes := by
      cases services.binary <;> decide
    refine (convertFields_shows inside).bind ?_
    intro r _
    exact (convertFields_shows (by decide)).bind fun _ _ => .pure _ _

theorem rtcWriteTime_shows : (rtcWriteTime p ptr).Shows (Touches ptr rtcTimeBytes mode) :=
  (loadFields_shows (by decide)).bind fun _ _ => loadFields_shows (by decide)

theorem ofOption_shows (value : Option α) (holds : UserAccess → Prop) : (ofOption value : Handler α).Shows holds := by
  intro event shown
  cases shown

theorem msgSend_shows (portId : Int) (flags : Word) :
    (msgSend services portId ptr flags).Shows (Touches ptr messageBytes mode) := by
  unfold msgSend
  split
  · exact .pure _ _
  · split
    · exact .pure _ _
    · refine (ofOption_shows _ _).bind ?_
      intro ⟨free, q⟩ _
      dsimp only
      split
      · exact (copyFromUser_shows (by omega)).bind fun _ _ => .pure _ _
      · exact .pure _ _

theorem msgReceive_shows (portId : Int) (flags : Word) :
    (msgReceive services portId ptr flags).Shows (Touches ptr messageBytes true) := by
  unfold msgReceive
  split
  · exact .pure _ _
  · split
    · exact .pure _ _
    · refine (ofOption_shows _ _).bind ?_
      intro ⟨message, q⟩ _
      dsimp only
      split
      · exact .pure _ _
      · exact (copyToUser_shows (by omega)).bind fun _ _ => .pure _ _

/-- A check is recorded when it returned true. -/
theorem checkUserPtr_cases (p : Paging) (ptr len : Word) (mode : Bool) :
    (p.toVmm.checkUserPtr ptr len mode = some true ∧
      checkUserPtr p ptr len mode = ⟨some true, [.checked ptr len mode]⟩) ∨
    (p.toVmm.checkUserPtr ptr len mode ≠ some true ∧ (checkUserPtr p ptr len mode).value ≠ some true ∧
      (checkUserPtr p ptr len mode).trace = []) := by
  unfold checkUserPtr
  split
  · next answer => exact .inr ⟨by simp [answer], by simp [stop], rfl⟩
  · next answer => exact .inl ⟨answer, rfl⟩
  · next answer => exact .inr ⟨by simp [answer], by simp, rfl⟩

theorem checkUserPtr_guarded {earlier : List UserAccess} {len : Word} :
    Guarded validated earlier (checkUserPtr p ptr len mode) := by
  rcases checkUserPtr_cases p ptr len mode with ⟨_, passed⟩ | ⟨_, _, silent⟩
  · rw [passed]
    exact .single rfl trivial
  · exact .silent silent

/-- A check and then, if it passes, only accesses to what was checked. -/
theorem validated_of_shows {earlier : List UserAccess} {len : Word} {f : Bool → Handler α}
    (touches : (f true).Shows (Touches ptr len.toNat mode)) (refuses : (f false).trace = []) :
    Guarded validated earlier (checkUserPtr p ptr len mode >>= f) := by
  refine checkUserPtr_guarded.bind ?_
  intro valid returned
  rcases checkUserPtr_cases p ptr len mode with ⟨_, passed⟩ | ⟨_, failed, _⟩
  · rw [passed] at returned ⊢
    obtain rfl : true = valid := Option.some.inj returned
    refine touches.guarded ?_
    intro event touched more
    exact touched.validated (List.mem_append_right _ (List.mem_singleton_self _)) more
  · cases valid with
    | false => exact .silent refuses
    | true => exact absurd returned failed

/-- All system calls but `SYS_EXEC` check what they touch. -/
theorem validated_of_not_exec (p : Paging) (services : Services) {regs : Registers} (other : regs.eax.toNat ≠ 7) :
    Validated (syscallHandler p services regs) := by
  unfold syscallHandler
  split
  · exact .pure _
  · exact validated_of_shows (writeLoop_shows (by omega)) rfl
  · exact validated_of_shows (readLoop_shows (by omega)) rfl
  · exact .pure _
  · exact .pure _
  · exact .pure _
  · refine Guarded.bind (.silent rfl) ?_
    intro ⟨result, status, q⟩ _
    dsimp only
    split
    · exact validated_of_shows ((copyToUser_shows (by decide)).bind fun _ _ => .pure _ _) rfl
    · exact .pure _
  · next exec => exact absurd exec other
  · exact validated_of_shows (msgSend_shows _ _) rfl
  · exact validated_of_shows (msgReceive_shows _ _) rfl
  · exact .pure _
  · exact .pure _
  · split
    · exact .pure _
    · exact .pure _
  · split
    · exact .pure _
    · exact validated_of_shows ((copyToUser_shows (by decide)).bind fun _ _ => .pure _ _) rfl
  · exact validated_of_shows (rtcReadTime_shows.bind fun _ _ => .pure _ _) rfl
  · exact validated_of_shows (rtcWriteTime_shows.bind fun _ _ => .pure _ _) rfl
  · exact .pure _

section Path

/-- The string at the address is empty, or the processor faults there. -/
def Blank (p : Paging) (path : Word) : Prop := ∀ byte, (loadUser p path).value = some byte → byte = 0

theorem loadPath_shows : (loadUser p path).Shows (Touches path 1 mode) := by
  intro event shown
  obtain rfl := List.mem_singleton.mp shown
  exact ⟨0, by decide, (BitVec.add_zero path).symm⟩

theorem strcmpUser_blank (blank : Blank p path) (s2 : List Byte) :
    (strcmpUser p path s2).Shows (Touches path 1 mode) := by
  cases s2 with
  | nil => exact loadPath_shows.bind fun _ _ => .pure _ _
  | cons d s2 =>
    refine loadPath_shows.bind ?_
    intro c returned
    rw [if_neg fun same => same.1 (blank c returned)]
    exact .pure _ _

theorem strncpyUser_blank (blank : Blank p path) (n : Nat) : (strncpyUser p path n).Shows (Touches path 1 mode) := by
  cases n with
  | zero => exact .pure _ _
  | succ n =>
    refine loadPath_shows.bind ?_
    intro c returned
    rw [if_pos (blank c returned)]
    exact .pure _ _

theorem formatUser_blank (blank : Blank p path) (room : Nat) : (formatUser p path room).Shows (Touches path 1 mode) := by
  cases room with
  | zero => exact loadPath_shows.bind fun _ _ => .pure _ _
  | succ room =>
    refine loadPath_shows.bind ?_
    intro c returned
    rw [if_pos (blank c returned)]
    exact .pure _ _

theorem resolvePath_blank (blank : Blank p path) (diskEnabled : Bool) :
    (resolvePath p diskEnabled path).Shows (Touches path 1 mode) := by
  unfold resolvePath
  split
  · refine (strcmpUser_blank blank _).bind ?_
    intro root _
    split
    · exact .pure _ _
    · exact strncpyUser_blank blank _
  · refine loadPath_shows.bind ?_
    intro c returned
    rw [if_pos (blank c returned)]
    exact .pure _ _

theorem elfLoadFile_blank (blank : Blank p path) : (elfLoadFile p services path).Shows (Touches path 1 mode) := by
  refine Shows.bind ?_ ?_
  · refine (resolvePath_blank blank _).bind ?_
    intro name _
    exact (ofOption_shows _ _).bind fun _ _ => .pure _ _
  · intro bytesRead _
    split
    · exact (formatUser_blank blank _).bind fun _ _ => .pure _ _
    · exact .pure _ _

variable {c : Byte}

/-- `strcmp` with "/" reads on behind a slash. -/
theorem strcmpUser_slash (first : (loadUser p path).value = some slash) :
    .read (path + 1) ∈ (strcmpUser p path [slash]).trace := by
  refine mem_bind_right first ?_
  rw [if_pos ⟨by decide, rfl⟩]
  exact mem_bind_left (List.mem_singleton_self _)

theorem strcmpUser_other (first : (loadUser p path).value = some c) (other : c ≠ slash) :
    (strcmpUser p path [slash]).value = some ((c.toNat : Int) - slash.toNat) := by
  rw [strcmpUser, (bind_returned first).1, if_neg fun same => other same.2]
  rfl

theorem strncpyUser_on (first : (loadUser p path).value = some c) (nonzero : c ≠ 0) (n : Nat) :
    .read (path + 1) ∈ (strncpyUser p path (n + 2)).trace := by
  refine mem_bind_right first ?_
  rw [if_neg nonzero]
  exact mem_bind_left (mem_bind_left (List.mem_singleton_self _))

theorem difference_ne_zero (other : c ≠ slash) : (c.toNat : Int) - slash.toNat ≠ 0 := by
  intro same
  apply other
  apply BitVec.eq_of_toNat_eq
  omega

/-- The path is read past its first byte whenever there is more of it. -/
theorem resolvePath_on (first : (loadUser p path).value = some c) (nonzero : c ≠ 0) (diskEnabled : Bool) :
    .read (path + 1) ∈ (resolvePath p diskEnabled path).trace := by
  unfold resolvePath
  split
  · by_cases root : c = slash
    · subst root
      exact mem_bind_left (strcmpUser_slash first)
    · refine mem_bind_right (strcmpUser_other first root) ?_
      rw [if_neg (difference_ne_zero root)]
      exact strncpyUser_on first nonzero _
  · refine mem_bind_right first ?_
    rw [if_neg nonzero]
    by_cases root : c = slash
    · subst root
      exact mem_bind_left (strcmpUser_slash first)
    · refine mem_bind_right (strcmpUser_other first root) ?_
      rw [if_neg (difference_ne_zero root)]
      refine mem_bind_right first ?_
      rw [if_neg nonzero]
      exact strncpyUser_on first nonzero _

end Path

section Unchecked

/-- The event is no check. -/
def Unchecked : UserAccess → Prop
  | .checked .. => False
  | _ => True

theorem loadUser_unchecked (address : Word) : (loadUser p address).Shows Unchecked := by
  intro event shown
  obtain rfl := List.mem_singleton.mp shown
  trivial

theorem strcmpUser_unchecked (s1 : Word) (s2 : List Byte) : (strcmpUser p s1 s2).Shows Unchecked := by
  induction s2 generalizing s1 with
  | nil => exact (loadUser_unchecked s1).bind fun _ _ => .pure _ _
  | cons d s2 ih =>
    refine (loadUser_unchecked s1).bind ?_
    intro c _
    split
    · exact ih _
    · exact .pure _ _

theorem strncpyUser_unchecked (src : Word) (n : Nat) : (strncpyUser p src n).Shows Unchecked := by
  induction n generalizing src with
  | zero => exact .pure _ _
  | succ n ih =>
    refine (loadUser_unchecked src).bind ?_
    intro c _
    split
    · exact .pure _ _
    · exact (ih _).bind fun _ _ => .pure _ _

theorem formatUser_unchecked (str : Word) (room : Nat) : (formatUser p str room).Shows Unchecked := by
  induction room generalizing str with
  | zero => exact (loadUser_unchecked str).bind fun _ _ => .pure _ _
  | succ room ih =>
    refine (loadUser_unchecked str).bind ?_
    intro c _
    split
    · exact .pure _ _
    · exact ih _

theorem resolvePath_unchecked (diskEnabled : Bool) : (resolvePath p diskEnabled path).Shows Unchecked := by
  have root (rest : Handler (List Byte)) (shows_none : rest.Shows Unchecked) :
      (strcmpUser p path [slash] >>= fun root => if root = 0 then pure [slash] else rest).Shows Unchecked := by
    refine (strcmpUser_unchecked _ _).bind ?_
    intro root _
    split
    · exact .pure _ _
    · exact shows_none
  unfold resolvePath
  split
  · exact root _ (strncpyUser_unchecked _ _)
  · refine (loadUser_unchecked _).bind ?_
    intro c _
    split
    · exact .pure _ _
    · apply root
      refine (loadUser_unchecked _).bind ?_
      intro c _
      split
      · exact .pure _ _
      · exact strncpyUser_unchecked _ _

theorem elfLoadFile_unchecked : (elfLoadFile p services path).Shows Unchecked := by
  refine Shows.bind ?_ ?_
  · refine (resolvePath_unchecked _).bind ?_
    intro name _
    exact (ofOption_shows _ _).bind fun _ _ => .pure _ _
  · intro bytesRead _
    split
    · exact (formatUser_unchecked _ _).bind fun _ _ => .pure _ _
    · exact .pure _ _

end Unchecked

/-- `SYS_EXEC` gets to a path that goes on after its first byte: the check of
that byte passes, a block for the new directory is free, and the processor then
finds a byte other than NUL. -/
structure ReadsOn (p : Paging) (regs : Registers) : Prop where
  exec : regs.eax = 7
  checked : p.toVmm.checkUserPtr regs.ebx 1 false = some true
  free : p.allocBlock.1 ≠ 0
  more : ¬ Blank p.createAddressSpace.2 regs.ebx

theorem createAddressSpace_fst (p : Paging) : p.createAddressSpace.1 = p.allocBlock.1 := by
  unfold Paging.createAddressSpace
  dsimp only
  split
  · next nothing => exact nothing.symm
  · split
    · rfl
    · rfl

theorem syscallHandler_exec {regs : Registers} (exec : regs.eax = 7) :
    syscallHandler p services regs = checkUserPtr p regs.ebx 1 false >>= fun valid =>
      if ¬ valid then pure (-1) else doExec p services regs.ebx := by
  have number : regs.eax.toNat = 7 := by
    rw [exec]
    rfl
  unfold syscallHandler
  rw [number]
  rfl

/-- The byte behind the path is read and only the first one was checked. -/
theorem not_validated_of_readsOn {regs : Registers} (on : ReadsOn p regs) :
    ¬ Validated (syscallHandler p services regs) := by
  have nonnull : regs.ebx ≠ 0 := by
    intro null
    have checked := on.checked
    rw [null] at checked
    cases checked
  have created : p.createAddressSpace.1 ≠ 0 := by
    rw [createAddressSpace_fst]
    exact on.free
  obtain ⟨c, first⟩ := Classical.not_forall.mp on.more
  obtain ⟨found, nonzero⟩ := Classical.not_imp.mp first
  have passed : checkUserPtr p regs.ebx 1 false = ⟨some true, [.checked regs.ebx 1 false]⟩ := by
    rcases checkUserPtr_cases p regs.ebx 1 false with ⟨_, passed⟩ | ⟨failed, _⟩
    · exact passed
    · exact absurd on.checked failed
  have runs : (syscallHandler p services regs).trace =
      .checked regs.ebx 1 false :: (elfLoadFile p.createAddressSpace.2 services regs.ebx).trace := by
    rw [syscallHandler_exec on.exec, passed, (bind_returned rfl).2]
    simp only [not_true_eq_false, ↓reduceIte, doExec, nonnull, created]
    rfl
  have reads : .read (regs.ebx + 1) ∈ (syscallHandler p services regs).trace := by
    rw [runs]
    exact List.mem_cons_of_mem _ (mem_bind_left (mem_bind_left (resolvePath_on found nonzero _)))
  intro guarded
  obtain ⟨front, within, ptr, len, mode, before, _, i, inside, address⟩ := guarded.permits_mem reads
  have listed := within _ (by simpa using before)
  rw [runs, List.mem_cons] at listed
  rcases listed with same | other
  · obtain ⟨rfl, rfl, rfl⟩ := UserAccess.checked.inj same
    have zero : i = 0 := by
      have one : (1 : Word).toNat = 1 := rfl
      omega
    rw [zero] at address
    bv_omega
  · exact elfLoadFile_unchecked _ other

theorem validated_of_not_readsOn {regs : Registers} (off : ¬ ReadsOn p regs) :
    Validated (syscallHandler p services regs) := by
  by_cases exec : regs.eax = 7
  · rw [syscallHandler_exec exec]
    refine checkUserPtr_guarded.bind ?_
    intro valid returned
    rcases checkUserPtr_cases p regs.ebx 1 false with ⟨checked, passed⟩ | ⟨_, failed, _⟩
    · rw [passed] at returned ⊢
      obtain rfl : true = valid := Option.some.inj returned
      have touches : (doExec p services regs.ebx).Shows (Touches regs.ebx (1 : Word).toNat false) := by
        unfold doExec
        split
        · exact .pure _ _
        · dsimp only
          split
          · exact .pure _ _
          · next created =>
            rw [createAddressSpace_fst] at created
            apply elfLoadFile_blank
            apply Classical.byContradiction
            intro more
            exact off ⟨exec, checked, created, more⟩
      refine touches.guarded ?_
      intro event touched more
      exact touched.validated (List.mem_append_right _ (List.mem_singleton_self _)) more
    · cases valid with
      | false => exact .silent rfl
      | true => exact absurd returned failed
  · apply validated_of_not_exec
    intro number
    apply exec
    apply BitVec.eq_of_toNat_eq
    exact number

/-- Every access to the memory of the caller stands behind a check of its
address unless `SYS_EXEC` goes past the one byte of the path that it checks. -/
theorem user_accesses_validated_iff (p : Paging) (services : Services) (regs : Registers) :
    Validated (syscallHandler p services regs) ↔ ¬ ReadsOn p regs := by
  constructor
  · intro valid on
    exact not_validated_of_readsOn on valid
  · exact validated_of_not_readsOn

/-- The kernel's directory is at 0x4000. The one at 0x2000, with a table at
0x3000, maps one page of the user, that at 0x5000. Its last byte is an `a`; the
word at 1 MiB is the bitmap. -/
def pathMachine : Paging where
  mem := storeWords (fun place => if place = 0x5FFF then 97 else 0)
    [(0x100000, 0x3D), (0x2000, 0x3007), (0x3014, 0x5007)]
  kernelDirectory := 0x4000
  currentDirectory := 0x2000
  kernelDirectoryPhys := 0x4000
  bitmapAddr := 0x100000
  bitmapSize := 4
  memorySize := 0x20000
  usedBlocks := 5
  maxBlocks := 32
  cr3 := 0x2000
  paging := true
  trace := []
  direct := .inr (.inl (by decide))
  blocks := by decide

/-- No file, no port and no device. -/
def noServices : Services where
  files := FileSystem.init (Diskfs.uniform 0)
  ambient := Ambient.zero
  fileBuffer := Bytes.zero
  loaded := -1
  current := some 1
  putchar := fun _ p => p
  keyboard := []
  fork := -1
  wait := fun _ => none
  portCreate := fun _ => -1
  portDestroy := fun _ => -1
  port := fun _ => false
  slot := fun _ _ => none
  message := fun _ _ => none
  vesa := none
  steady := true
  binary := true
  time := fun _ => 0

/-- With a path at the end of the last page of the caller, `SYS_EXEC` reads from
the page behind it, which is not mapped. -/
theorem exec_path_not_validated :
    ¬ Validated (syscallHandler pathMachine noServices ⟨7, 0x5FFF, 0, 0⟩) ∧ pathMachine.walk 0x6000 = none := by
  refine ⟨not_validated_of_readsOn ⟨rfl, ?_, ?_, ?_⟩, ?_⟩
  · decide +kernel
  · decide +kernel
  · intro blank
    have first : (loadUser pathMachine.createAddressSpace.2 0x5FFF).value = some 97 := by decide +kernel
    have zero := blank 97 first
    cases zero
  · decide +kernel

end Handler

end MexOS.Core
