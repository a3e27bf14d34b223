import Mathlib.Data.List.Induction
import MexOS.Machine.RingBuffer
import MexOS.Ui.VtermState

/-! The handler of the keyboard interrupt (`keyboard.c`) over the terminals. -/

namespace MexOS.Drivers

open MexOS.Machine MexOS.Ui

/-- The statics of `keyboard.c`, and the terminals. -/
structure Keyboard where
  keyBuffer : RingBuffer Byte
  shiftPressed : Byte
  extendedScancode : Byte
  terminals : Terminals

def scancodeAscii : List Char :=
  ['\x00', '\x1b', '1', '2', '3', '4', '5', '6', '7', '8', '9', '0', '-', '=', '\x08',
    '\t', 'q', 'w', 'e', 'r', 't', 'y', 'u', 'i', 'o', 'p', '[', ']', '\n',
    '\x00', 'a', 's', 'd', 'f', 'g', 'h', 'j', 'k', 'l', ';', '\x27', '\x60',
    '\x00', '\\', 'z', 'x', 'c', 'v', 'b', 'n', 'm', ',', '.', '/', '\x00',
    '*', '\x00', ' ', '\x00']

def scancodeShift : List Char :=
  ['\x00', '\x1b', '!', '@', '#', '$', '%', '^', '&', '*', '(', ')', '_', '+', '\x08',
    '\t', 'Q', 'W', 'E', 'R', 'T', 'Y', 'U', 'I', 'O', 'P', '\x7b', '\x7d', '\n',
    '\x00', 'A', 'S', 'D', 'F', 'G', 'H', 'J', 'K', 'L', ':', '\x22', '~',
    '\x00', '|', 'Z', 'X', 'C', 'V', 'B', 'N', 'M', '<', '>', '?', '\x00',
    '*', '\x00', ' ', '\x00']

/-- The code stored for a cursor key; 0 is none of them. -/
def specialKey (scancode : Byte) : Byte :=
  if scancode = 0x48 then 0x80
  else if scancode = 0x50 then 0x81
  else if scancode = 0x4B then 0x82
  else if scancode = 0x47 then 0x84
  else if scancode = 0x4F then 0x85
  else 0

namespace Keyboard

/-- After `vterm_init` and `keyboard_init`; the statics start as zeros. -/
def reset (vga : Cells) (cursor : BitVec 16) : Option Keyboard :=
  let vterm : Vterm := ⟨fun _ => 0, 0, 0, 0, 0, 0, false⟩
  (Terminals.init ⟨fun _ => vterm, 0, 0, vga, cursor⟩).map fun terminals => ⟨⟨fun _ => 0, 0, 0, 256⟩, 0, 0, terminals⟩

/-- A key that does not fit is dropped. -/
def store (k : Keyboard) (c : Byte) : Keyboard :=
  if k.keyBuffer.next k.keyBuffer.tail = k.keyBuffer.head then k else { k with keyBuffer := k.keyBuffer.push c }

/-- The end of the handler; `none` is a read outside a table. -/
def translate (k : Keyboard) (scancode : Byte) : Option Keyboard :=
  if scancode.toNat < scancodeAscii.length then
    let table := if k.shiftPressed ≠ 0 then scancodeShift else scancodeAscii
    table[scancode.toNat]?.map fun c => if c.toNat ≠ 0 then k.store (BitVec.ofNat 8 c.toNat) else k
  else some k

def pass (k : Keyboard) (scancode : Byte) : Option Keyboard := do
  let (handled, terminals) ← k.terminals.handleSwitch scancode
  let k := { k with terminals }
  if handled then return k else k.translate scancode

def callback (k : Keyboard) (scancode : Byte) : Option Keyboard :=
  if scancode = 0xE0 then some { k with extendedScancode := 1 }
  else if scancode = 0x2A ∨ scancode = 0x36 then some { k with shiftPressed := 1, extendedScancode := 0 }
  else if scancode = 0xAA ∨ scancode = 0xB6 then some { k with shiftPressed := 0, extendedScancode := 0 }
  else if scancode &&& 0x80 ≠ 0 then some { k with extendedScancode := 0 }
  else if k.extendedScancode ≠ 0 then
    let k := { k with extendedScancode := 0 }
    if specialKey scancode ≠ 0 then some (k.store (specialKey scancode)) else k.pass scancode
  else k.pass scancode

/-- The indices of the key buffer and the terminals are in range. -/
structure Ready (k : Keyboard) : Prop where
  valid : k.keyBuffer.Valid
  size : k.keyBuffer.size = 256
  sound : k.terminals.Sound

/-- What a scancode does to the terminals: an Alt break code never gets to them. -/
structure Handled (k : Keyboard) (scancode : Byte) (after : Keyboard) : Prop where
  ready : Ready after
  altPressed : after.terminals.altPressed = if scancode = 0x38 then 1 else k.terminals.altPressed
  active : after.terminals.active ≠ k.terminals.active →
    k.terminals.altPressed ≠ 0 ∧ (Terminals.functionKey scancode).isSome

variable {k : Keyboard}

theorem reset_ready (vga : Cells) (cursor : BitVec 16) : ∃ start, reset vga cursor = some start ∧ Ready start ∧
    start.terminals.altPressed = 0 ∧ start.terminals.active = 0 := by
  obtain ⟨terminals, started, sound, alt, active⟩ := Terminals.init_sound
    ⟨fun _ => ⟨fun _ => 0, 0, 0, 0, 0, 0, false⟩, 0, 0, vga, cursor⟩
  refine ⟨_, by rw [reset, started, Option.map_some], ⟨⟨?_, ?_⟩, rfl, sound⟩, alt, active⟩
  · exact Nat.zero_lt_succ _
  · exact Nat.zero_lt_succ _

theorem Ready.store (ready : Ready k) (c : Byte) : Ready (k.store c) ∧ (k.store c).terminals = k.terminals := by
  rw [Keyboard.store]
  split
  · exact ⟨ready, rfl⟩
  · exact ⟨⟨ready.valid.push_valid c, ready.size, ready.sound⟩, rfl⟩

/-- Both tables hold the scancodes that are looked up. -/
theorem Ready.translate (ready : Ready k) (scancode : Byte) :
    ∃ after, k.translate scancode = some after ∧ Ready after ∧ after.terminals = k.terminals := by
  rw [Keyboard.translate]
  split
  · next inside =>
    have held : scancode.toNat < (if k.shiftPressed ≠ 0 then scancodeShift else scancodeAscii).length := by
      split <;> exact inside
    dsimp only
    generalize (if k.shiftPressed ≠ 0 then scancodeShift else scancodeAscii) = table at held ⊢
    rw [List.getElem?_eq_getElem held, Option.map_some]
    refine ⟨_, rfl, ?_⟩
    split
    · exact ready.store _
    · exact ⟨ready, rfl⟩
  · exact ⟨k, rfl, ready, rfl⟩

/-- Whether the terminals take the key or not, they are what they made of it. -/
theorem Ready.passOn (ready : Ready k) {scancode : Byte} {handled : Bool} {terminals : Terminals}
    (result : k.terminals.handleSwitch scancode = some (handled, terminals)) (sound : terminals.Sound) :
    ∃ after, k.pass scancode = some after ∧ Ready after ∧ after.terminals = terminals := by
  have next : Ready { k with terminals } := ⟨ready.valid, ready.size, sound⟩
  rw [Keyboard.pass, result, Option.bind_eq_bind, Option.bind_some]
  dsimp only
  split
  · exact ⟨_, rfl, next, rfl⟩
  · exact next.translate scancode

theorem Ready.pass (ready : Ready k) {scancode : Byte} (make : scancode ≠ 0xB8) :
    ∃ after, k.pass scancode = some after ∧ Handled k scancode after := by
  obtain ⟨handled, terminals, result, sound, alt, active⟩ := ready.sound.handleSwitch scancode
  rw [if_neg make] at alt
  obtain ⟨after, done, last, same⟩ := ready.passOn result sound
  refine ⟨after, done, last, ?_, ?_⟩
  · rw [same]
    exact alt
  · rw [same]
    exact active

/-- The handler returns on every scancode. -/
theorem Ready.callback (ready : Ready k) (scancode : Byte) :
    ∃ after, k.callback scancode = some after ∧ Handled k scancode after := by
  have stay {after : Keyboard} (next : Ready after) (same : after.terminals = k.terminals) (other : scancode ≠ 0x38) :
      Handled k scancode after := by
    refine ⟨next, ?_, ?_⟩
    · rw [same, if_neg other]
    · intro moved
      rw [same] at moved
      exact absurd rfl moved
  have plain (shift extended : Byte) :
      Ready { k with shiftPressed := shift, extendedScancode := extended } := ⟨ready.valid, ready.size, ready.sound⟩
  rw [Keyboard.callback]
  split
  · next code => exact ⟨_, rfl, stay (plain _ _) rfl (by rw [code]; decide)⟩
  · split
    · next code => exact ⟨_, rfl, stay (plain _ _) rfl (by rcases code with code | code <;> rw [code] <;> decide)⟩
    · split
      · next code => exact ⟨_, rfl, stay (plain _ _) rfl (by rcases code with code | code <;> rw [code] <;> decide)⟩
      · split
        · next release => exact ⟨_, rfl, stay (plain _ _) rfl fun code => release (by rw [code]; decide)⟩
        · next press =>
          have make : scancode ≠ 0xB8 := fun code => press (by rw [code]; decide)
          split
          · dsimp only
            split
            · next special =>
              have stored := (plain k.shiftPressed 0).store (specialKey scancode)
              exact ⟨_, rfl, stay stored.1 stored.2 fun code => special (by rw [code]; decide)⟩
            · obtain ⟨after, done, next, alt, active⟩ := (plain k.shiftPressed 0).pass make
              exact ⟨after, done, next, alt, active⟩
          · exact ready.pass make

theorem Ready.callback_select (ready : Ready k) (held : k.terminals.altPressed ≠ 0) (plain : k.extendedScancode = 0) :
    ∃ after, k.callback 0x3C = some after ∧ after.terminals.active.val = 1 := by
  obtain ⟨handled, terminals, result, sound, _⟩ := ready.sound.handleSwitch 0x3C
  have key : Terminals.functionKey 0x3C = some 1 := rfl
  obtain ⟨_, other, again, active⟩ := ready.sound.handleSwitch_select held key (by decide)
  obtain ⟨after, done, _, same⟩ := ready.passOn result sound
  refine ⟨after, ?_, ?_⟩
  · rw [Keyboard.callback, plain]
    exact done
  · obtain ⟨_, rfl⟩ := Prod.mk.inj (Option.some.inj (result.symm.trans again))
    rw [same, active]
    rfl

/-- Alt is held from the first make code on. -/
theorem Ready.stream (ready : Ready k) (stream : List Byte) : ∃ after, stream.foldlM Keyboard.callback k = some after ∧
    Ready after ∧ after.terminals.altPressed = if 0x38 ∈ stream then 1 else k.terminals.altPressed := by
  induction stream generalizing k with
  | nil => exact ⟨k, rfl, ready, rfl⟩
  | cons code rest ih =>
    obtain ⟨middle, first, handled⟩ := ready.callback code
    obtain ⟨after, later, last, alt⟩ := ih handled.ready
    refine ⟨after, ?_, last, ?_⟩
    · rw [List.foldlM_cons, first]
      exact later
    · rw [alt, handled.altPressed]
      by_cases make : code = 0x38
      · rw [if_pos make, ite_self, if_pos (List.mem_cons.mpr (.inl make.symm))]
      · have others : 0x38 ∈ code :: rest ↔ 0x38 ∈ rest := List.mem_cons.trans (or_iff_right (Ne.symm make))
        rw [if_neg make]
        exact if_congr others.symm rfl rfl

end Keyboard

/-- The make and the break code of Alt. -/
def isAlt (code : Byte) : Bool := code = 0x38 ∨ code = 0xB8

theorem isAlt_iff {code : Byte} : isAlt code = true ↔ code = 0x38 ∨ code = 0xB8 := decide_eq_true_iff

def lastAlt (stream : List Byte) : Option Byte := (stream.filter isAlt).getLast?

theorem lastAlt_append (front : List Byte) (code : Byte) :
    lastAlt (front ++ [code]) = if isAlt code then some code else lastAlt front := by
  rw [lastAlt, List.filter_append]
  by_cases alt : isAlt code
  · simp [alt]
  · simp [alt, lastAlt]

/-- No break code of Alt comes after a make code. -/
def NeverReleased (stream : List Byte) : Prop := ∀ front rest, stream = front ++ 0xB8 :: rest → 0x38 ∉ front

theorem NeverReleased.prefix_ {front stream : List Byte} (never : NeverReleased stream) (start : front <+: stream) :
    NeverReleased front := by
  obtain ⟨rest, rfl⟩ := start
  rintro first last rfl
  exact never first (last ++ rest) (by simp)

theorem NeverReleased.lastAlt {stream : List Byte} (never : NeverReleased stream) :
    lastAlt stream = some 0x38 ↔ 0x38 ∈ stream := by
  induction stream using List.reverseRecOn with
  | nil => simp [Drivers.lastAlt]
  | append_singleton front code ih =>
    rw [lastAlt_append, List.mem_append, List.mem_singleton]
    have earlier := ih (never.prefix_ (List.prefix_append _ _))
    by_cases alt : code = 0x38 ∨ code = 0xB8
    · rw [if_pos (isAlt_iff.mpr alt), Option.some.injEq]
      rcases alt with rfl | rfl
      · exact ⟨fun _ => .inr rfl, fun _ => rfl⟩
      · exact ⟨fun other => absurd other (by decide), fun held => absurd (held.resolve_right (by decide)) (never front [] rfl)⟩
    · obtain ⟨make, _⟩ := not_or.mp alt
      rw [if_neg (isAlt_iff.not.mpr alt), earlier]
      exact ⟨.inl, fun held => held.resolve_right fun same => make same.symm⟩

/-- Along the stream `alt_pressed` says whether Alt is held, and a function key
takes the terminal only while it is. -/
def AltFollows (start : Keyboard) (stream : List Byte) : Prop :=
  (∀ front, front <+: stream → ∃ k, front.foldlM Keyboard.callback start = some k ∧
    (k.terminals.altPressed = 1 ↔ lastAlt front = some 0x38)) ∧
  ∀ front code, front ++ [code] <+: stream → ∃ before after, front.foldlM Keyboard.callback start = some before ∧
    before.callback code = some after ∧ (after.terminals.active ≠ before.terminals.active →
      (Terminals.functionKey code).isSome ∧ lastAlt front = some 0x38)

/-- The handler drops break codes before the terminals see them, so that Alt
stays held. -/
theorem alt_follows_iff (vga : Cells) (cursor : BitVec 16) (stream : List Byte) :
    ∃ start, Keyboard.reset vga cursor = some start ∧ (AltFollows start stream ↔ NeverReleased stream) := by
  obtain ⟨start, started, ready, zero, _⟩ := Keyboard.reset_ready vga cursor
  refine ⟨start, started, ?_, ?_⟩
  · rintro ⟨follows, _⟩ front rest rfl held
    have released : front ++ [0xB8] <+: front ++ 0xB8 :: rest := ⟨rest, by simp⟩
    obtain ⟨k, run, alt⟩ := follows _ released
    obtain ⟨after, ran, _, value⟩ := ready.stream (front ++ [0xB8])
    obtain rfl := Option.some.inj (run.symm.trans ran)
    rw [if_pos (List.mem_append_left _ held)] at value
    have last := alt.mp value
    rw [lastAlt_append, if_pos (isAlt_iff.mpr (.inr rfl)), Option.some.injEq] at last
    exact absurd last (by decide)
  · intro never
    have held {front : List Byte} {k : Keyboard}
        (value : k.terminals.altPressed = if 0x38 ∈ front then 1 else start.terminals.altPressed) :
        (k.terminals.altPressed = 1 ↔ 0x38 ∈ front) ∧ (k.terminals.altPressed ≠ 0 → 0x38 ∈ front) := by
      rw [value, zero]
      by_cases present : 0x38 ∈ front
      · rw [if_pos present]
        exact ⟨⟨fun _ => present, fun _ => rfl⟩, fun _ => present⟩
      · rw [if_neg present]
        exact ⟨⟨fun one => absurd one (by decide), fun here => absurd here present⟩, fun other => absurd rfl other⟩
    constructor
    · intro front inside
      obtain ⟨k, ran, _, value⟩ := ready.stream front
      exact ⟨k, ran, (held value).1.trans (never.prefix_ inside).lastAlt.symm⟩
    · intro front code inside
      obtain ⟨before, ran, next, value⟩ := ready.stream front
      obtain ⟨after, done, handled⟩ := next.callback code
      refine ⟨before, after, ran, done, fun moved => ?_⟩
      obtain ⟨alt, key⟩ := handled.active moved
      have earlier := never.prefix_ ((List.prefix_append front [code]).trans inside)
      exact ⟨key, earlier.lastAlt.mpr ((held value).2 alt)⟩

/-- With Alt pressed and released, F2 still takes the terminal. -/
theorem alt_follows_fails : ∃ start after, Keyboard.reset (fun _ => 0) 0 = some start ∧
    [0x38, 0xB8, 0x3C].foldlM Keyboard.callback start = some after ∧ start.terminals.active = 0 ∧
    after.terminals.active = 1 ∧ lastAlt [0x38, 0xB8] = some 0xB8 ∧ ¬ AltFollows start [0x38, 0xB8, 0x3C] := by
  obtain ⟨start, started, ready, _, active⟩ := Keyboard.reset_ready (fun _ => 0) 0
  have taken : ∃ middle, [0x38, 0xB8].foldlM Keyboard.callback start = some middle ∧ middle.Ready ∧
      middle.terminals.altPressed = 1 ∧ middle.extendedScancode = 0 := by
    obtain ⟨pressed, ran, next, alt⟩ := ready.stream [0x38]
    refine ⟨{ pressed with extendedScancode := 0 }, ?_, ⟨next.valid, next.size, next.sound⟩, alt, rfl⟩
    rw [show [0x38, 0xB8] = [0x38] ++ [(0xB8 : Byte)] from rfl, List.foldlM_append, ran]
    rfl
  obtain ⟨middle, ran, next, alt, plain⟩ := taken
  obtain ⟨after, done, switched⟩ := next.callback_select (by rw [alt]; decide) plain
  refine ⟨start, after, started, ?_, active, Fin.ext switched, rfl, ?_⟩
  · rw [show [0x38, 0xB8, 0x3C] = [0x38, 0xB8] ++ [(0x3C : Byte)] from rfl, List.foldlM_append, ran]
    exact congrArg (fun last => last.bind some) done
  · rintro ⟨follows, _⟩
    obtain ⟨k, again, claimed⟩ := follows [0x38, 0xB8] ⟨[0x3C], rfl⟩
    obtain rfl := Option.some.inj (again.symm.trans ran)
    exact absurd (claimed.mp alt) (by decide)

end MexOS.Drivers
