import MexOS.Drivers.Keyboard

/-! `keyboard_getchar` by its steps, with keyboard interrupts between any two. -/

namespace MexOS.Drivers

open MexOS.Machine MexOS.Ui

namespace Keyboard

/-- The character of a scancode in the table of the moment. -/
def character (k : Keyboard) (scancode : Byte) : Option Byte :=
  match (if k.shiftPressed ≠ 0 then scancodeShift else scancodeAscii)[scancode.toNat]? with
  | some c => if c.toNat ≠ 0 then some (BitVec.ofNat 8 c.toNat) else none
  | none => none

/-- The key that a scancode stands for; those of the terminals and the break
codes stand for none. -/
def typed (k : Keyboard) (scancode : Byte) : Option Byte :=
  if scancode &&& 0x80 ≠ 0 ∨ scancode = 0x2A ∨ scancode = 0x36 then none
  else if k.extendedScancode ≠ 0 ∧ specialKey scancode ≠ 0 then some (specialKey scancode)
  else match k.terminals.handleSwitch scancode with
    | some (false, _) => k.character scancode
    | _ => none

def pending (k : Keyboard) : List Byte := k.keyBuffer.contents

/-- One place of the buffer stays free. -/
def admits (k : Keyboard) : Bool := decide (k.pending.length < 255)

/-- The buffer after a key, if there is one. -/
def keep (k : Keyboard) (key : Option Byte) : RingBuffer Byte :=
  match key with
  | some c => (k.store c).keyBuffer
  | none => k.keyBuffer

variable {k : Keyboard}

theorem Ready.store_pending (ready : Ready k) (c : Byte) :
    (k.store c).pending = if k.admits then k.pending ++ [c] else k.pending := by
  have full := ready.valid.full_iff
  rw [ready.size] at full
  have bound := ready.valid.length_lt
  rw [ready.size] at bound
  rw [Keyboard.store, admits]
  by_cases last : k.keyBuffer.next k.keyBuffer.tail = k.keyBuffer.head
  · have length := full.mp last
    rw [if_pos last, if_neg (by rw [pending, length]; decide)]
  · have length : ¬ k.keyBuffer.contents.length = 256 - 1 := mt full.mpr last
    have room : k.pending.length < 255 := by
      rw [pending]
      omega
    rw [if_neg last, if_pos (decide_eq_true room)]
    exact ready.valid.contents_push c last

theorem head_store (k : Keyboard) (c : Byte) : (k.store c).keyBuffer.head = k.keyBuffer.head := by
  rw [Keyboard.store]
  split <;> rfl

theorem keep_congr (other k : Keyboard) (same : other.keyBuffer = k.keyBuffer) (key : Option Byte) : other.keep key = k.keep key := by
  cases key with
  | none => exact same
  | some c =>
    simp only [keep, Keyboard.store, same]
    split
    · exact same
    · rfl

theorem Ready.translate_keyBuffer (ready : Ready k) (scancode : Byte) :
    ∃ after, k.translate scancode = some after ∧ Ready after ∧ after.keyBuffer = k.keep (k.character scancode) := by
  obtain ⟨after, done, next, _⟩ := ready.translate scancode
  refine ⟨after, done, next, ?_⟩
  rw [Keyboard.translate] at done
  rw [character]
  split at done
  · next inside =>
    have held : scancode.toNat < (if k.shiftPressed ≠ 0 then scancodeShift else scancodeAscii).length := by
      split <;> exact inside
    dsimp only at done
    generalize (if k.shiftPressed ≠ 0 then scancodeShift else scancodeAscii) = table at held done ⊢
    rw [List.getElem?_eq_getElem held, Option.map_some] at done
    rw [List.getElem?_eq_getElem held, ← Option.some.inj done]
    dsimp only
    split <;> rfl
  · next outside =>
    have beyond : (if k.shiftPressed ≠ 0 then scancodeShift else scancodeAscii).length ≤ scancode.toNat := by
      split <;> exact Nat.le_of_not_lt outside
    rw [List.getElem?_eq_none beyond, ← Option.some.inj done]
    rfl

theorem Ready.pass_keyBuffer (ready : Ready k) (scancode : Byte) : ∃ after, k.pass scancode = some after ∧ Ready after ∧
    after.keyBuffer = k.keep (match k.terminals.handleSwitch scancode with
      | some (false, _) => k.character scancode
      | _ => none) := by
  obtain ⟨handled, terminals, result, sound, _⟩ := ready.sound.handleSwitch scancode
  have next : Ready { k with terminals } := ⟨ready.valid, ready.size, sound⟩
  rw [Keyboard.pass, result, Option.bind_eq_bind, Option.bind_some]
  cases handled with
  | true => exact ⟨{ k with terminals }, rfl, next, rfl⟩
  | false =>
    obtain ⟨after, done, last, buffer⟩ := next.translate_keyBuffer scancode
    exact ⟨after, done, last, buffer.trans (keep_congr { k with terminals } k rfl _)⟩

/-- The handler stores the key that the scancode stands for, and nothing else. -/
theorem Ready.callback_keyBuffer (ready : Ready k) (scancode : Byte) :
    ∃ after, k.callback scancode = some after ∧ Ready after ∧ after.keyBuffer = k.keep (k.typed scancode) := by
  have plain (shift extended : Byte) :
      Ready { k with shiftPressed := shift, extendedScancode := extended } := ⟨ready.valid, ready.size, ready.sound⟩
  rw [Keyboard.callback, typed]
  split
  · next code => exact ⟨_, rfl, plain _ _, by rw [if_pos (.inl (by rw [code]; decide))]; rfl⟩
  · split
    · next code => exact ⟨_, rfl, plain _ _, by rw [if_pos (.inr code)]; rfl⟩
    · split
      · next code =>
        refine ⟨_, rfl, plain _ _, ?_⟩
        rw [if_pos (.inl (by rcases code with code | code <;> rw [code] <;> decide))]
        rfl
      · split
        · next release => exact ⟨_, rfl, plain _ _, by rw [if_pos (.inl release)]; rfl⟩
        · next shift _ press =>
          rw [if_neg (not_or.mpr ⟨press, shift⟩)]
          split
          · next extended =>
            dsimp only
            split
            · next special =>
              rw [if_pos ⟨extended, special⟩]
              exact ⟨_, rfl, ((plain k.shiftPressed 0).store _).1, keep_congr { k with extendedScancode := 0 } k rfl (some _)⟩
            · next ordinary =>
              rw [if_neg fun both => ordinary both.2]
              obtain ⟨after, done, last, buffer⟩ := (plain k.shiftPressed 0).pass_keyBuffer scancode
              exact ⟨after, done, last, buffer.trans (keep_congr { k with extendedScancode := 0 } k rfl _)⟩
          · next simple =>
            rw [if_neg fun both => simple both.1]
            exact ready.pass_keyBuffer scancode

/-- What one interrupt does to the keys that wait. -/
theorem Ready.callback_pending (ready : Ready k) (scancode : Byte) : ∃ after, k.callback scancode = some after ∧ Ready after ∧
    after.keyBuffer.head = k.keyBuffer.head ∧
    after.pending = k.pending ++ if k.admits then (k.typed scancode).toList else [] := by
  obtain ⟨after, done, last, buffer⟩ := ready.callback_keyBuffer scancode
  refine ⟨after, done, last, ?_, ?_⟩
  · rw [buffer]
    cases k.typed scancode with
    | none => rfl
    | some c => exact head_store ..
  · rw [pending, buffer]
    cases k.typed scancode with
    | none =>
      change k.pending = _
      simp
    | some c =>
      refine (ready.store_pending c).trans ?_
      split <;> simp

end Keyboard

/-- Where a call of `keyboard_getchar` is: before it has seen a key, behind its
loop, with the key read, and with the next head computed. -/
inductive Reader where
  | waiting
  | found
  | loaded (c : Byte)
  | advancing (c : Byte) (head : Nat)

/-- The keyboard and the one call that reads from it; `returned` and `admitted`
only record. -/
structure Reading where
  keyboard : Keyboard
  reader : Reader
  returned : List Byte
  admitted : List Byte

inductive KeyboardEvent where
  | interrupt (scancode : Byte)
  | read

namespace Reading

/-- One step of the call; after its return it is called again. -/
def read (r : Reading) : Reading :=
  let buffer := r.keyboard.keyBuffer
  match r.reader with
  | .waiting => if buffer.head = buffer.tail then r else { r with reader := .found }
  | .found => { r with reader := .loaded (buffer.slots buffer.head) }
  | .loaded c => { r with reader := .advancing c (buffer.next buffer.head) }
  | .advancing c head =>
    { r with keyboard := { r.keyboard with keyBuffer := { buffer with head } }, reader := .waiting, returned := r.returned ++ [c] }

def step (r : Reading) : KeyboardEvent → Option Reading
  | .interrupt scancode => (r.keyboard.callback scancode).map fun keyboard =>
      { r with keyboard, admitted := r.admitted ++ if r.keyboard.admits then (r.keyboard.typed scancode).toList else [] }
  | .read => some r.read

/-- What is admitted is what was returned and then what waits; the call in its
middle holds the first that waits. -/
structure Ordered (r : Reading) : Prop where
  ready : r.keyboard.Ready
  order : r.returned ++ r.keyboard.pending = r.admitted
  reader : match r.reader with
    | .waiting => True
    | .found => r.keyboard.pending ≠ []
    | .loaded c => r.keyboard.pending.head? = some c
    | .advancing c head => r.keyboard.pending.head? = some c ∧ head = r.keyboard.keyBuffer.next r.keyboard.keyBuffer.head

variable {r : Reading}

theorem Ordered.interrupt (ordered : Ordered r) (scancode : Byte) :
    ∃ after, r.step (.interrupt scancode) = some after ∧ Ordered after := by
  obtain ⟨keyboard, done, ready, head, pending⟩ := ordered.ready.callback_pending scancode
  refine ⟨_, by rw [step, done, Option.map_some], ready, ?_, ?_⟩
  · rw [pending, ← List.append_assoc, ordered.order]
  · have kept {c : Byte} (first : r.keyboard.pending.head? = some c) : keyboard.pending.head? = some c := by
      rw [pending, List.head?_append, first, Option.some_or]
    have reader := ordered.reader
    cases place : r.reader with
    | waiting => trivial
    | found =>
      rw [place] at reader
      change keyboard.pending ≠ []
      rw [pending]
      exact List.append_ne_nil_of_left_ne_nil reader _
    | loaded c =>
      rw [place] at reader
      exact kept reader
    | advancing c next =>
      rw [place] at reader
      refine ⟨kept reader.1, reader.2.trans ?_⟩
      rw [RingBuffer.next, RingBuffer.next, head, ordered.ready.size, ready.size]

theorem Ordered.read (ordered : Ordered r) : Ordered r.read := by
  obtain ⟨ready, order, reader⟩ := ordered
  have popped := ready.valid.contents_pop
  rw [Reading.read]
  cases place : r.reader with
  | waiting =>
    dsimp only
    split
    · exact ⟨ready, order, reader⟩
    · next filled => exact ⟨ready, order, mt ready.valid.contents_eq_nil.mp filled⟩
  | found =>
    rw [place] at reader
    have filled : r.keyboard.keyBuffer.head ≠ r.keyboard.keyBuffer.tail := mt ready.valid.contents_eq_nil.mpr reader
    refine ⟨ready, order, ?_⟩
    change r.keyboard.keyBuffer.contents.head? = _
    rw [popped filled, List.head?_cons]
  | loaded c =>
    rw [place] at reader
    exact ⟨ready, order, reader, rfl⟩
  | advancing c next =>
    rw [place] at reader
    obtain ⟨first, rfl⟩ := reader
    have filled : r.keyboard.keyBuffer.head ≠ r.keyboard.keyBuffer.tail := by
      intro same
      have empty := ready.valid.contents_eq_nil.mpr same
      rw [Keyboard.pending, empty] at first
      cases first
    have taken := popped filled
    rw [Keyboard.pending, taken, List.head?_cons, Option.some.injEq] at first
    refine ⟨⟨ready.valid.pop_valid, ready.size, ready.sound⟩, ?_, trivial⟩
    rw [← order, Keyboard.pending, Keyboard.pending, taken, first, List.append_assoc]
    rfl

/-- Interrupts between the steps of the reader neither lose nor double a key nor
change the order: what has been returned and what waits are the keys admitted,
and a key is admitted unless 255 wait. -/
theorem reader_in_order (vga : Cells) (cursor : BitVec 16) (events : List KeyboardEvent) :
    ∃ start after, Keyboard.reset vga cursor = some start ∧
      events.foldlM step ⟨start, .waiting, [], []⟩ = some after ∧ after.returned ++ after.keyboard.pending = after.admitted ∧
      after.keyboard.pending.length ≤ 255 := by
  obtain ⟨start, started, ready, _⟩ := Keyboard.reset_ready vga cursor
  have empty : start.pending = [] := by
    rw [Keyboard.reset, Option.map_eq_some_iff] at started
    obtain ⟨terminals, _, same⟩ := started
    exact ready.valid.contents_eq_nil.mpr (by rw [← same])
  have first : Ordered ⟨start, .waiting, [], []⟩ := ⟨ready, empty, trivial⟩
  obtain ⟨after, ran, last⟩ : ∃ after, events.foldlM step ⟨start, .waiting, [], []⟩ = some after ∧ Ordered after := by
    generalize (⟨start, .waiting, [], []⟩ : Reading) = r at first
    induction events generalizing r with
    | nil => exact ⟨r, rfl, first⟩
    | cons event rest ih =>
      obtain ⟨middle, done, next⟩ : ∃ middle, r.step event = some middle ∧ Ordered middle := by
        cases event with
        | interrupt scancode => exact first.interrupt scancode
        | read => exact ⟨r.read, rfl, first.read⟩
      obtain ⟨after, ran, last⟩ := ih middle next
      exact ⟨after, by rw [List.foldlM_cons, done]; exact ran, last⟩
  refine ⟨start, after, started, ran, last.order, ?_⟩
  have bound := last.ready.valid.length_lt
  rw [last.ready.size] at bound
  rw [Keyboard.pending]
  omega

end Reading

end MexOS.Drivers
