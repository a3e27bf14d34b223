import MexOS.Lib.Strings
import MexOS.Machine.RecentRing

/-! The log in memory of `lib/log.c`. -/

namespace MexOS.Lib

open MexOS.Machine

def logMaxEntries : Nat := 128
def logMaxMsgLen : Nat := 128

/-- A `struct log_entry`; the message is its array of that name. -/
structure LogEntry where
  timestamp : Word
  level : Byte
  message : Bytes

/-- What `memset` leaves. -/
def LogEntry.zero : LogEntry := ⟨0, 0, Bytes.zero⟩

/-- The statics of `log.c`. -/
structure Log where
  buffer : Nat → LogEntry
  head : Nat
  count : Nat

namespace Log

def init (_ : Log) : Log := ⟨fun _ => LogEntry.zero, 0, 0⟩

/-- `log_write` at the time `now`; `none` is a NULL message. -/
def write (log : Log) (now : Word) (level : Byte) : Option CString → Log
  | none => log
  | some msg =>
    let entry : LogEntry := ⟨now, level, setText (log.buffer log.head).message 0 msg logMaxMsgLen⟩
    { buffer := Function.update log.buffer log.head entry
      head := (log.head + 1) % logMaxEntries
      count := if log.count < logMaxEntries then log.count + 1 else log.count }

def getCount (log : Log) : Nat := log.count

/-- The entry that the result of `log_get_entry` points to. -/
def getEntry (log : Log) (index : Word) : Option LogEntry :=
  if log.count ≤ index.toNat then none
  else
    let actualIdx := if log.count < logMaxEntries then index.toNat else (log.head + index.toNat) % logMaxEntries
    some (log.buffer actualIdx)

def clear (_ : Log) : Log := ⟨fun _ => LogEntry.zero, 0, 0⟩

/-- The arguments of a call of `log_write`, and the time when it is made. -/
structure Call where
  now : Word
  level : Byte
  msg : Option CString

def writeAll (log : Log) (calls : List Call) : Log :=
  calls.foldl (fun log call => log.write call.now call.level call.msg) log

/-- The level and the message of every call that has a message. -/
def written (calls : List Call) : List (Byte × CString) :=
  calls.filterMap fun call => call.msg.map fun msg => (call.level, msg)

def ring (log : Log) : RecentRing LogEntry := ⟨log.buffer, log.head, log.count⟩

/-- What an entry keeps of the arguments of the call that wrote it. -/
def Records (entry : LogEntry) (call : Byte × CString) : Prop :=
  entry.level = call.1 ∧ entry.message.text 0 logMaxMsgLen = call.2.bytes.take (logMaxMsgLen - 1)

/-- The log shows the end of `history`, and nothing else. -/
structure ShowsEnd (log : Log) (history : List (Byte × CString)) : Prop where
  count : log.getCount = min history.length 128
  entry : ∀ index : Word, index.toNat < log.getCount →
    ∃ entry, log.getEntry index = some entry ∧
      ∃ bound : history.length - min history.length 128 + index.toNat < history.length,
        entry.level = history[history.length - min history.length 128 + index.toNat].1 ∧
        entry.message.text 0 128 = history[history.length - min history.length 128 + index.toNat].2.bytes.take 127
  behind : ∀ index : Word, log.getCount ≤ index.toNat → log.getEntry index = none

variable {log : Log} {history : List (Byte × CString)}

theorem keeps_write (keeps : log.ring.Keeps logMaxEntries Records history) (now : Word) (level : Byte) (msg : CString) :
    (log.write now level (some msg)).ring.Keeps logMaxEntries Records (history ++ [(level, msg)]) := by
  have shown : Records ⟨now, level, setText (log.buffer log.head).message 0 msg logMaxMsgLen⟩ (level, msg) :=
    ⟨rfl, text_setText (by decide)⟩
  exact keeps.push shown

theorem keeps_writeAll (keeps : log.ring.Keeps logMaxEntries Records history) (calls : List Call) :
    (log.writeAll calls).ring.Keeps logMaxEntries Records (history ++ written calls) := by
  induction calls generalizing log history with
  | nil =>
    rw [written, List.filterMap_nil, List.append_nil]
    exact keeps
  | cons call rest ih =>
    obtain ⟨now, level, msg⟩ := call
    rw [writeAll, List.foldl_cons, ← writeAll]
    cases msg with
    | none => exact ih keeps
    | some msg =>
      have later := ih (keeps_write keeps now level msg)
      rw [List.append_assoc] at later
      exact later

theorem showsEnd_of_keeps (keeps : log.ring.Keeps logMaxEntries Records history) : log.ShowsEnd history where
  count := keeps.count
  entry index inside := by
    obtain ⟨bound, shown⟩ := keeps.read inside
    refine ⟨_, if_neg (Nat.not_le.mpr inside), bound, shown.1, shown.2⟩
  behind index outside := if_pos outside

/-- The log keeps the latest 128 messages in their order, whatever it held
before it was initialised or cleared. -/
theorem log_keeps_latest (log : Log) (calls : List Call) :
    (log.init.writeAll calls).ShowsEnd (written calls) ∧ (log.clear.writeAll calls).ShowsEnd (written calls) := by
  have started : log.init.ring.Keeps logMaxEntries Records [] := .empty _
  have cleared : log.clear.ring.Keeps logMaxEntries Records [] := .empty _
  exact ⟨showsEnd_of_keeps (keeps_writeAll started calls), showsEnd_of_keeps (keeps_writeAll cleared calls)⟩

end Log

end MexOS.Lib
