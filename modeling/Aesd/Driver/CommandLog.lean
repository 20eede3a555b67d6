import Aesd.Lib.Ring
import Aesd.Lib.Segments
import Aesd.Driver.Kernel

/-!
# The log the driver is there to keep

What the device is for, without buffers and indices: a log of the last ten commands, and the bytes
written since the last one ended.  A write ends a command when its last byte is a newline, whatever
newlines it has before that.

`CommandLog.foldl_write` unrolls a sequence of writes: the commands are the `Segments` of the
sequence of chunks, cut after each newline-terminated one.
-/

set_option autoImplicit false

namespace Aesd

/-- The bytes end in a newline. -/
def NewlineTerminated (bytes : List Byte) : Prop := bytes.getLast? = some newline

instance : DecidablePred NewlineTerminated :=
  fun bytes ↦ inferInstanceAs (Decidable (bytes.getLast? = some newline))

theorem NewlineTerminated.ne_nil {bytes : List Byte} (h : NewlineTerminated bytes) :
    bytes ≠ [] := by
  rintro rfl
  simp [NewlineTerminated] at h

theorem newlineTerminated_append {a b : List Byte} (hb : b ≠ []) :
    NewlineTerminated (a ++ b) ↔ NewlineTerminated b := by
  rw [NewlineTerminated, NewlineTerminated, List.getLast?_append_of_ne_nil a hb]

/-- The last commands, oldest first, and the bytes of the command that is not finished. -/
structure CommandLog where
  /-- The commands. -/
  commands : List (List Byte)
  /-- The bytes written since the last command ended. -/
  pending : List Byte
deriving DecidableEq, Repr

namespace CommandLog

/-- The log of a fresh device. -/
def empty : CommandLog := ⟨[], []⟩

/-- End the command: it enters the log, and the oldest of ten leaves it. -/
def push (log : CommandLog) : CommandLog := ⟨(log.commands ++ [log.pending]).rtake 10, []⟩

/-- Write one chunk. -/
def write (log : CommandLog) (chunk : List Byte) : CommandLog :=
  let log := { log with pending := log.pending ++ chunk }
  if NewlineTerminated chunk then log.push else log

/-- The bytes a reader sees. -/
def content (log : CommandLog) : List Byte := log.commands.flatten

/-- The commands that a sequence of chunks spells. -/
def commandsOf (chunks : List (List Byte)) : List (List Byte) :=
  (Segments.segments NewlineTerminated chunks).map List.flatten

/-- The bytes a sequence of chunks leaves pending. -/
def pendingOf (chunks : List (List Byte)) : List Byte :=
  (Segments.rest NewlineTerminated chunks).flatten

theorem write_of_terminated {log : CommandLog} {chunk : List Byte} (h : NewlineTerminated chunk) :
    log.write chunk = ⟨(log.commands ++ [log.pending ++ chunk]).rtake 10, []⟩ := by
  rw [write, if_pos h, push]

theorem write_of_not_terminated {log : CommandLog} {chunk : List Byte}
    (h : ¬ NewlineTerminated chunk) :
    log.write chunk = ⟨log.commands, log.pending ++ chunk⟩ := by
  rw [write, if_neg h]

theorem commandsOf_concat (chunks : List (List Byte)) (chunk : List Byte) :
    commandsOf (chunks ++ [chunk]) = if NewlineTerminated chunk
      then commandsOf chunks ++ [pendingOf chunks ++ chunk] else commandsOf chunks := by
  rw [commandsOf, Segments.segments_concat]
  split <;> simp [commandsOf, pendingOf]

theorem pendingOf_concat (chunks : List (List Byte)) (chunk : List Byte) :
    pendingOf (chunks ++ [chunk]) = if NewlineTerminated chunk
      then [] else pendingOf chunks ++ chunk := by
  rw [pendingOf, Segments.rest_concat]
  split <;> simp [pendingOf]

/-- **A sequence of writes leaves the last ten commands it spells.** -/
theorem foldl_write (chunks : List (List Byte)) :
    chunks.foldl write empty = ⟨(commandsOf chunks).rtake 10, pendingOf chunks⟩ := by
  induction chunks using List.reverseRecOn with
  | nil => rfl
  | append_singleton chunks chunk ih =>
    rw [List.foldl_append, ih, commandsOf_concat, pendingOf_concat, List.foldl_cons, List.foldl_nil]
    by_cases h : NewlineTerminated chunk
    · rw [write_of_terminated h, if_pos h, if_pos h]
      show (⟨(_ ++ [_]).rtake 10, _⟩ : CommandLog) = _
      rw [Ring.rtake_rtake_concat]
    · rw [write_of_not_terminated h, if_neg h, if_neg h]

end CommandLog

end Aesd
