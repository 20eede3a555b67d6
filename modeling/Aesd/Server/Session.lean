import Aesd.Server.Fragments
import Aesd.Server.Scan

/-!
# A client's session

`client_flow.c`: what a client thread does, as a machine.  The machine's steps are the thread's
interactions with anything outside it (the socket, the file, the lock, `malloc`) together with the
computation up to the next one; `Pc` says which one comes next.  What these interactions answer is
part of the step's `Event`, so a session can be looked at alone, whatever the others do.

`fread`, `fwrite` and `fflush` are the system calls they make.  What stdio has read ahead is in
`pending`; how it cuts a packet into `write` calls, and which counts it asks `read` for, is up to
the events.  When a `write` fails stdio gives the rest of the packet up.

A `read` call that gives nothing is the end of the file.  There are libraries whose `FILE` remembers
that end, so that in later replies of the device build `fread` returns what each `read` call gives,
and `send` gets it in more parts.  The bytes are the same, and how they are cut is not looked at
outside a session.

The last fields of a `Session` are not in the source.  They record what happened: what was received,
which packets were flattened, how many allocations failed, what was read for the replies and sent.
-/

set_option autoImplicit false

namespace Aesd

/-- `USE_AESD_CHAR_DEVICE`: the store is the character device, or an ordinary file. -/
inductive Build
  /-- `1`. -/
  | device
  /-- `0`. -/
  | file
deriving DecidableEq, Repr

/-- What `recv` answers. -/
inductive Received
  /-- Some bytes. -/
  | data (bytes : List Byte)
  /-- `0`, the end of the stream. -/
  | eof
  /-- `-1`. -/
  | error
deriving DecidableEq, Repr

/-- What the thread does next. -/
inductive Pc
  /-- The first `packet_fragment_alloc`. -/
  | start
  /-- `recv`. -/
  | recv
  /-- The search for a newline, and what is done with the result. -/
  | scan
  /-- `pthread_rwlock_wrlock`. -/
  | wrlock
  /-- `ioctl`, holding the lock for writing. -/
  | ioctl
  /-- The `write` calls of `fwrite` and `fflush`, holding the lock for writing. -/
  | fwrite
  /-- `fseek`, holding the lock for writing. -/
  | fseek
  /-- `pthread_rwlock_unlock` of the lock for writing. -/
  | wrunlock
  /-- `pthread_rwlock_rdlock`. -/
  | rdlock
  /-- The `read` calls of `fread`, holding the lock for reading. -/
  | fread
  /-- `send`, holding the lock for reading. -/
  | send
  /-- `pthread_rwlock_unlock` of the lock for reading. -/
  | rdunlock
  /-- The return from `write_new_packet`. -/
  | next
  /-- `packet_fragments_free` at the end. -/
  | free
  /-- `close`. -/
  | close
  /-- The assignment to `peer_fd` that marks the client as done. -/
  | mark
  /-- The thread has returned. -/
  | done
  /-- The thread did what must not happen. -/
  | fault (bug : Bug)
deriving DecidableEq, Repr

/-- The state of a session. -/
structure Session where
  /-- What the thread does next. -/
  pc : Pc
  /-- `client->fragments`. -/
  fragments : Option ℕ
  /-- `curr_fragment`. -/
  currFragment : Option ℕ
  /-- `bytes_left`. -/
  bytesLeft : ℕ
  /-- `flat_data`. -/
  flatData : Option ℕ
  /-- `seekto`, if `params == 2`. -/
  seekto : Option AesdSeekto
  /-- What is left to write of the packet. -/
  rest : List Byte
  /-- What stdio has read and not yet returned from `fread`. -/
  pending : List Byte
  /-- `buffer` of `reply_to_client`. -/
  buffer : List Byte
  /-- The position of the open file. -/
  f_pos : ℤ
  /-- The fragments' memory. -/
  mem : Fragments
  /-- The flat buffers' memory. -/
  flats : Heap (List Byte)
  /-- All that was received. -/
  stream : List Byte
  /-- The packets that were flattened. -/
  packets : List (List Byte)
  /-- The packet this turn of the loop is about, if it was flattened. -/
  packet : Option (List Byte)
  /-- How many times `malloc` failed. -/
  failures : ℕ
  /-- What was read for the reply so far. -/
  reply : List Byte
  /-- What was given to `send` of it. -/
  passed : List Byte
  /-- What the socket accepted of that. -/
  sent : List Byte
  /-- What was read for the replies before. -/
  replies : List (List Byte)
deriving DecidableEq, Repr

/-- A step of the thread and what it meets outside. -/
inductive Event
  /-- The first allocation works or not. -/
  | start (mallocOk : Bool)
  /-- `recv` answers. -/
  | recv (r : Received)
  /-- The allocation made after looking for a newline works or not. -/
  | scan (mallocOk : Bool)
  /-- The lock is granted for writing. -/
  | wrlock
  /-- `ioctl` leaves the file at a position. -/
  | ioctl (f_pos : ℤ)
  /-- A `write` call of `count` bytes works or not, and leaves the file at a position. -/
  | write (count : ℕ) (ok : Bool) (f_pos : ℤ)
  /-- `fseek` leaves the file at its start. -/
  | fseek
  /-- The lock for writing is given back. -/
  | wrunlock
  /-- The lock is granted for reading. -/
  | rdlock
  /-- A `read` call gives some bytes, or none at the end, and leaves the file at a position. -/
  | read (bytes : List Byte) (f_pos : ℤ)
  /-- The socket accepts `count` bytes. -/
  | send (count : ℕ)
  /-- The lock for reading is given back. -/
  | rdunlock
  /-- `write_new_packet` returns. -/
  | next
  /-- The fragments are freed. -/
  | free
  /-- The socket is closed. -/
  | close
  /-- The client is marked as done. -/
  | mark
deriving DecidableEq, Repr

/-- Where the thread makes the step. -/
def Event.pc : Event → Pc
  | .start _ => .start
  | .recv _ => .recv
  | .scan _ => .scan
  | .wrlock => .wrlock
  | .ioctl _ => .ioctl
  | .write .. => .fwrite
  | .fseek => .fseek
  | .wrunlock => .wrunlock
  | .rdlock => .rdlock
  | .read .. => .fread
  | .send _ => .send
  | .rdunlock => .rdunlock
  | .next => .next
  | .free => .free
  | .close => .close
  | .mark => .mark

namespace Session

/-- A session before its thread has done anything. -/
def init : Session where
  pc := .start
  fragments := none
  currFragment := none
  bytesLeft := 0
  flatData := none
  seekto := none
  rest := []
  pending := []
  buffer := []
  f_pos := 0
  mem := .empty
  flats := .empty
  stream := []
  packets := []
  packet := none
  failures := 0
  reply := []
  passed := []
  sent := []
  replies := []

/-- What the system calls never do: answer more bytes than were asked for, or write none. -/
def Possible (s : Session) : Event → Prop
  | .recv (.data bytes) => bytes ≠ [] ∧ bytes.length ≤ BUFFER_SIZE
  | .write count _ _ => 0 < count ∧ count ≤ s.rest.length
  | .read bytes _ => bytes.length ≤ BUFFER_SIZE
  | .send count => count ≤ s.buffer.length
  | _ => True

instance (s : Session) : DecidablePred s.Possible := fun e ↦ by
  cases e
  case recv r => cases r <;> unfold Possible <;> infer_instance
  all_goals unfold Possible; infer_instance

/-- `*curr_fragment`. -/
def curr (s : Session) : Except Bug (ℕ × PacketFragment) :=
  match s.currFragment with
  | none => .error .nullPointer
  | some ptr =>
    match s.mem.get? ptr with
    | none => .error (.notAllocated ptr)
    | some fragment => .ok (ptr, fragment)

/-- `write_new_packet` up to the lock. -/
def beginPacket (s : Session) (mallocOk : Bool) : Except Bug Session := do
  match ← flattenFragments s.mem s.fragments mallocOk with
  | (none, mem, fragments) =>
    .ok { s with
      mem := mem, fragments := fragments, packet := none, failures := s.failures + 1
      pc := .rdlock }
  | (some flat, mem, fragments) =>
    assert (0 < flat.length) "flat_size > 0"
    assert (flat.getLast? == some newline) "flat_data[flat_size - 1] == '\\n'"
    .ok { s with
      mem := mem, fragments := fragments
      flats := s.flats.alloc flat, flatData := some s.flats.next
      seekto := seekCommand flat
      packets := s.packets ++ [flat], packet := some flat
      pc := .wrlock }

/-- The search for the next newline: the packet is complete, or the rest of the bytes stays in the
fragment and a new one is added for what comes. -/
def scan (s : Session) (mallocOk : Bool) : Except Bug Session := do
  let (ptr, fragment) ← s.curr
  let bytes ← fragment.read s.bytesLeft
  match bytes.findIdx? (· == newline) with
  | some i =>
    beginPacket { s with mem := s.mem.set ptr { fragment with size := i + 1 } } mallocOk
  | none =>
    if 0 < s.bytesLeft then
      let (next, mem) := packetFragmentAlloc s.mem mallocOk
      .ok { s with
        mem := mem.set ptr { fragment with size := s.bytesLeft, next := next }
        currFragment := next
        failures := if mallocOk then s.failures else s.failures + 1
        pc := .recv }
    else .ok { s with pc := .recv }

/-- The bytes `flat_data` points to. -/
def flat (s : Session) : Except Bug (List Byte) :=
  match s.flatData with
  | none => .error .nullPointer
  | some ptr =>
    match s.flats.get? ptr with
    | none => .error (.notAllocated ptr)
    | some bytes => .ok bytes

/-- After a `write` call: the next one, or what follows `fflush` in either build. -/
def afterWrite (build : Build) (rest : List Byte) : Pc :=
  if rest ≠ [] then .fwrite
  else match build with
    | .device => .wrunlock
    | .file => .fseek

/-- After `fread` has got some bytes: once it has as many as it was asked for, they are sent. -/
def fill (s : Session) : Session :=
  if BUFFER_SIZE ≤ s.pending.length then
    { s with
      buffer := s.pending.take BUFFER_SIZE, pending := s.pending.drop BUFFER_SIZE, pc := .send }
  else s

/-- What the thread does in a step. -/
def handle (build : Build) (s : Session) : Event → Except Bug Session
  | .start mallocOk =>
    let (ptr, mem) := packetFragmentAlloc s.mem mallocOk
    .ok { s with
      mem := mem, fragments := ptr, currFragment := ptr
      failures := if mallocOk then s.failures else s.failures + 1
      pc := .recv }
  | .recv r => do
    let (ptr, fragment) ← s.curr
    match r with
    | .data bytes =>
      .ok { s with
        mem := s.mem.set ptr
          { fragment with buffer := bytes ++ fragment.buffer.drop bytes.length, data := 0 }
        bytesLeft := bytes.length
        stream := s.stream ++ bytes
        pc := .scan }
    | .eof => .ok { s with pc := .free }
    | .error => .ok { s with pc := .free }
  | .scan mallocOk => s.scan mallocOk
  | .wrlock =>
    match s.seekto with
    | some _ => .ok { s with pc := .ioctl }
    | none => do
      let bytes ← s.flat
      .ok { s with rest := bytes, pc := .fwrite }
  | .ioctl f_pos => .ok { s with f_pos := f_pos, pc := .wrunlock }
  | .write count ok f_pos =>
    let rest := if ok then s.rest.drop count else []
    .ok { s with rest := rest, f_pos := f_pos, pc := afterWrite build rest }
  | .fseek => .ok { s with f_pos := 0, pc := .wrunlock }
  | .wrunlock =>
    match s.flatData with
    | none => .error .nullPointer
    | some ptr =>
      .ok { s with
        flats := s.flats.free ptr, flatData := none, seekto := none, pc := .rdlock }
  | .rdlock => .ok { s with reply := [], passed := [], sent := [], pc := .fread }
  | .read bytes f_pos =>
    if bytes ≠ [] then
      .ok (fill { s with
        pending := s.pending ++ bytes, reply := s.reply ++ bytes, f_pos := f_pos })
    -- the end of the file: what `fread` got is sent, and the loop ends when it got nothing
    else if s.pending ≠ [] then
      .ok { s with buffer := s.pending, pending := [], f_pos := f_pos, pc := .send }
    else .ok { s with f_pos := f_pos, pc := .rdunlock }
  | .send count =>
    .ok { s with
      passed := s.passed ++ s.buffer, sent := s.sent ++ s.buffer.take count, buffer := []
      pc := .fread }
  | .rdunlock => .ok { s with replies := s.replies ++ [s.reply], pc := .next }
  | .next => do
    assert (s.fragments == s.currFragment) "client->fragments == curr_fragment"
    let (ptr, fragment) ← s.curr
    .ok { s with
      bytesLeft := s.bytesLeft - fragment.size
      mem := s.mem.set ptr { fragment with data := fragment.data + fragment.size }
      pc := .scan }
  | .free => do
    let mem ← packetFragmentsFree s.mem s.fragments
    .ok { s with mem := mem, fragments := none, pc := .close }
  | .close => .ok { s with pc := .mark }
  | .mark => .ok { s with pc := .done }

/-- A step that does what must not happen ends there. -/
def settle (s : Session) : Except Bug Session → Session
  | .ok t => t
  | .error bug => { s with pc := .fault bug }

/-- The machine. -/
def step (build : Build) (s : Session) (e : Event) : Option Session :=
  if s.pc = e.pc ∧ s.Possible e then some (s.settle (s.handle build e)) else none

variable {build : Build} {s t : Session} {e : Event}

@[simp] theorem settle_ok : s.settle (.ok t) = t := rfl

@[simp] theorem settle_error {bug : Bug} :
    s.settle (.error bug) = { s with pc := .fault bug } := rfl

theorem afterWrite_of_ne {rest : List Byte} (h : rest ≠ []) : afterWrite build rest = .fwrite :=
  if_pos h

theorem afterWrite_nil (build : Build) :
    afterWrite build [] = .wrunlock ∨ afterWrite build [] = .fseek := by
  cases build
  · exact Or.inl rfl
  · exact Or.inr rfl

theorem afterWrite_cases (build : Build) (rest : List Byte) : afterWrite build rest = .fwrite ∨
    build = .device ∧ afterWrite build rest = .wrunlock ∨
    build = .file ∧ afterWrite build rest = .fseek := by
  by_cases hne : rest = []
  · subst hne
    cases build
    · exact Or.inr (Or.inl ⟨rfl, rfl⟩)
    · exact Or.inr (Or.inr ⟨rfl, rfl⟩)
  · exact Or.inl (afterWrite_of_ne hne)

/-- Nothing more is done, or a part of what is read ahead goes into the buffer. -/
theorem fill_cases (s : Session) : s.fill = s ∨ ∃ buffer pending, buffer ++ pending = s.pending ∧
    s.fill = { s with buffer := buffer, pending := pending, pc := .send } := by
  rw [fill]
  split
  · exact Or.inr ⟨_, _, List.take_append_drop _ _, rfl⟩
  · exact Or.inl rfl

theorem step_eq_some : step build s e = some t ↔
    s.pc = e.pc ∧ s.Possible e ∧ t = s.settle (s.handle build e) := by
  rw [step]
  split
  · rename_i h
    simp only [h, true_and, Option.some_inj, eq_comm]
  · rename_i h
    simp only [reduceCtorEq, false_iff]
    exact fun h' ↦ h ⟨h'.1, h'.2.1⟩

end Session

end Aesd
