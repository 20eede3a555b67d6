import Aesd.Lib.Machine
import Aesd.Lib.RwLock
import Aesd.Server.Store

/-!
# The server

`aesdsocket.c` and the client threads it starts, as one machine: the main thread with its list of
clients, any number of sessions, the lock between them, and the store.  A step is one step of one
thread, so a run is any interleaving of them; it also has the steps of the world outside, which
sends signals and closes connections.

A client's `struct client_info` is a block of `System.clients`, named by the order of acceptance, so
that a use after its `free` is seen.  A descriptor and a `FILE` are blocks too, of which only the
identity matters.  The list of clients is a list of such names; `TAILQ_NEXT` is `tailqNext`.

`start_client_processing` is one step of the main thread: nothing in it is seen by another thread
before it returns, except the new thread itself, whose steps do not depend on the list.

A failed assertion, the use of memory that is not there, and the signal of a `send` on a connection
that its peer has closed end the whole process.

`System.log` and `System.evicted` record what happened: which packets were to be stored, in the
order the lock was granted for them, and which commands the device evicted.
-/

set_option autoImplicit false

namespace Aesd

/-- What has become of a client's thread. -/
inductive ThreadState
  /-- `pthread_create` has not made one. -/
  | unstarted
  /-- It runs. -/
  | running
  /-- It has returned, or a cancellation took effect. -/
  | ended
  /-- It was joined. -/
  | joined
deriving DecidableEq, Repr

/-- `struct client_info`, its thread, and its connection. -/
structure Client where
  /-- `peer_fd`; `none` is `-1`. -/
  peerFd : Option ℕ
  /-- `file`. -/
  file : Option ℕ
  /-- The thread's session. -/
  session : Session
  /-- What has become of the thread. -/
  thread : ThreadState
  /-- `pthread_cancel` was called. -/
  cancelled : Bool
  /-- The peer has closed the connection. -/
  hungUp : Bool
  /-- The descriptor that was accepted. -/
  fd : ℕ
deriving DecidableEq, Repr

/-- What the main thread does next. -/
inductive MainPc
  /-- The test of `g_running`. -/
  | loop
  /-- `accept`. -/
  | accept
  /-- `join_completed_clients(clients, cancel)`, at a client of the list or at its end. -/
  | visit (client : Option ℕ) (cancel : Bool)
  /-- The same, at `pthread_join` of a client, before the client `next`. -/
  | join (client : ℕ) (next : Option ℕ) (cancel : Bool)
  /-- The end. -/
  | exit
deriving DecidableEq, Repr

/-- Why the process ended before its time. -/
inductive Halt
  /-- It did what must not happen. -/
  | bug (bug : Bug)
  /-- `SIGPIPE`. -/
  | sigpipe
deriving DecidableEq, Repr

/-- The state of the server. -/
structure System where
  /-- The store. -/
  store : Store
  /-- `rw_file_lock`. -/
  lock : RwLock
  /-- The clients ever allocated. -/
  clients : Heap Client
  /-- The list of clients. -/
  list : List ℕ
  /-- The descriptors accepted. -/
  fds : Heap Unit
  /-- The files opened. -/
  files : Heap Unit
  /-- What the main thread does next. -/
  main : MainPc
  /-- `g_running`. -/
  running : Bool
  /-- Whether the process has ended, and why. -/
  halted : Option Halt
  /-- The packets to be stored, with their clients, in the order the lock was granted. -/
  log : List (ℕ × List Byte)
  /-- The commands evicted from the device. -/
  evicted : List (List Byte)
deriving DecidableEq

/-- A step of a client thread, and what is decided outside the server in it. -/
inductive ThreadEvent
  /-- The first allocation works or not. -/
  | start (mallocOk : Bool)
  /-- `recv` answers. -/
  | recv (r : Received)
  /-- The allocation made after looking for a newline works or not. -/
  | scan (mallocOk : Bool)
  /-- `pthread_rwlock_wrlock` returns. -/
  | wrlock
  /-- `ioctl`. -/
  | ioctl
  /-- A `write` call of the next `count` bytes. -/
  | write (count : ℕ) (o : WriteOutcome)
  /-- `fseek`. -/
  | fseek
  /-- `pthread_rwlock_unlock` of the lock for writing. -/
  | wrunlock
  /-- `pthread_rwlock_rdlock` returns. -/
  | rdlock
  /-- A `read` call that asks for `count` bytes. -/
  | read (count : ℕ)
  /-- A `send`, of which the socket accepts `count` bytes. -/
  | send (count : ℕ)
  /-- `pthread_rwlock_unlock` of the lock for reading. -/
  | rdunlock
  /-- The return from `write_new_packet`. -/
  | next
  /-- `packet_fragments_free`. -/
  | free
  /-- `close`. -/
  | close
  /-- The mark, and the return. -/
  | mark
deriving DecidableEq, Repr

/-- A step of the main thread, and what is decided outside the server in it. -/
inductive MainEvent
  /-- The test of `g_running`. -/
  | test
  /-- `accept` fails. -/
  | refuse
  /-- `accept` works, and the three steps of `start_client_processing` work or not. -/
  | accept (mallocOk fopenOk createOk : Bool)
  /-- `join_completed_clients` looks at a client, or finds the end of the list. -/
  | visit
  /-- `pthread_join` returns. -/
  | join
deriving DecidableEq, Repr

/-- A step of the machine. -/
inductive Label
  /-- A step of the main thread. -/
  | main (e : MainEvent)
  /-- A step of a client's thread. -/
  | thread (i : ℕ) (e : ThreadEvent)
  /-- The cancellation of a client's thread takes effect. -/
  | cancel (i : ℕ)
  /-- A client closes its connection. -/
  | hangup (i : ℕ)
  /-- `SIGINT` or `SIGTERM`. -/
  | signal
deriving DecidableEq, Repr

/-- The points at which a cancellation takes effect. -/
def Pc.cancellation : Pc → Bool
  | .recv | .ioctl | .fwrite | .fread | .send | .close => true
  | _ => false

/-- The client after its thread has made a step. -/
def Client.after (c : Client) (t : Session) : Client :=
  if t.pc = .done then { c with session := t, peerFd := none, thread := .ended }
  else { c with session := t }

namespace System

variable [Platform]

/-- The server when `run_server_logic` enters its loop. -/
def init (b : Build) : System where
  store := .init b
  lock := .free
  clients := .empty
  list := []
  fds := .empty
  files := .empty
  main := .loop
  running := true
  halted := none
  log := []
  evicted := []

omit [Platform] in
/-- The process ends if the session did what must not happen. -/
def haltOn (s : System) (t : Session) : System :=
  match t.pc with
  | .fault bug => { s with halted := some (.bug bug) }
  | _ => s

/-! ## The client threads -/

omit [Platform] in
/-- The packet that a thread is going to store with the lock it gets. -/
def toStore (i : ℕ) (t : Session) : List (ℕ × List Byte) :=
  match t.seekto, t.packet with
  | none, some packet => [(i, packet)]
  | _, _ => []

/-- What a step of a thread meets outside it, and what it does there; `none` is a step that is not
possible, a wait for the lock above all. -/
def outside (s : System) (i : ℕ) (c : Client) : ThreadEvent → Option (Except Bug (Event × System))
  | .start mallocOk => some (.ok (.start mallocOk, s))
  | .recv r => some (.ok (.recv r, s))
  | .scan mallocOk => some (.ok (.scan mallocOk, s))
  | .wrlock => (s.lock.wrlock i).map fun lock ↦
      .ok (.wrlock, { s with lock := lock, log := s.log ++ toStore i c.session })
  | .ioctl => c.session.seekto.map fun seekto ↦ do
      let f_pos ← s.store.ioctl c.session.f_pos seekto
      .ok (.ioctl f_pos, s)
  | .write count o => some do
      let bytes := c.session.rest.take count
      let (ok, f_pos, store) ← s.store.write c.session.f_pos bytes o
      .ok (.write count ok f_pos,
        { s with store := store, evicted := s.evicted ++ s.store.evicted bytes o ok })
  | .fseek => some (.ok (.fseek, s))
  | .wrunlock => some (.ok (.wrunlock, { s with lock := s.lock.unlock i }))
  | .rdlock => (s.lock.rdlock i).map fun lock ↦ .ok (.rdlock, { s with lock := lock })
  | .read count =>
    if 0 < count ∧ count ≤ BUFFER_SIZE then some do
      let (bytes, f_pos) ← s.store.read c.session.f_pos count
      .ok (.read bytes f_pos, s)
    else none
  | .send count =>
    if c.hungUp then some (.ok (.send 0, { s with halted := some .sigpipe }))
    else some (.ok (.send count, s))
  | .rdunlock => some (.ok (.rdunlock, { s with lock := s.lock.unlock i }))
  | .next => some (.ok (.next, s))
  | .free => some (.ok (.free, s))
  | .close =>
    match c.peerFd with
    | some fd => some (.ok (.close, { s with fds := s.fds.free fd }))
    | none => some (.ok (.close, s))
  | .mark => some (.ok (.mark, s))

/-- A step of a client's thread. -/
def threadStep (s : System) (i : ℕ) (e : ThreadEvent) : Option System :=
  match s.clients.get? i with
  | none => none
  | some c =>
    if c.thread = .running then
      match s.outside i c e with
      | none => none
      | some (.error bug) => some { s with halted := some (.bug bug) }
      | some (.ok (event, s')) =>
        (Session.step s.store.build c.session event).map fun t ↦
          haltOn { s' with clients := s.clients.set i (c.after t) } t
    else none

omit [Platform] in
/-- The cancellation of a thread takes effect: it ends where it is. -/
def cancelStep (s : System) (i : ℕ) : Option System :=
  match s.clients.get? i with
  | none => none
  | some c =>
    if c.thread = .running ∧ c.cancelled ∧ c.session.pc.cancellation then
      some { s with clients := s.clients.set i { c with thread := .ended } }
    else none

omit [Platform] in
/-- A client closes its connection. -/
def hangupStep (s : System) (i : ℕ) : Option System :=
  match s.clients.get? i with
  | none => none
  | some c => some { s with clients := s.clients.set i { c with hungUp := true } }

/-! ## The main thread -/

omit [Platform] in
/-- `start_client_processing`. -/
def startClientProcessing (s : System) (peerFd : ℕ) (mallocOk fopenOk createOk : Bool) : System :=
  if !mallocOk then { s with fds := s.fds.free peerFd }
  else
    let client := s.clients.next
    let info : Client := ⟨some peerFd, none, .init, .unstarted, false, false, peerFd⟩
    if !fopenOk then
      { s with clients := (s.clients.alloc info).free client, fds := s.fds.free peerFd }
    else
      let file := s.files.next
      let s := { s with files := s.files.alloc () }
      let s :=
        if createOk then
          { s with clients := s.clients.alloc { info with file := some file, thread := .running } }
        else
          { s with
            clients := (s.clients.alloc { info with file := some file }).free client
            fds := s.fds.free peerFd }
      { s with list := s.list ++ [client] }

omit [Platform] in
/-- `TAILQ_NEXT`. -/
def tailqNext (list : List ℕ) (client : ℕ) : Option ℕ :=
  (list.dropWhile (· ≠ client)).tail.head?

omit [Platform] in
/-- `join_completed_clients` at a client, up to `pthread_join`, or at the end of the list. -/
def visit (s : System) (client : Option ℕ) (cancel : Bool) : System :=
  match client with
  | none =>
    if cancel then
      if s.list = [] then { s with main := .exit }
      else { s with halted := some (.bug (.assertion "TAILQ_EMPTY(&clients)")) }
    else { s with main := .loop }
  | some i =>
    match s.clients.get? i with
    | none => { s with halted := some (.bug (.notAllocated i)) }
    | some c =>
      let next := tailqNext s.list i
      let s :=
        if cancel then { s with clients := s.clients.set i { c with cancelled := true } } else s
      if cancel ∨ c.peerFd = none then { s with main := .join i next cancel }
      else { s with main := .visit next cancel }

omit [Platform] in
/-- `join_completed_clients` after `pthread_join`, which returns when the thread has ended. -/
def join (s : System) (i : ℕ) (next : Option ℕ) (cancel : Bool) : Option System :=
  match s.clients.get? i with
  | none => some { s with halted := some (.bug (.notAllocated i)) }
  | some c =>
    if c.thread = .ended then
      match packetFragmentsFree c.session.mem c.session.fragments with
      | .error bug => some { s with halted := some (.bug bug) }
      | .ok mem =>
        some { s with
          fds := match c.peerFd with
            | some fd => s.fds.free fd
            | none => s.fds
          files := match c.file with
            | some file => s.files.free file
            | none => s.files
          list := s.list.erase i
          clients := (s.clients.set i
            { c with thread := .joined, session := { c.session with mem := mem } }).free i
          main := .visit next cancel }
    else none

omit [Platform] in
/-- A step of the main thread. -/
def mainStep (s : System) (e : MainEvent) : Option System :=
  match s.main, e with
  | .loop, .test =>
    some { s with main := if s.running then .accept else .visit s.list.head? true }
  | .accept, .refuse => some { s with main := .loop }
  | .accept, .accept mallocOk fopenOk createOk =>
    let peerFd := s.fds.next
    let s := startClientProcessing { s with fds := s.fds.alloc () } peerFd mallocOk fopenOk createOk
    some { s with main := .visit s.list.head? false }
  | .visit client cancel, .visit => some (s.visit client cancel)
  | .join client next cancel, .join => s.join client next cancel
  | _, _ => none

/-- The machine. -/
def step (s : System) (l : Label) : Option System :=
  if s.halted = none then
    match l with
    | .main e => s.mainStep e
    | .thread i e => s.threadStep i e
    | .cancel i => s.cancelStep i
    | .hangup i => s.hangupStep i
    | .signal => some { s with running := false }
  else none

/-! ## Runs that are written down -/

/-- Where some steps lead from the start; they have to be possible. -/
def after (b : Build) (ls : List Label) : System :=
  (Machine.exec step (init b) ls).getD (init b)

/-- A run can be tested by executing it. -/
theorem run_after {ok : System → Label → Prop} [∀ s l, Decidable (ok s l)] {b : Build}
    {ls : List Label}
    (h : (Machine.exec (fun s l ↦ if ok s l then step s l else none) (init b) ls).isSome) :
    Machine.Run step ok (init b) ls (after b ls) := by
  obtain ⟨t, ht⟩ := Option.isSome_iff_exists.1 h
  have hrun := Machine.run_of_exec_guarded ht
  rw [after, hrun.exec_eq]
  exact hrun

end System

namespace Label

/-- A client is accepted, and none of the `n` clients of the list has finished. -/
def connect (n : ℕ) : List Label :=
  .main .test :: .main (.accept true true true) :: List.replicate (n + 1) (.main .visit)

/-- The steps of a thread. -/
def steps (i : ℕ) (es : List ThreadEvent) : List Label := es.map (.thread i)

end Label

end Aesd
