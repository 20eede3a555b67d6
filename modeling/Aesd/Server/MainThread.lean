import Aesd.Server.System

/-!
# The steps of the main thread

What one step of `run_server_logic` can do, said once (`System.mainStep_cases`): the main loop with
the outcomes of `start_client_processing`, and `join_completed_clients` client by client.
-/

set_option autoImplicit false

namespace Aesd

/-- A fresh client. -/
def Client.fresh (fd : ℕ) (file : Option ℕ) (thread : ThreadState) : Client :=
  ⟨some fd, file, .init, thread, false, false, fd⟩

namespace System

/-- What a step of the main thread does. -/
inductive MainMove (s : System) : MainEvent → System → Prop
  /-- The loop goes on. -/
  | go (hmain : s.main = .loop) (hrun : s.running = true) :
    MainMove s .test { s with main := .accept }
  /-- It ends, and the clients are to be cancelled. -/
  | stop (hmain : s.main = .loop) (hrun : s.running = false) :
    MainMove s .test { s with main := .visit s.list.head? true }
  /-- `accept` fails. -/
  | refuse (hmain : s.main = .accept) : MainMove s .refuse { s with main := .loop }
  /-- There is no memory for a client. -/
  | noMalloc (hmain : s.main = .accept) (f c : Bool) : MainMove s (.accept false f c) { s with
      fds := (s.fds.alloc ()).free s.fds.next, main := .visit s.list.head? false }
  /-- The file cannot be opened. -/
  | noFile (hmain : s.main = .accept) (c : Bool) : MainMove s (.accept true false c) { s with
      clients := (s.clients.alloc (.fresh s.fds.next none .unstarted)).free s.clients.next
      fds := (s.fds.alloc ()).free s.fds.next, main := .visit s.list.head? false }
  /-- The thread cannot be made. -/
  | noThread (hmain : s.main = .accept) : MainMove s (.accept true true false) { s with
      clients :=
        (s.clients.alloc (.fresh s.fds.next (some s.files.next) .unstarted)).free s.clients.next
      fds := (s.fds.alloc ()).free s.fds.next, files := s.files.alloc ()
      list := s.list ++ [s.clients.next], main := .visit (s.list ++ [s.clients.next]).head? false }
  /-- A client is started. -/
  | start (hmain : s.main = .accept) : MainMove s (.accept true true true) { s with
      clients := s.clients.alloc (.fresh s.fds.next (some s.files.next) .running)
      fds := s.fds.alloc (), files := s.files.alloc ()
      list := s.list ++ [s.clients.next], main := .visit (s.list ++ [s.clients.next]).head? false }
  /-- The end of the list, in the main loop. -/
  | last (hmain : s.main = .visit none false) : MainMove s .visit { s with main := .loop }
  /-- The end of the list, and of the server. -/
  | exit (hmain : s.main = .visit none true) (hlist : s.list = []) :
    MainMove s .visit { s with main := .exit }
  /-- A client that has not finished. -/
  | pass {i : ℕ} {c : Client} (hmain : s.main = .visit (some i) false)
    (hget : s.clients.get? i = some c) (hpeer : c.peerFd ≠ none) :
    MainMove s .visit { s with main := .visit (tailqNext s.list i) false }
  /-- A client that has finished. -/
  | finished {i : ℕ} {c : Client} (hmain : s.main = .visit (some i) false)
    (hget : s.clients.get? i = some c) (hpeer : c.peerFd = none) :
    MainMove s .visit { s with main := .join i (tailqNext s.list i) false }
  /-- A client that is cancelled. -/
  | cancel {i : ℕ} {c : Client} (hmain : s.main = .visit (some i) true)
    (hget : s.clients.get? i = some c) : MainMove s .visit { s with
      clients := s.clients.set i { c with cancelled := true }
      main := .join i (tailqNext s.list i) true }
  /-- A client is joined, and what it left is released. -/
  | join {i : ℕ} {next : Option ℕ} {cancel : Bool} {c : Client} {mem : Fragments}
    (hmain : s.main = .join i next cancel) (hget : s.clients.get? i = some c)
    (hend : c.thread = .ended)
    (hfree : packetFragmentsFree c.session.mem c.session.fragments = .ok mem) :
    MainMove s .join { s with
      fds := match c.peerFd with
        | some fd => s.fds.free fd
        | none => s.fds
      files := match c.file with
        | some file => s.files.free file
        | none => s.files
      list := s.list.erase i
      clients := (s.clients.set i
        { c with thread := .joined, session := { c.session with mem := mem } }).free i
      main := .visit next cancel }
  /-- A client of the list is not in memory. -/
  | missing {i : ℕ} {cancel : Bool} (hmain : s.main = .visit (some i) cancel)
    (hget : s.clients.get? i = none) :
    MainMove s .visit { s with halted := some (.bug (.notAllocated i)) }
  /-- The list is not empty at the end. -/
  | remaining (hmain : s.main = .visit none true) (hlist : s.list ≠ []) :
    MainMove s .visit { s with halted := some (.bug (.assertion "TAILQ_EMPTY(&clients)")) }
  /-- A client that is joined is not in memory. -/
  | unjoinable {i : ℕ} {next : Option ℕ} {cancel : Bool} (hmain : s.main = .join i next cancel)
    (hget : s.clients.get? i = none) :
    MainMove s .join { s with halted := some (.bug (.notAllocated i)) }
  /-- The fragments of a client cannot be freed. -/
  | unfreeable {i : ℕ} {next : Option ℕ} {cancel : Bool} {c : Client} {bug : Bug}
    (hmain : s.main = .join i next cancel) (hget : s.clients.get? i = some c)
    (hend : c.thread = .ended)
    (hfree : packetFragmentsFree c.session.mem c.session.fragments = .error bug) :
    MainMove s .join { s with halted := some (.bug bug) }

variable {s t : System} {i : ℕ} {e : MainEvent}

theorem visit_cases {client : Option ℕ} {cancel : Bool} (hmain : s.main = .visit client cancel) :
    s.MainMove .visit (s.visit client cancel) := by
  unfold visit
  split
  · split
    · rename_i hcancel
      subst hcancel
      split
      · exact .exit hmain ‹_›
      · exact .remaining hmain ‹_›
    · rename_i hcancel
      rw [Bool.not_eq_true] at hcancel
      subst hcancel
      exact .last hmain
  · split
    · exact .missing hmain ‹_›
    · rename_i i c hget
      cases cancel with
      | false =>
        simp only [Bool.false_eq_true, if_false, false_or]
        split
        · exact .finished hmain hget ‹_›
        · exact .pass hmain hget ‹_›
      | true =>
        simp only [if_true, true_or]
        exact .cancel hmain hget

/-- **What a step of the main thread can be.** -/
theorem mainStep_cases (h : s.mainStep e = some t) : s.MainMove e t := by
  unfold mainStep at h
  split at h
  · rename_i hmain
    cases h
    by_cases hrun : s.running = true
    · rw [if_pos hrun]
      exact .go hmain hrun
    · rw [if_neg hrun]
      exact .stop hmain (by simpa using hrun)
  · cases h
    exact .refuse ‹_›
  · rename_i m f c hmain
    cases h
    cases m with
    | false => exact .noMalloc hmain f c
    | true =>
      cases f with
      | false => exact .noFile hmain c
      | true =>
        cases c with
        | false => exact .noThread hmain
        | true => exact .start hmain
  · cases h
    exact visit_cases ‹_›
  · rename_i i next cancel hmain
    rw [join] at h
    split at h
    · cases h
      exact .unjoinable hmain ‹_›
    rename_i c hget
    split at h
    swap
    · cases h
    rename_i hend
    split at h
    · cases h
      exact .unfreeable hmain hget hend ‹_›
    · rename_i mem hfree
      cases h
      exact .join hmain hget hend hfree
  · cases h

end System

end Aesd
