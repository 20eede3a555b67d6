import Aesd.Server.Clients

/-!
# The process

`main` of `aesdsocket.c`, from its start to its end: the socket is opened, the process may become a
daemon, `run_server_logic` listens, makes the lock and serves, and the rest is cleaned up.  What the
kernel answers is in the labels.

`openAesdSocket_iff` says what the search for an address comes to.  The search has one flaw: after a
`setsockopt` that fails, `sock_fd` keeps the number of the socket that was just closed, and when no
address follows, `open_aesd_socket` returns it.  The process then fails to listen, ends as if all
had gone well, and closes that number a second time.  `Process.life` says that this is all that can
go wrong with the sockets, and that what is served is served on a socket that is bound.
-/

set_option autoImplicit false

namespace Aesd

/-- One of the addresses of `getaddrinfo`, and what the kernel answers for it. -/
structure AddressAnswer where
  /-- `ai_addr`. -/
  address : ℕ
  /-- `socket` works. -/
  socket : Bool
  /-- `setsockopt` works. -/
  setsockopt : Bool
  /-- `bind` works. -/
  bind : Bool
deriving DecidableEq, Repr

namespace AddressAnswer

/-- All three calls work. -/
def Good (a : AddressAnswer) : Prop := a.socket = true ∧ a.setsockopt = true ∧ a.bind = true

instance (a : AddressAnswer) : Decidable a.Good := inferInstanceAs (Decidable (_ ∧ _))

/-- `setsockopt` fails on the socket. -/
def Unset (a : AddressAnswer) : Prop := a.socket = true ∧ a.setsockopt = false

instance (a : AddressAnswer) : Decidable a.Unset := inferInstanceAs (Decidable (_ ∧ _))

end AddressAnswer

/-! ## Opening the socket -/

/-- The sockets that were made, and the addresses they are bound to. -/
abbrev Sockets := Heap (Option ℕ)

/-- The loop of `open_aesd_socket`: `sock_fd`, whether the loop was left by `break`, and the
sockets. -/
def tryAddresses : List AddressAnswer → Option ℕ → Sockets → Option ℕ × Bool × Sockets
  | [], sockFd, sockets => (sockFd, false, sockets)
  | rp :: rest, _, sockets =>
    if !rp.socket then tryAddresses rest none sockets
    else
      let sockFd := sockets.next
      let sockets := sockets.alloc none
      if !rp.setsockopt then tryAddresses rest (some sockFd) (sockets.free sockFd)
      else if rp.bind then (some sockFd, true, sockets.set sockFd (some rp.address))
      else tryAddresses rest none (sockets.free sockFd)

/-- How a process ends. -/
inductive ExitCode
  /-- `EXIT_SUCCESS`. -/
  | success
  /-- `EXIT_FAILURE`. -/
  | failure
  /-- A failed assertion. -/
  | abort
deriving DecidableEq, Repr

/-- `open_aesd_socket`, for what `getaddrinfo` answers and the kernel says of each address: the
descriptor, or the end of the process. -/
def openAesdSocket (result : Option (List AddressAnswer)) (sockets : Sockets) :
    Except ExitCode ℕ × Sockets :=
  match result with
  | none => (.error .failure, sockets)
  | some [] => (.error .abort, sockets)
  | some addresses =>
    let (sockFd, left, sockets) := tryAddresses addresses none sockets
    -- `assert((sock_fd != -1) || (rp == NULL))`
    if sockFd = none ∧ left then (.error .abort, sockets)
    else
      match sockFd with
      | none => (.error .failure, sockets)
      | some sockFd => (.ok sockFd, sockets)

section Opening

variable {addresses rest : List AddressAnswer} {rp : AddressAnswer} {sockFd : Option ℕ}
  {sockets : Sockets}

/-- One address: the loop is left with a socket bound to it, or it goes on with all sockets closed,
and `sock_fd` is `-1` unless `setsockopt` failed. -/
theorem tryAddresses_cons (h : sockets.Owns []) (rp : AddressAnswer) (rest : List AddressAnswer)
    (sockFd : Option ℕ) :
    (rp.Good ∧ ∃ fd sockets', tryAddresses (rp :: rest) sockFd sockets = (some fd, true, sockets') ∧
      sockets'.Owns [fd] ∧ sockets'.get? fd = some (some rp.address)) ∨
    ¬ rp.Good ∧ ∃ sockFd' sockets', sockets'.Owns [] ∧ (sockFd' ≠ none ↔ rp.Unset) ∧
      (∀ fd ∈ sockFd', fd < sockets'.next) ∧
      tryAddresses (rp :: rest) sockFd sockets = tryAddresses rest sockFd' sockets' := by
  have halloc := h.alloc (none : Option ℕ)
  have hlive := (halloc.live _).1 (List.mem_cons_self ..)
  cases hsocket : rp.socket with
  | false =>
    refine Or.inr ⟨by simp [AddressAnswer.Good, hsocket], none, sockets, h, ?_, by simp, ?_⟩
    · simp [AddressAnswer.Unset, hsocket]
    · simp [tryAddresses, hsocket]
  | true =>
    cases hopt : rp.setsockopt with
    | false =>
      refine Or.inr ⟨by simp [AddressAnswer.Good, hopt], some sockets.next, _, halloc.free, ?_,
        by simp, ?_⟩
      · simp [AddressAnswer.Unset, hsocket, hopt]
      · simp [tryAddresses, hsocket, hopt]
    | true =>
      cases hbind : rp.bind with
      | false =>
        refine Or.inr ⟨by simp [AddressAnswer.Good, hbind], none, _, halloc.free, ?_, by simp, ?_⟩
        · simp [AddressAnswer.Unset, hopt]
        · simp [tryAddresses, hsocket, hopt, hbind]
      | true =>
        refine Or.inl ⟨⟨hsocket, hopt, hbind⟩, sockets.next, _, ?_, halloc.set _ _,
          Heap.get?_set_self hlive⟩
        simp [tryAddresses, hsocket, hopt, hbind]

/-- **The loop.**  If an address is good, it is left at the first such one, with a socket that is
bound to it, and no other is open.  If none is, all sockets are closed, and `sock_fd` is `-1` unless
`setsockopt` failed for the last address. -/
theorem tryAddresses_spec (h : sockets.Owns []) (addresses : List AddressAnswer)
    (sockFd : Option ℕ) (hfd : ∀ fd ∈ sockFd, fd < sockets.next) :
    (∃ rp fd sockets', addresses.find? (·.Good) = some rp ∧
      tryAddresses addresses sockFd sockets = (some fd, true, sockets') ∧
      sockets'.Owns [fd] ∧ sockets'.get? fd = some (some rp.address)) ∨
    addresses.find? (·.Good) = none ∧ ∃ sockFd' sockets',
      tryAddresses addresses sockFd sockets = (sockFd', false, sockets') ∧ sockets'.Owns [] ∧
      (∀ fd ∈ sockFd', fd < sockets'.next) ∧
      (addresses ≠ [] → (sockFd' ≠ none ↔ ∃ rp ∈ addresses.getLast?, rp.Unset)) := by
  induction addresses generalizing sockFd sockets with
  | nil => exact Or.inr ⟨rfl, sockFd, sockets, rfl, h, hfd, by simp⟩
  | cons rp rest ih =>
    rcases tryAddresses_cons h rp rest sockFd with
      ⟨hgood, fd, sockets', heq, hrest⟩ | ⟨hgood, sockFd', sockets', howns, hunset, hlt, heq⟩
    · exact Or.inl ⟨rp, fd, sockets', by simp [hgood], heq, hrest⟩
    rw [heq, List.find?_cons_of_neg (by simpa using hgood)]
    rcases ih howns sockFd' hlt with
      hfound | ⟨hnone, sockFd'', sockets'', heq', howns', hlt', hlast⟩
    · exact Or.inl hfound
    refine Or.inr ⟨hnone, sockFd'', sockets'', heq', howns', hlt', fun _ ↦ ?_⟩
    cases rest with
    | nil =>
      -- it was the last address
      cases heq'
      simpa using hunset
    | cons rp' rest =>
      rw [List.getLast?_cons_cons]
      exact hlast (by simp)

/-- **What `open_aesd_socket` comes to**, whatever `getaddrinfo` lists and the kernel answers.  If
an address is good, it returns a socket that is bound to the first such one, and no other is open.
If none is, all the sockets it made were closed once; it ends the process, or returns the number of
one that is closed, and that just when `setsockopt` failed for the last address.  The assertion
after the loop does not fail. -/
theorem openAesdSocket_iff (h : sockets.Owns []) (hne : addresses ≠ []) :
    (∀ rp, addresses.find? (·.Good) = some rp → ∃ fd sockets',
      openAesdSocket (some addresses) sockets = (.ok fd, sockets') ∧ sockets'.Owns [fd] ∧
      sockets'.get? fd = some (some rp.address)) ∧
    (addresses.find? (·.Good) = none → ∃ r sockets',
      openAesdSocket (some addresses) sockets = (r, sockets') ∧ sockets'.Owns [] ∧
      ((∃ fd, r = .ok fd ∧ sockets'.freed.count fd = 1) ↔
        ∃ rp ∈ addresses.getLast?, rp.Unset) ∧
      (r = .error .failure ↔ ¬ ∃ rp ∈ addresses.getLast?, rp.Unset)) := by
  obtain ⟨rp, rest, rfl⟩ := List.exists_cons_of_ne_nil hne
  simp only [openAesdSocket]
  rcases tryAddresses_spec h (rp :: rest) none (by simp) with
    ⟨rp', fd, sockets', hfind, heq, hfound⟩ | ⟨hfind, sockFd, sockets', heq, howns, hlt, hlast⟩
  · rw [heq, hfind]
    refine ⟨fun rp'' hrp ↦ ?_, by simp⟩
    obtain rfl := Option.some_inj.1 hrp
    exact ⟨fd, sockets', by simp, hfound⟩
  · rw [heq, hfind]
    refine ⟨by simp, fun _ ↦ ?_⟩
    rw [← hlast (by simp)]
    cases sockFd with
    | none => exact ⟨_, _, rfl, howns, by simp, by simp⟩
    | some fd => exact ⟨_, _, rfl, howns, by simpa using howns.count_freed (hlt fd rfl), by simp⟩

/-- The search for an address has its flaw: no address is good, and `setsockopt` failed for the last
one. -/
def Misled (result : Option (List AddressAnswer)) : Prop :=
  ∃ addresses ∈ result, addresses.find? (·.Good) = none ∧ ∃ rp ∈ addresses.getLast?, rp.Unset

instance (result : Option (List AddressAnswer)) : Decidable (Misled result) :=
  inferInstanceAs (Decidable (∃ addresses ∈ result, _))

/-- Without the flaw, the socket returned is the only one open. -/
theorem openAesdSocket_owns {result : Option (List AddressAnswer)} {sockets' : Sockets}
    {r : Except ExitCode ℕ} (h : sockets.Owns []) (hflaw : ¬ Misled result)
    (heq : openAesdSocket result sockets = (r, sockets')) :
    (∃ code, r = .error code ∧ sockets'.Owns []) ∨
      ∃ fd address, r = .ok fd ∧ sockets'.Owns [fd] ∧ sockets'.get? fd = some (some address) := by
  match result with
  | none => cases heq; exact Or.inl ⟨_, rfl, h⟩
  | some [] => cases heq; exact Or.inl ⟨_, rfl, h⟩
  | some (rp :: rest) =>
    simp only [openAesdSocket] at heq
    rcases tryAddresses_spec h (rp :: rest) none (by simp) with
      ⟨rp', fd, sockets', hfind, heq', hfound⟩ | ⟨hfind, sockFd, sockets', heq', howns, -, hlast⟩
    · rw [heq'] at heq
      cases heq
      exact Or.inr ⟨fd, rp'.address, by simp, hfound⟩
    · rw [heq'] at heq
      cases sockFd with
      | none => cases heq; exact Or.inl ⟨_, rfl, howns⟩
      | some fd => exact absurd ⟨_, rfl, hfind, (hlast (by simp)).1 (by simp)⟩ hflaw

end Opening

/-! ## From the start to the end -/

/-- What `fork` comes to. -/
inductive ForkAnswer
  /-- It fails. -/
  | failed
  /-- It returns in the parent. -/
  | parent
  /-- It returns in the child. -/
  | child
deriving DecidableEq, Repr

/-- What the process does next. -/
inductive Phase
  /-- `open_aesd_socket`. -/
  | begin
  /-- The test for `-d`. -/
  | opened (sockFd : ℕ)
  /-- `listen`. -/
  | started (sockFd : ℕ)
  /-- `pthread_rwlock_init`. -/
  | listening (sockFd : ℕ)
  /-- The main loop and what follows it in `run_server_logic`. -/
  | serving (sockFd : ℕ)
  /-- The end of `main`. -/
  | returned (sockFd : ℕ)
  /-- Nothing. -/
  | exited (code : ExitCode)
deriving DecidableEq, Repr

/-- The state of the process. -/
structure Process where
  /-- The build. -/
  build : Build
  /-- `argv`. -/
  argv : List String
  /-- The sockets made by `open_aesd_socket`. -/
  sockets : Sockets
  /-- Whether `SOCKET_DATA_FILE` is there, if no other process makes or removes it. -/
  dataFile : Bool
  /-- The server, as `run_server_logic` finds it and leaves it. -/
  system : System
  /-- What is done next. -/
  phase : Phase

/-- A step of the process, and what is decided outside it. -/
inductive ProcessEvent
  /-- `unlink` and `open_aesd_socket`. -/
  | openSocket (result : Option (List AddressAnswer))
  /-- The test for `-d`, and `fork` if it is there. -/
  | daemonize (fork : ForkAnswer)
  /-- `listen` works or not. -/
  | listen (ok : Bool)
  /-- `pthread_rwlock_init` works or not. -/
  | rwlockInit (ok : Bool)
  /-- A step of the server. -/
  | serve (l : Label)
  /-- `run_server_logic` returns. -/
  | leave
  /-- `close`, `unlink` and the return from `main`. -/
  | finish
deriving DecidableEq, Repr

namespace Process

/-- The process when `main` is called. -/
def init [Platform] (build : Build) (argv : List String) (dataFile : Bool) : Process :=
  ⟨build, argv, .empty, dataFile, .init build, .begin⟩

/-- The flag `-d`. -/
def daemonize (argv : List String) : Bool := argv.length == 2 && argv[1]? == some "-d"

/-- `unlink(SOCKET_DATA_FILE)`, which the device build leaves out. -/
def unlink (p : Process) : Process :=
  match p.build with
  | .device => p
  | .file => { p with dataFile := false }

variable [Platform]

/-- A step of the process.  `listen` does not work on a socket that is closed, and `fopen` makes the
data file. -/
def step (p : Process) (e : ProcessEvent) : Option Process :=
  match p.phase, e with
  | .begin, .openSocket result =>
    let (r, sockets) := openAesdSocket result p.sockets
    let p := { p.unlink with sockets := sockets }
    match r with
    | .error code => some { p with phase := .exited code }
    | .ok sockFd => some { p with phase := .opened sockFd }
  | .opened sockFd, .daemonize fork =>
    if daemonize p.argv then
      match fork with
      | .failed => some { p with sockets := p.sockets.free sockFd, phase := .exited .failure }
      | .parent => some { p with sockets := p.sockets.free sockFd, phase := .exited .success }
      | .child => some { p with phase := .started sockFd }
    else some { p with phase := .started sockFd }
  | .started sockFd, .listen ok =>
    if !ok then some { p with phase := .returned sockFd }
    else if p.sockets.Live sockFd then some { p with phase := .listening sockFd }
    else none
  | .listening sockFd, .rwlockInit ok =>
    if ok then some { p with system := .init p.build, phase := .serving sockFd }
    else some { p with phase := .exited .failure }
  | .serving _, .serve l =>
    (p.system.step l).map fun system ↦ { p with
      system := system
      dataFile := p.dataFile || decide (p.system.files.next < system.files.next) }
  | .serving sockFd, .leave =>
    if p.system.main = .exit ∧ p.system.halted = none then
      some { p with phase := .returned sockFd }
    else none
  | .returned sockFd, .finish =>
    some { p.unlink with sockets := p.sockets.free sockFd, phase := .exited .success }
  | _, _ => none

/-! ## Every step -/

variable {p q : Process} {e : ProcessEvent}

/-- The steps of the process. -/
inductive Move (p : Process) : ProcessEvent → Process → Prop
  /-- No socket. -/
  | noSocket {result : Option (List AddressAnswer)} {code : ExitCode} {sockets : Sockets}
    (hphase : p.phase = .begin) (h : openAesdSocket result p.sockets = (.error code, sockets)) :
    Move p (.openSocket result) { p.unlink with sockets := sockets, phase := .exited code }
  /-- A socket. -/
  | socket {result : Option (List AddressAnswer)} {sockFd : ℕ} {sockets : Sockets}
    (hphase : p.phase = .begin) (h : openAesdSocket result p.sockets = (.ok sockFd, sockets)) :
    Move p (.openSocket result) { p.unlink with sockets := sockets, phase := .opened sockFd }
  /-- The parent, or a `fork` that fails. -/
  | closes {fork : ForkAnswer} {sockFd : ℕ} (code : ExitCode) (hphase : p.phase = .opened sockFd)
    (hflag : daemonize p.argv = true) :
    Move p (.daemonize fork) { p with sockets := p.sockets.free sockFd, phase := .exited code }
  /-- The daemon, or no daemon. -/
  | starts {fork : ForkAnswer} {sockFd : ℕ} (hphase : p.phase = .opened sockFd) :
    Move p (.daemonize fork) { p with phase := .started sockFd }
  /-- `listen` fails. -/
  | noListen {sockFd : ℕ} (hphase : p.phase = .started sockFd) :
    Move p (.listen false) { p with phase := .returned sockFd }
  /-- `listen` works. -/
  | listens {sockFd : ℕ} (hphase : p.phase = .started sockFd) (hlive : p.sockets.Live sockFd) :
    Move p (.listen true) { p with phase := .listening sockFd }
  /-- There is a lock. -/
  | lock {sockFd : ℕ} (hphase : p.phase = .listening sockFd) :
    Move p (.rwlockInit true) { p with system := .init p.build, phase := .serving sockFd }
  /-- There is none. -/
  | noLock {sockFd : ℕ} (hphase : p.phase = .listening sockFd) :
    Move p (.rwlockInit false) { p with phase := .exited .failure }
  /-- A step of the server. -/
  | serves {sockFd : ℕ} {l : Label} {system : System} (hphase : p.phase = .serving sockFd)
    (h : p.system.step l = some system) :
    Move p (.serve l) { p with
      system := system
      dataFile := p.dataFile || decide (p.system.files.next < system.files.next) }
  /-- The server has ended. -/
  | leaves {sockFd : ℕ} (hphase : p.phase = .serving sockFd) (hmain : p.system.main = .exit)
    (hhalted : p.system.halted = none) : Move p .leave { p with phase := .returned sockFd }
  /-- The end. -/
  | finishes {sockFd : ℕ} (hphase : p.phase = .returned sockFd) :
    Move p .finish
      { p.unlink with sockets := p.sockets.free sockFd, phase := .exited .success }

theorem step_move (h : p.step e = some q) : p.Move e q := by
  unfold step at h
  split at h
  · rename_i result hphase
    cases hr : openAesdSocket result p.sockets with
    | mk r sockets =>
      rw [hr] at h
      cases r with
      | error code => cases h; exact .noSocket hphase hr
      | ok sockFd => cases h; exact .socket hphase hr
  · rename_i sockFd fork hphase
    split at h
    · cases fork with
      | failed => cases h; exact .closes _ hphase ‹_›
      | parent => cases h; exact .closes _ hphase ‹_›
      | child => cases h; exact .starts hphase
    · cases h; exact .starts hphase
  · rename_i sockFd ok hphase
    cases ok with
    | false => cases h; exact .noListen hphase
    | true =>
      split at h
      · contradiction
      · split at h
        · cases h; exact .listens hphase ‹_›
        · cases h
  · rename_i sockFd ok hphase
    cases ok with
    | false => cases h; exact .noLock hphase
    | true => cases h; exact .lock hphase
  · rename_i sockFd l hphase
    obtain ⟨system, hsystem, rfl⟩ := Option.map_eq_some_iff.1 h
    exact .serves hphase hsystem
  · rename_i sockFd hphase
    split at h
    · rename_i hmain
      cases h
      exact .leaves hphase hmain.1 hmain.2
    · cases h
  · rename_i sockFd hphase
    cases h
    exact .finishes hphase
  · cases h

/-- The search for an address does not have its flaw, and the lock and the threads of the clients
can be made. -/
def Orderly (p : Process) : ProcessEvent → Prop
  | .openSocket result => ¬ Misled result
  | .rwlockInit ok => ok = true
  | .serve l => p.system.CreateOk l
  | _ => True

instance (p : Process) : DecidablePred p.Orderly := fun e ↦ by
  cases e <;> unfold Orderly <;> infer_instance

end Process

/-- The sockets that are to be open. -/
def Phase.sockets : Phase → List ℕ
  | .begin | .exited _ => []
  | .opened fd | .started fd | .listening fd | .serving fd | .returned fd => [fd]

/-- The server has not been started yet. -/
def Phase.early : Phase → Bool
  | .begin | .opened _ | .started _ | .listening _ => true
  | _ => false

/-- The server has ended, or was never started. -/
def Phase.late : Phase → Bool
  | .returned _ | .exited _ => true
  | _ => false

/-- The data file must not be there, in the file build. -/
def Phase.clean : Phase → Bool
  | .opened _ | .started _ | .listening _ | .exited _ => true
  | _ => false

namespace Process

variable [Platform] {p q : Process} {e : ProcessEvent}

/-- **What is true of the process all the time.** -/
structure Inv (p : Process) : Prop where
  /-- The socket of the phase is open and no other. -/
  owns : p.sockets.Owns p.phase.sockets
  /-- It is bound. -/
  bound : ∀ fd ∈ p.phase.sockets, ∃ address, p.sockets.get? fd = some (some address)
  /-- The server is in a state that it can be in. -/
  system : Machine.Reachable System.step System.CreateOk (.init p.build) p.system
  /-- Before it is started it is as it starts. -/
  early : p.phase.early = true → p.system = .init p.build
  /-- When it is over, it was never started or came to its end. -/
  late : p.phase.late = true →
    p.system = .init p.build ∨ p.system.main = .exit ∧ p.system.halted = none
  /-- The data file is there only while the server serves. -/
  dataFile : p.build = .file → p.phase.clean = true → p.dataFile = false

theorem inv_init (build : Build) (argv : List String) (dataFile : Bool) :
    (init build argv dataFile).Inv where
  owns := Heap.owns_empty
  bound := by simp [init, Phase.sockets]
  system := .refl _
  early _ := rfl
  late h := by cases h
  dataFile _ h := by cases h

omit [Platform] in
theorem unlink_eq (p : Process) : ∃ dataFile, p.unlink = { p with dataFile := dataFile } ∧
    (p.build = .file → dataFile = false) := by
  obtain ⟨build, argv, sockets, dataFile, system, phase⟩ := p
  cases build with
  | device => exact ⟨dataFile, rfl, by simp⟩
  | file => exact ⟨false, rfl, fun _ ↦ rfl⟩

theorem Inv.step (h : p.Inv) (hok : p.Orderly e) (hs : p.step e = some q) : q.Inv := by
  obtain ⟨dataFile, hunlink, hfile⟩ := unlink_eq p
  have howns := h.owns
  have hbound := h.bound
  have hearly := h.early
  have hlate := h.late
  have hdata := h.dataFile
  cases step_move hs with
  | noSocket hphase heq =>
    rw [hphase] at howns hearly
    rw [hunlink]
    rcases openAesdSocket_owns howns hok heq with ⟨code, -, howns⟩ | ⟨fd, address, hr, -⟩
    · exact ⟨howns, by simp [Phase.sockets], h.system, by simp [Phase.early],
        fun _ ↦ Or.inl (hearly rfl), fun hb _ ↦ hfile hb⟩
    · cases hr
  | socket hphase heq =>
    rw [hphase] at howns hearly
    rw [hunlink]
    rcases openAesdSocket_owns howns hok heq with ⟨code, hr, -⟩ | ⟨fd, address, hr, howns, hget⟩
    · cases hr
    · cases hr
      exact ⟨howns, by simp [Phase.sockets, hget], h.system, fun _ ↦ hearly rfl,
        by simp [Phase.late], fun hb _ ↦ hfile hb⟩
  | closes code hphase =>
    rw [hphase] at howns hearly hdata
    exact ⟨howns.free, by simp [Phase.sockets], h.system, by simp [Phase.early],
      fun _ ↦ Or.inl (hearly rfl), fun hb _ ↦ hdata hb rfl⟩
  | starts hphase =>
    rw [hphase] at howns hbound hearly hdata
    exact ⟨howns, hbound, h.system, fun _ ↦ hearly rfl, by simp [Phase.late],
      fun hb _ ↦ hdata hb rfl⟩
  | noListen hphase =>
    rw [hphase] at howns hbound hearly
    exact ⟨howns, hbound, h.system, by simp [Phase.early], fun _ ↦ Or.inl (hearly rfl),
      by simp [Phase.clean]⟩
  | listens hphase hlive =>
    rw [hphase] at howns hbound hearly hdata
    exact ⟨howns, hbound, h.system, fun _ ↦ hearly rfl, by simp [Phase.late],
      fun hb _ ↦ hdata hb rfl⟩
  | lock hphase =>
    rw [hphase] at howns hbound
    exact ⟨howns, hbound, .refl _, by simp [Phase.early], by simp [Phase.late],
      by simp [Phase.clean]⟩
  | noLock hphase => cases hok
  | serves hphase hstep =>
    rw [hphase] at howns hbound
    refine ⟨by rw [hphase]; exact howns, by rw [hphase]; exact hbound,
      h.system.trans ⟨_, .single hok hstep⟩, ?_, ?_, ?_⟩ <;> rw [hphase]
    · simp [Phase.early]
    · simp [Phase.late]
    · simp [Phase.clean]
  | leaves hphase hmain hhalted =>
    rw [hphase] at howns hbound
    exact ⟨howns, hbound, h.system, by simp [Phase.early], fun _ ↦ Or.inr ⟨hmain, hhalted⟩,
      by simp [Phase.clean]⟩
  | finishes hphase =>
    rw [hphase] at howns hlate
    rw [hunlink]
    exact ⟨howns.free, by simp [Phase.sockets], h.system, by simp [Phase.early],
      fun _ ↦ hlate rfl, fun hb _ ↦ hfile hb⟩

omit [Platform] in
theorem build_unlink (p : Process) : p.unlink.build = p.build := by
  obtain ⟨dataFile, hunlink, -⟩ := unlink_eq p
  rw [hunlink]

theorem build_step (hs : p.step e = some q) : q.build = p.build := by
  cases step_move hs with
  | noSocket => exact build_unlink p
  | socket => exact build_unlink p
  | finishes => exact build_unlink p
  | _ => rfl

/-- **The life of the process**, in every run in which the search for an address does not have its
flaw and neither the lock nor a thread fails to be made.  It serves only while exactly one socket is
open and that socket is bound, and the server is in a state that it can be in by itself.  When the
process has ended, whether it was refused an address, was the parent of a daemon, could not listen,
or served, every socket it made was closed once and the file build has left no data file of its own
(when the parent of a daemon ends, the child may have made one already); and if it served, no client
is left, and every descriptor and file of theirs was closed once. -/
theorem life {build : Build} {argv : List String} {dataFile : Bool}
    (h : Machine.Reachable step Orderly (init build argv dataFile) p) :
    (∀ sockFd, p.phase = .serving sockFd → p.sockets.Owns [sockFd] ∧
      (∃ address, p.sockets.get? sockFd = some (some address)) ∧
      Machine.Reachable System.step System.CreateOk (.init build) p.system) ∧
    ∀ code, p.phase = .exited code →
      (∀ fd < p.sockets.next, p.sockets.freed.count fd = 1) ∧
      (build = .file → p.dataFile = false) ∧
      (p.system = .init build ∨ p.system.list = [] ∧
        (∀ fd < p.system.fds.next, p.system.fds.freed.count fd = 1) ∧
        ∀ file < p.system.files.next, p.system.files.freed.count file = 1) := by
  obtain ⟨hinv, hbuild⟩ := h.invariant (P := fun p ↦ p.Inv ∧ p.build = build)
    (fun p e q hp hok hs ↦ ⟨hp.1.step hok hs, (build_step hs).trans hp.2⟩)
    ⟨inv_init build argv dataFile, rfl⟩
  subst hbuild
  refine ⟨fun sockFd hphase ↦ ?_, fun code hphase ↦ ⟨fun fd hfd ↦ ?_, fun hb ↦ ?_, ?_⟩⟩
  · have howns := hinv.owns
    have hbound := hinv.bound
    rw [hphase] at howns hbound
    exact ⟨howns, hbound sockFd (List.mem_singleton_self _), hinv.system⟩
  · have howns := hinv.owns
    rw [hphase] at howns
    exact howns.count_freed hfd
  · exact hinv.dataFile hb (by rw [hphase]; rfl)
  · refine (hinv.late (by rw [hphase]; rfl)).imp_right fun hend ↦ ?_
    exact (System.listed_reachable hinv.system).exit (System.owning_reachable hinv.system) hend.1

/-! ## When the search is misled -/

/-- `sock_fd` is the number of a socket that is closed: once until the process ends, and twice
then. -/
def Astray (p : Process) : Prop :=
  match p.phase with
  | .opened sockFd | .started sockFd | .returned sockFd => p.sockets.freed.count sockFd = 1
  | .exited code =>
    (∃ fd, p.sockets.freed.count fd = 2) ∧ (daemonize p.argv = false → code = .success)
  | _ => False

theorem astray_of_misled {result : Option (List AddressAnswer)} (hflaw : Misled result)
    (hempty : p.sockets = .empty) (hs : p.step (.openSocket result) = some q) : q.Astray := by
  obtain ⟨addresses, rfl, hnone, hlast⟩ := hflaw
  obtain ⟨rp, rest, rfl⟩ : ∃ rp rest, addresses = rp :: rest := by
    cases addresses with
    | nil => simp at hlast
    | cons rp rest => exact ⟨rp, rest, rfl⟩
  rcases tryAddresses_spec (hempty ▸ Heap.owns_empty) (rp :: rest) none (by simp) with
    ⟨rp', fd, sockets', hfind, -⟩ | ⟨-, sockFd, sockets', heq, howns, hlt, hlast'⟩
  · rw [hnone] at hfind
    cases hfind
  obtain ⟨sockFd, rfl⟩ := Option.ne_none_iff_exists'.1 ((hlast' (by simp)).2 hlast)
  have hopen : openAesdSocket (some (rp :: rest)) p.sockets = (.ok sockFd, sockets') := by
    simp [openAesdSocket, heq]
  cases step_move hs with
  | noSocket _ h =>
    rw [hopen] at h
    cases h
  | socket _ h =>
    rw [hopen] at h
    cases h
    exact howns.count_freed (hlt sockFd rfl)

theorem Astray.step (h : p.Astray) (hs : p.step e = some q) : q.Astray := by
  have hcount : ∀ fd, p.sockets.freed.count fd = 1 → (p.sockets.free fd).freed.count fd = 2 := by
    intro fd hfd
    rw [Heap.freed_free, List.count_append, hfd, List.count_singleton_self]
  rw [Astray] at h
  cases step_move hs with
  | closes code hphase hflag =>
    rw [hphase] at h
    exact ⟨⟨_, hcount _ h⟩, by simp [hflag]⟩
  | starts hphase =>
    rw [hphase] at h
    exact h
  | noListen hphase =>
    rw [hphase] at h
    exact h
  | listens hphase hlive =>
    rw [hphase] at h
    exact absurd (List.one_le_count_iff.1 h.ge) hlive.2
  | finishes hphase =>
    rw [hphase] at h
    exact ⟨⟨_, hcount _ h⟩, fun _ ↦ rfl⟩
  | noSocket hphase => rw [hphase] at h; cases h
  | socket hphase => rw [hphase] at h; cases h
  | lock hphase => rw [hphase] at h; cases h
  | noLock hphase => rw [hphase] at h; cases h
  | serves hphase => rw [hphase] at h; cases h
  | leaves hphase => rw [hphase] at h; cases h

/-- **When the search is misled**, for want of a good address and because `setsockopt` failed for
the last one: the socket that it returns is closed, and whatever happens then, the process does not
serve.  When it has ended, it has closed one of its sockets twice; and unless it was to be a daemon
it has reported success. -/
theorem misled {build : Build} {argv : List String} {dataFile : Bool}
    {result : Option (List AddressAnswer)} {es : List ProcessEvent} (hflaw : Misled result)
    (hrun : Machine.Run step Machine.Always (init build argv dataFile)
      (.openSocket result :: es) p) :
    (∀ sockFd, p.phase = .opened sockFd ∨ p.phase = .started sockFd ∨ p.phase = .returned sockFd →
      p.sockets.freed.count sockFd = 1) ∧
    (∀ sockFd, p.phase ≠ .serving sockFd) ∧
    ∀ code, p.phase = .exited code → (∃ fd, p.sockets.freed.count fd = 2) ∧
      (daemonize p.argv = false → code = .success) := by
  obtain ⟨q, hq, hrest⟩ : ∃ q, (init build argv dataFile).step (.openSocket result) = some q ∧
      Machine.Run step Machine.Always q es p := by
    cases hrun with
    | cons _ hstep hrun => exact ⟨_, hstep, hrun⟩
  have hastray : p.Astray := hrest.invariant (fun p e q h _ hs ↦ h.step hs)
    (astray_of_misled hflaw rfl hq)
  rw [Astray] at hastray
  refine ⟨fun sockFd hphase ↦ ?_, fun sockFd hphase ↦ ?_, fun code hphase ↦ ?_⟩
  · rcases hphase with hphase | hphase | hphase <;> rw [hphase] at hastray <;> exact hastray
  · rw [hphase] at hastray
    cases hastray
  · rw [hphase] at hastray
    exact hastray

end Process

/-! ## Runs -/

namespace Process

/-- A daemon that finds its second address, and serves. -/
def daemon : List ProcessEvent :=
  [.openSocket (some [⟨0, true, false, true⟩, ⟨1, true, true, true⟩]), .daemonize .child,
    .listen true, .rwlockInit true] ++ System.serving.map .serve ++ [.leave, .finish]

/-- The address that is found is the only one, and `setsockopt` fails. -/
def noOption : List ProcessEvent :=
  [.openSocket (some [⟨0, true, false, true⟩]), .daemonize .child, .listen false, .finish]

end Process

theorem openAesdSocket_iff_second : ∃ fd sockets',
    openAesdSocket (some [⟨0, true, false, true⟩, ⟨1, true, true, true⟩]) .empty
      = (.ok fd, sockets') ∧ sockets'.Owns [fd] ∧ sockets'.get? fd = some (some 1) :=
  (openAesdSocket_iff Heap.owns_empty (by simp)).1 ⟨1, true, true, true⟩ (by decide)

namespace Process

attribute [local instance] linux64 in
theorem life_daemon : ∃ p : Process, p.phase = .exited .success ∧
    (∀ fd < p.sockets.next, p.sockets.freed.count fd = 1) ∧ p.dataFile = false := by
  let start := init .file ["aesdsocket", "-d"] true
  have hphase : (Machine.exec (fun p e ↦ if Orderly p e then step p e else none) start daemon).map
      Process.phase = some (.exited .success) := by decide +kernel
  obtain ⟨p, hp, hexit⟩ := Option.map_eq_some_iff.1 hphase
  obtain ⟨-, hlife⟩ := life ⟨daemon, Machine.run_of_exec_guarded hp⟩
  obtain ⟨hclosed, hdata, -⟩ := hlife .success hexit
  exact ⟨p, hexit, hclosed, hdata rfl⟩

attribute [local instance] linux64 in
theorem misled_noOption : ∃ p : Process, p.phase = .exited .success ∧
    ∃ fd, p.sockets.freed.count fd = 2 := by
  let start := init .file ["aesdsocket"] true
  have hphase : (Machine.exec step start noOption).map Process.phase
      = some (.exited .success) := by decide +kernel
  obtain ⟨p, hp, hexit⟩ := Option.map_eq_some_iff.1 hphase
  obtain ⟨-, -, hend⟩ := misled (by decide) (Machine.run_of_exec hp)
  exact ⟨p, hexit, (hend _ hexit).1⟩

end Process

end Aesd
