import Aesd.Server.MainThread
import Aesd.Server.Turn

/-!
# The steps of the server

What one step of the machine can do, said once (`System.step_transition`).  `System.step_cases`
splits the steps in two: those that no session takes part in (`System.Quiet`), and those that one
session makes (`System.Moves`).  Of the latter, `System.Meets` says what the thread meets outside
its session, and `System.Effect` what happens to the lock, the store and the log.

`System.session` is a client's session whether or not the client is still in memory, and a fresh one
for a client there never was; so the invariants can speak of all numbers.
-/

set_option autoImplicit false

namespace Aesd

/-- The session of a client. -/
def sessionOf (clients : Heap Client) (i : ℕ) : Session :=
  match clients.cells[i]? with
  | some c => c.session
  | none => .init

/-- Where the thread makes the step. -/
def ThreadEvent.pc : ThreadEvent → Pc
  | .start _ => .start
  | .recv _ => .recv
  | .scan _ => .scan
  | .wrlock => .wrlock
  | .ioctl => .ioctl
  | .write .. => .fwrite
  | .fseek => .fseek
  | .wrunlock => .wrunlock
  | .rdlock => .rdlock
  | .read _ => .fread
  | .send _ => .send
  | .rdunlock => .rdunlock
  | .next => .next
  | .free => .free
  | .close => .close
  | .mark => .mark

section Clients

variable {clients : Heap Client} {c : Client} {i j : ℕ}

theorem sessionOf_eq (h : clients.get? i = some c) : sessionOf clients i = c.session := by
  rw [Heap.get?] at h
  split at h
  · exact absurd h (by simp)
  · rw [sessionOf, h]

theorem sessionOf_set_self (h : clients.Live i) : sessionOf (clients.set i c) i = c.session := by
  rw [sessionOf, Heap.set, List.getElem?_set_self h.1]

theorem sessionOf_set_ne (h : j ≠ i) : sessionOf (clients.set i c) j = sessionOf clients j := by
  rw [sessionOf, Heap.set, List.getElem?_set_ne h.symm, sessionOf]

theorem sessionOf_next (clients : Heap Client) : sessionOf clients clients.next = .init := by
  rw [sessionOf, Heap.next, List.getElem?_eq_none le_rfl]

/-- A new client has a fresh session, which it already had. -/
theorem sessionOf_alloc (h : c.session = .init) :
    sessionOf (clients.alloc c) j = sessionOf clients j := by
  rcases Nat.lt_trichotomy j clients.next with hj | rfl | hj
  · rw [sessionOf, Heap.alloc, List.getElem?_append_left hj, sessionOf]
  · rw [sessionOf_next, sessionOf, Heap.alloc, Heap.next]
    simp [h]
  · have h1 : clients.cells[j]? = none := List.getElem?_eq_none (Nat.le_of_lt hj)
    have h2 : (clients.alloc c).cells[j]? = none := by
      refine List.getElem?_eq_none ?_
      rw [Heap.alloc, List.length_append, List.length_singleton]
      exact hj
    rw [sessionOf, sessionOf, h1, h2]

end Clients

namespace System

/-- The session of a client. -/
def session (s : System) (i : ℕ) : Session := sessionOf s.clients i

/-- A step in which no session takes part. -/
structure Quiet (s t : System) : Prop where
  /-- The store stays. -/
  store : t.store = s.store
  /-- So does the lock. -/
  lock : t.lock = s.lock
  /-- So does the log. -/
  log : t.log = s.log
  /-- Nothing is evicted. -/
  evicted : t.evicted = s.evicted
  /-- The sessions stay, but that a joined client's fragments may have been freed. -/
  session : ∀ i, ∃ mem, t.session i = { s.session i with mem := mem }
  /-- A client in memory has the session it had, or a fresh one. -/
  live : ∀ i c, t.clients.get? i = some c →
    c.session = .init ∨ ∃ c', s.clients.get? i = some c' ∧ c.session = c'.session
  /-- No client is freed twice. -/
  sound : t.clients.Sound

variable [Platform]

/-- What a session's step does outside the session. -/
inductive Effect (s : System) (i : ℕ) (c : Client) : Event → System → Prop
  /-- The lock is taken for writing, and the packet enters the log. -/
  | wrlock {lock : RwLock} (h : s.lock.wrlock i = some lock) :
    Effect s i c .wrlock { s with lock := lock, log := s.log ++ toStore i c.session }
  /-- The lock is taken for reading. -/
  | rdlock {lock : RwLock} (h : s.lock.rdlock i = some lock) :
    Effect s i c .rdlock { s with lock := lock }
  /-- The lock is given back. -/
  | wrunlock : Effect s i c .wrunlock { s with lock := s.lock.unlock i }
  /-- The lock is given back. -/
  | rdunlock : Effect s i c .rdunlock { s with lock := s.lock.unlock i }
  /-- A seek. -/
  | ioctl {seekto : AesdSeekto} {f_pos : ℤ} (hseek : c.session.seekto = some seekto)
    (h : s.store.ioctl c.session.f_pos seekto = .ok f_pos) : Effect s i c (.ioctl f_pos) s
  /-- A `write` call. -/
  | write {count : ℕ} {o : WriteOutcome} {ok : Bool} {f_pos : ℤ} {store : Store}
    (h : s.store.write c.session.f_pos (c.session.rest.take count) o = .ok (ok, f_pos, store)) :
    Effect s i c (.write count ok f_pos)
      { s with
        store := store
        evicted := s.evicted ++ s.store.evicted (c.session.rest.take count) o ok }
  /-- A `read` call. -/
  | read {count : ℕ} {bytes : List Byte} {f_pos : ℤ} (hcount : 0 < count)
    (h : s.store.read c.session.f_pos count = .ok (bytes, f_pos)) :
    Effect s i c (.read bytes f_pos) s
  /-- Nothing that others see. -/
  | own {e : Event} {s' : System} (he : e.own = true) (store : s'.store = s.store)
    (lock : s'.lock = s.lock) (log : s'.log = s.log) (evicted : s'.evicted = s.evicted)
    (clients : s'.clients = s.clients) : Effect s i c e s'

variable {s s' t : System} {i : ℕ} {c : Client} {e : ThreadEvent} {event : Event} {l : Label}

/-- What a step of a thread meets outside its session, call by call. -/
inductive Meets (s : System) (i : ℕ) (c : Client) : ThreadEvent → Event → System → Prop
  /-- The lock is granted for writing. -/
  | wrlock {lock : RwLock} (h : s.lock.wrlock i = some lock) :
    Meets s i c .wrlock .wrlock { s with lock := lock, log := s.log ++ toStore i c.session }
  /-- The lock is granted for reading. -/
  | rdlock {lock : RwLock} (h : s.lock.rdlock i = some lock) :
    Meets s i c .rdlock .rdlock { s with lock := lock }
  /-- The lock is given back. -/
  | wrunlock : Meets s i c .wrunlock .wrunlock { s with lock := s.lock.unlock i }
  /-- The lock is given back. -/
  | rdunlock : Meets s i c .rdunlock .rdunlock { s with lock := s.lock.unlock i }
  /-- The store's `ioctl`. -/
  | ioctl {seekto : AesdSeekto} {f_pos : ℤ} (hseek : c.session.seekto = some seekto)
    (h : s.store.ioctl c.session.f_pos seekto = .ok f_pos) : Meets s i c .ioctl (.ioctl f_pos) s
  /-- The store's `write`. -/
  | write {count : ℕ} {o : WriteOutcome} {ok : Bool} {f_pos : ℤ} {store : Store}
    (h : s.store.write c.session.f_pos (c.session.rest.take count) o = .ok (ok, f_pos, store)) :
    Meets s i c (.write count o) (.write count ok f_pos)
      { s with
        store := store
        evicted := s.evicted ++ s.store.evicted (c.session.rest.take count) o ok }
  /-- The store's `read`. -/
  | read {count : ℕ} {bytes : List Byte} {f_pos : ℤ} (hcount : 0 < count)
    (h : s.store.read c.session.f_pos count = .ok (bytes, f_pos)) :
    Meets s i c (.read count) (.read bytes f_pos) s
  /-- The socket accepts some bytes. -/
  | send {count : ℕ} (hup : c.hungUp = false) : Meets s i c (.send count) (.send count) s
  /-- The peer has closed the connection. -/
  | sigpipe {count : ℕ} (hup : c.hungUp = true) :
    Meets s i c (.send count) (.send 0) { s with halted := some .sigpipe }
  /-- The descriptor is closed. -/
  | close {fd : ℕ} (hfd : c.peerFd = some fd) :
    Meets s i c .close .close { s with fds := s.fds.free fd }
  /-- There is no descriptor. -/
  | closed (hfd : c.peerFd = none) : Meets s i c .close .close s
  /-- Nothing. -/
  | own {e : ThreadEvent} {event : Event} (he : event.own = true) (hpc : event.pc = e.pc)
    (hne : e.pc ≠ .close ∧ e.pc ≠ .send) : Meets s i c e event s

/-- **What a thread meets outside its session.** -/
theorem outside_meets (h : s.outside i c e = some (.ok (event, s'))) : s.Meets i c e event s' := by
  cases e with
  | wrlock =>
    obtain ⟨lock, hlock, h⟩ := Option.map_eq_some_iff.1 h
    cases h
    exact .wrlock hlock
  | rdlock =>
    obtain ⟨lock, hlock, h⟩ := Option.map_eq_some_iff.1 h
    cases h
    exact .rdlock hlock
  | wrunlock => cases h; exact .wrunlock
  | rdunlock => cases h; exact .rdunlock
  | ioctl =>
    obtain ⟨seekto, hseek, h⟩ := Option.map_eq_some_iff.1 h
    obtain ⟨f_pos, hpos, h⟩ := bind_eq_ok.1 h
    cases h
    exact .ioctl hseek hpos
  | write count o =>
    obtain ⟨⟨ok, f_pos, store⟩, hw, h⟩ := bind_eq_ok.1 (Option.some_inj.1 h)
    cases h
    exact .write hw
  | read count =>
    rw [outside] at h
    split at h
    · rename_i hcount
      obtain ⟨⟨bytes, f_pos⟩, hr, h⟩ := bind_eq_ok.1 (Option.some_inj.1 h)
      cases h
      exact .read hcount.1 hr
    · exact absurd h (by simp)
  | send count =>
    rw [outside] at h
    split at h
    · rename_i hup
      cases h
      exact .sigpipe hup
    · rename_i hup
      cases h
      exact .send (by simpa using hup)
  | close =>
    rw [outside] at h
    split at h
    · rename_i fd hfd
      cases h
      exact .close hfd
    · rename_i hfd
      cases h
      exact .closed hfd
  | _ => cases h; exact .own rfl rfl (by simp [ThreadEvent.pc])

/-- What of it the other sessions see. -/
theorem outside_cases (h : s.outside i c e = some (.ok (event, s'))) : s.Effect i c event s' := by
  cases outside_meets h with
  | wrlock hlock => exact .wrlock hlock
  | rdlock hlock => exact .rdlock hlock
  | wrunlock => exact .wrunlock
  | rdunlock => exact .rdunlock
  | ioctl hseek hpos => exact .ioctl hseek hpos
  | write hw => exact .write hw
  | read hcount hr => exact .read hcount hr
  | own he => exact .own he rfl rfl rfl rfl rfl
  | _ => exact .own rfl rfl rfl rfl rfl rfl

/-- The event of a session is that of its thread. -/
theorem outside_pc (h : s.outside i c e = some (.ok (event, s'))) : event.pc = e.pc := by
  cases outside_meets h with
  | own _ hpc => exact hpc
  | _ => rfl

section Inversion

variable {f_pos : ℤ}

theorem effect_wrlock (h : s.Effect i c .wrlock s') : ∃ lock, s.lock.wrlock i = some lock ∧
    s' = { s with lock := lock, log := s.log ++ toStore i c.session } := by
  cases h with
  | wrlock h => exact ⟨_, h, rfl⟩
  | own he => cases he

theorem effect_rdlock (h : s.Effect i c .rdlock s') : ∃ lock, s.lock.rdlock i = some lock ∧
    s' = { s with lock := lock } := by
  cases h with
  | rdlock h => exact ⟨_, h, rfl⟩
  | own he => cases he

theorem effect_ioctl (h : s.Effect i c (.ioctl f_pos) s') : s' = s ∧ ∃ seekto,
    c.session.seekto = some seekto ∧ s.store.ioctl c.session.f_pos seekto = .ok f_pos := by
  cases h with
  | ioctl hseek h => exact ⟨rfl, _, hseek, h⟩
  | own he => cases he

theorem effect_write {count : ℕ} {ok : Bool} (h : s.Effect i c (.write count ok f_pos) s') :
    ∃ o store,
      s.store.write c.session.f_pos (c.session.rest.take count) o = .ok (ok, f_pos, store) ∧
      s' = { s with
        store := store
        evicted := s.evicted ++ s.store.evicted (c.session.rest.take count) o ok } := by
  cases h with
  | write h => exact ⟨_, _, h, rfl⟩
  | own he => cases he

theorem effect_read {bytes : List Byte} (h : s.Effect i c (.read bytes f_pos) s') : s' = s ∧
    ∃ count, 0 < count ∧ s.store.read c.session.f_pos count = .ok (bytes, f_pos) := by
  cases h with
  | read hcount h => exact ⟨rfl, _, hcount, h⟩
  | own he => cases he

/-- Only a `write` call changes the store. -/
theorem Effect.store_eq (h : s.Effect i c event s')
    (hne : ∀ count ok f_pos, event ≠ .write count ok f_pos) :
    s'.store = s.store ∧ s'.evicted = s.evicted := by
  cases h with
  | write => exact absurd rfl (hne _ _ _)
  | own he hstore hlock hlog hevicted => exact ⟨hstore, hevicted⟩
  | _ => exact ⟨rfl, rfl⟩

end Inversion

/-- **A step that a session makes**: its event, what happens outside it, and its state after. -/
structure Moves (s : System) (i : ℕ) (e : ThreadEvent) (t : System) (c : Client) (event : Event)
    (s' : System) (u : Session) : Prop where
  /-- The client is in memory. -/
  get : s.clients.get? i = some c
  /-- Its thread runs. -/
  running : c.thread = .running
  /-- What it meets outside. -/
  outside : s.outside i c e = some (.ok (event, s'))
  /-- What the session does. -/
  step : Session.step s.store.build c.session event = some u
  /-- The result. -/
  eq : t = haltOn { s' with clients := s.clients.set i (c.after u) } u

theorem threadStep_cases (h : s.threadStep i e = some t) :
    (∃ c bug, s.clients.get? i = some c ∧ s.outside i c e = some (.error bug) ∧
      t = { s with halted := some (.bug bug) }) ∨
    ∃ c event s' u, s.Moves i e t c event s' u := by
  rw [threadStep] at h
  split at h
  · exact absurd h (by simp)
  rename_i c hget
  split at h
  swap
  · exact absurd h (by simp)
  rename_i hrun
  split at h
  · exact absurd h (by simp)
  · rename_i bug hout
    exact Or.inl ⟨c, bug, hget, hout, (Option.some_inj.1 h).symm⟩
  · rename_i event s' hout
    obtain ⟨u, hstep, h⟩ := Option.map_eq_some_iff.1 h
    exact Or.inr ⟨c, event, s', u, hget, hrun, hout, hstep, h.symm⟩

omit [Platform] in
theorem session_eq (h : s.clients.get? i = some c) : s.session i = c.session := sessionOf_eq h

omit [Platform] in
@[simp] theorem after_session (c : Client) (u : Session) : (c.after u).session = u := by
  rw [Client.after]
  split <;> rfl

omit [Platform] in
theorem haltOn_eq (s : System) (u : Session) :
    ∃ halted, haltOn s u = { s with halted := halted } := by
  rw [haltOn]
  split
  · exact ⟨_, rfl⟩
  · exact ⟨s.halted, rfl⟩

namespace Moves

variable {u : Session}

theorem effect (h : s.Moves i e t c event s' u) : s.Effect i c event s' := outside_cases h.outside

theorem shared (h : s.Moves i e t c event s' u) :
    t.store = s'.store ∧ t.lock = s'.lock ∧ t.log = s'.log ∧ t.evicted = s'.evicted := by
  obtain ⟨halted, heq⟩ := haltOn_eq { s' with clients := s.clients.set i (c.after u) } u
  rw [h.eq, heq]
  exact ⟨rfl, rfl, rfl, rfl⟩

theorem clients (h : s.Moves i e t c event s' u) : t.clients = s.clients.set i (c.after u) := by
  obtain ⟨halted, heq⟩ := haltOn_eq { s' with clients := s.clients.set i (c.after u) } u
  rw [h.eq, heq]

theorem pc_eq (h : s.Moves i e t c event s' u) : c.session.pc = event.pc ∧ event.pc = e.pc :=
  ⟨(Session.step_eq_some.1 h.step).1, outside_pc h.outside⟩

theorem session_self (h : s.Moves i e t c event s' u) : t.session i = u := by
  rw [session, h.clients, sessionOf_set_self (Heap.live_of_get? h.get), after_session]

theorem session_ne (h : s.Moves i e t c event s' u) {j : ℕ} (hj : j ≠ i) :
    t.session j = s.session j := by
  rw [session, h.clients, sessionOf_set_ne hj, session]

theorem get_self (h : s.Moves i e t c event s' u) : t.clients.get? i = some (c.after u) := by
  rw [h.clients, Heap.get?_set_self (Heap.live_of_get? h.get)]

theorem get_ne (h : s.Moves i e t c event s' u) {j : ℕ} (hj : j ≠ i) :
    t.clients.get? j = s.clients.get? j := by
  rw [h.clients, Heap.get?_set_of_ne hj]

end Moves

/-! ## The steps in which no session takes part -/

section Quiet

omit [Platform]

theorem quiet_same (hs : s.clients.Sound)
    (h : t.store = s.store ∧ t.lock = s.lock ∧ t.log = s.log ∧ t.evicted = s.evicted)
    (hc : t.clients = s.clients) : s.Quiet t := by
  obtain ⟨h1, h2, h3, h4⟩ := h
  refine ⟨h1, h2, h3, h4, fun j ↦ ⟨(s.session j).mem, ?_⟩, fun j c hget ↦ ?_, hc ▸ hs⟩
  · rw [session, hc, session]
  · exact Or.inr ⟨c, hc ▸ hget, rfl⟩

/-- Something of a client changes that is not its session. -/
theorem quiet_set (hs : s.clients.Sound)
    (h : t.store = s.store ∧ t.lock = s.lock ∧ t.log = s.log ∧ t.evicted = s.evicted)
    {c' : Client} (hget : s.clients.get? i = some c) (hc : t.clients = s.clients.set i c')
    (hc' : c'.session = c.session) : s.Quiet t := by
  obtain ⟨h1, h2, h3, h4⟩ := h
  have hlive := Heap.live_of_get? hget
  refine ⟨h1, h2, h3, h4, fun j ↦ ⟨(s.session j).mem, ?_⟩, fun j d hd ↦ Or.inr ?_,
    hc ▸ hs.set i c'⟩
  · rw [session, hc]
    by_cases hj : j = i
    · subst hj
      rw [sessionOf_set_self hlive, hc', session_eq hget]
    · rw [sessionOf_set_ne hj, session]
  · rw [hc] at hd
    by_cases hj : j = i
    · subst hj
      rw [Heap.get?_set_self hlive] at hd
      exact ⟨c, hget, by rw [← Option.some_inj.1 hd, hc']⟩
    · rw [Heap.get?_set_of_ne hj] at hd
      exact ⟨d, hd, rfl⟩

theorem sessionOf_free (clients : Heap Client) (i j : ℕ) :
    sessionOf (clients.free i) j = sessionOf clients j := rfl

/-- A client is allocated. -/
theorem quiet_alloc (hs : s.clients.Sound)
    (h : t.store = s.store ∧ t.lock = s.lock ∧ t.log = s.log ∧ t.evicted = s.evicted)
    {info : Client} (hinfo : info.session = .init) (hc : t.clients = s.clients.alloc info) :
    s.Quiet t := by
  obtain ⟨h1, h2, h3, h4⟩ := h
  refine ⟨h1, h2, h3, h4, fun j ↦ ⟨(s.session j).mem, ?_⟩, fun j d hd ↦ ?_, hc ▸ hs.alloc info⟩
  · rw [session, hc, sessionOf_alloc hinfo, session]
  · rw [hc] at hd
    rcases (Heap.live_alloc hs.next_notMem).1 (Heap.live_of_get? hd) with rfl | hj
    · rw [Heap.get?_alloc_next hs.next_notMem] at hd
      exact Or.inl (Option.some_inj.1 hd ▸ hinfo)
    · rw [Heap.get?_alloc_of_live hj] at hd
      exact Or.inr ⟨d, hd, rfl⟩

/-- A client is freed. -/
theorem quiet_free (hs : s.clients.Sound)
    (h : t.store = s.store ∧ t.lock = s.lock ∧ t.log = s.log ∧ t.evicted = s.evicted)
    (hlive : s.clients.Live i) (hc : t.clients = s.clients.free i) : s.Quiet t := by
  obtain ⟨h1, h2, h3, h4⟩ := h
  refine ⟨h1, h2, h3, h4, fun j ↦ ⟨(s.session j).mem, ?_⟩, fun j d hd ↦ Or.inr ?_,
    hc ▸ hs.free hlive⟩
  · rw [session, hc, sessionOf_free, session]
  · rw [hc] at hd
    by_cases hj : j = i
    · subst hj
      exact absurd hd (by simp)
    · rw [Heap.get?_free_of_ne hj] at hd
      exact ⟨d, hd, rfl⟩

theorem Quiet.trans {u : System} (h : s.Quiet t) (h' : t.Quiet u) : s.Quiet u := by
  refine ⟨h'.store.trans h.store, h'.lock.trans h.lock, h'.log.trans h.log,
    h'.evicted.trans h.evicted, fun i ↦ ?_, fun i c hc ↦ ?_, h'.sound⟩
  · obtain ⟨mem, heq⟩ := h.session i
    obtain ⟨mem', heq'⟩ := h'.session i
    exact ⟨mem', by rw [heq', heq]⟩
  · rcases h'.live i c hc with hinit | ⟨c', hc', heq⟩
    · exact Or.inl hinit
    · rw [heq]
      exact h.live i c' hc'

/-- A step of the main thread. -/
theorem quiet_mainMove (hs : s.clients.Sound) {e : MainEvent} (h : s.MainMove e t) : s.Quiet t := by
  -- a client that cannot be started is freed again
  have halloc : ∀ info : Client, info.session = .init → ∀ {t : System},
      t.store = s.store ∧ t.lock = s.lock ∧ t.log = s.log ∧ t.evicted = s.evicted →
      t.clients = (s.clients.alloc info).free s.clients.next → s.Quiet t := by
    intro info hinfo t hsame hc
    have h1 := quiet_alloc (t := { s with clients := s.clients.alloc info }) hs ⟨rfl, rfl, rfl, rfl⟩
      hinfo rfl
    exact h1.trans (quiet_free h1.sound hsame ((Heap.live_alloc hs.next_notMem).2 (Or.inl rfl)) hc)
  cases h with
  | noFile => exact halloc _ rfl ⟨rfl, rfl, rfl, rfl⟩ rfl
  | noThread => exact halloc _ rfl ⟨rfl, rfl, rfl, rfl⟩ rfl
  | start => exact quiet_alloc hs ⟨rfl, rfl, rfl, rfl⟩ rfl rfl
  | cancel _ hget => exact quiet_set hs ⟨rfl, rfl, rfl, rfl⟩ hget rfl rfl
  | @join i next cancel c mem _ hget =>
    have hlive := Heap.live_of_get? hget
    refine ⟨rfl, rfl, rfl, rfl, fun j ↦ ?_, fun j d hd ↦ Or.inr ?_,
      (hs.set _ _).free (by simpa using hlive)⟩
    · rw [session, sessionOf_free]
      by_cases hj : j = i
      · subst hj
        rw [sessionOf_set_self hlive, session_eq hget]
        exact ⟨mem, rfl⟩
      · rw [sessionOf_set_ne hj]
        exact ⟨(s.session j).mem, rfl⟩
    · by_cases hj : j = i
      · subst hj
        exact absurd hd (by simp)
      · rw [Heap.get?_free_of_ne hj, Heap.get?_set_of_ne hj] at hd
        exact ⟨d, hd, rfl⟩
  | _ => exact quiet_same hs ⟨rfl, rfl, rfl, rfl⟩ rfl

end Quiet

/-- What a step does, thread by thread. -/
inductive Transition (s : System) : Label → System → Prop
  /-- The main thread makes a step. -/
  | main {e : MainEvent} {t : System} (hm : s.MainMove e t) : Transition s (.main e) t
  /-- A client's thread makes a step. -/
  | thread {i : ℕ} {e : ThreadEvent} {t s' : System} {c : Client} {event : Event} {u : Session}
    (hm : s.Moves i e t c event s' u) : Transition s (.thread i e) t
  /-- A client's thread does what must not happen. -/
  | bug {i : ℕ} {e : ThreadEvent} {c : Client} {bug : Bug} (hget : s.clients.get? i = some c)
    (hout : s.outside i c e = some (.error bug)) :
    Transition s (.thread i e) { s with halted := some (.bug bug) }
  /-- A client's thread is cancelled. -/
  | cancel {i : ℕ} {c : Client} (hget : s.clients.get? i = some c) (hrun : c.thread = .running)
    (hcancelled : c.cancelled = true) (hpc : c.session.pc.cancellation = true) :
    Transition s (.cancel i) { s with clients := s.clients.set i { c with thread := .ended } }
  /-- A client closes its connection. -/
  | hangup {i : ℕ} {c : Client} (hget : s.clients.get? i = some c) :
    Transition s (.hangup i) { s with clients := s.clients.set i { c with hungUp := true } }
  /-- A signal comes. -/
  | signal : Transition s .signal { s with running := false }

/-- **What a step can be.** -/
theorem step_transition (h : s.step l = some t) : s.halted = none ∧ s.Transition l t := by
  unfold step at h
  split at h
  swap
  · cases h
  rename_i hhalted
  refine ⟨hhalted, ?_⟩
  cases l with
  | main e => exact .main (mainStep_cases h)
  | thread i e =>
    rcases threadStep_cases h with ⟨c, bug, hget, hout, rfl⟩ | ⟨c, event, s', u, hm⟩
    · exact .bug hget hout
    · exact .thread hm
  | cancel i =>
    simp only [cancelStep] at h
    split at h
    · cases h
    rename_i c hget
    split at h
    · rename_i hc
      cases h
      exact .cancel hget hc.1 hc.2.1 hc.2.2
    · cases h
  | hangup i =>
    simp only [hangupStep] at h
    split at h
    · cases h
    · cases h
      exact .hangup ‹_›
  | signal =>
    cases h
    exact .signal

/-- **The two kinds of steps**: those in which no session takes part, and those that a session
makes. -/
theorem step_cases (hs : s.clients.Sound) (h : s.step l = some t) :
    s.Quiet t ∨ ∃ i e c event s' u, l = .thread i e ∧ s.Moves i e t c event s' u := by
  cases (step_transition h).2 with
  | main hm => exact Or.inl (quiet_mainMove hs hm)
  | thread hm => exact Or.inr ⟨_, _, _, _, _, _, rfl, hm⟩
  | cancel hget => exact Or.inl (quiet_set hs ⟨rfl, rfl, rfl, rfl⟩ hget rfl rfl)
  | hangup hget => exact Or.inl (quiet_set hs ⟨rfl, rfl, rfl, rfl⟩ hget rfl rfl)
  | _ => exact Or.inl (quiet_same hs ⟨rfl, rfl, rfl, rfl⟩ rfl)

end System

end Aesd
