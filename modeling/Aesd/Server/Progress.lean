import Aesd.Server.Survival
import Aesd.Server.Work

/-!
# Every client comes to its turn

A client whose packet is complete may have to wait for the lock.  Those who hold it are at most at
the end of an append, or of a reply; both end by steps of their own threads, which nobody can hold
up, unless a reply would have to be sent to a client that has closed its connection
(`System.NothingOwed`).  So from every state that is reached without such a `send`, the server can
go on to deal with all that it has received from a client (`System.Ready.settles`).

An `Advance` is a run in which one client's thread moves on and no other.
-/

set_option autoImplicit false

namespace Aesd

namespace System

section Progress

variable [Platform]

/-- No client that has closed its connection is to be sent anything more in a reply under way. -/
def NothingOwed (s : System) : Prop :=
  ∀ (i : ℕ) (c : Client), s.clients.get? i = some c → c.hungUp = true →
    ¬ c.session.Owing s.store.content

/-- The device has room for every packet. -/
def Storable (s : System) : Prop :=
  s.store.build = .device →
    ∀ i, ∀ p ∈ segments (s.session i).stream, p.length ≤ Platform.kmallocMax

instance (s : System) : Decidable s.NothingOwed :=
  decidable_of_iff (∀ i < s.clients.next, ∀ c ∈ s.clients.get? i, c.hungUp = true →
    ¬ c.session.Owing s.store.content)
    ⟨fun h i c hc ↦ h i (Heap.live_of_get? hc).1 c hc, fun h i _ c hc ↦ h i c hc⟩

instance (s : System) : Decidable s.Storable :=
  decidable_of_iff (s.store.build = .device → ∀ i < s.clients.next,
    ∀ p ∈ segments (s.session i).stream, p.length ≤ Platform.kmallocMax) <| by
  refine ⟨fun h hbuild i p hp ↦ ?_, fun h hbuild i _ ↦ h hbuild i⟩
  by_cases hi : i < s.clients.next
  · exact h hbuild i hi p hp
  · -- who was never accepted has sent nothing
    rw [session, sessionOf, List.getElem?_eq_none (Nat.le_of_not_lt hi)] at hp
    cases hp

/-- The client threads can go on. -/
structure Ready (build : Build) (s : System) : Prop where
  /-- The server runs. -/
  alive : s.Alive build
  /-- No thread has ended with the lock. -/
  ended : s.EndedOutside
  /-- No reply is held up. -/
  owed : s.NothingOwed
  /-- No append is held up. -/
  storable : s.Storable

/-- A step of a client's thread. -/
def Working (s : System) (l : Label) : Prop := s.Spared l ∧ ∃ i e, l = .thread i e

/-- **A run in which one client's thread moves on**, and receives nothing. -/
structure Advance (i : ℕ) (s t : System) : Prop where
  /-- The run. -/
  reach : Machine.Reachable step Working s t
  /-- The other clients stay. -/
  others : ∀ j, j ≠ i → t.clients.get? j = s.clients.get? j
  /-- So do their sessions. -/
  sessions : ∀ j, j ≠ i → t.session j = s.session j
  /-- Of the client it is only the session that changes. -/
  client : ∀ c, s.clients.get? i = some c →
    t.clients.get? i = some { c with session := t.session i }
  /-- Nothing is received. -/
  stream : (t.session i).stream = (s.session i).stream

variable {build : Build} {s s' t v : System} {i j : ℕ} {c : Client} {e : ThreadEvent}
  {event : Event} {u : Session} {l : Label}

namespace Advance

theorem refl (s : System) (i : ℕ) : s.Advance i s where
  reach := .refl s
  others _ _ := rfl
  sessions _ _ := rfl
  client c hc := by rw [session_eq hc, hc]
  stream := rfl

theorem trans (h : s.Advance i t) (h' : t.Advance i v) : s.Advance i v where
  reach := h.reach.trans h'.reach
  others j hj := (h'.others j hj).trans (h.others j hj)
  sessions j hj := (h'.sessions j hj).trans (h.sessions j hj)
  client c hc := by
    have hmid := h'.client _ (h.client c hc)
    exact hmid
  stream := h'.stream.trans h.stream

end Advance

/-- A step of a thread that is not its last. -/
theorem Moves.advance (hm : s.Moves i e t c event s' u) (hl : s.Spared (.thread i e))
    (hstep : s.step (.thread i e) = some t) (hpc : u.pc ≠ .done)
    (hstream : u.stream = c.session.stream) : s.Advance i t where
  reach := ⟨[_], .single ⟨hl, i, e, rfl⟩ hstep⟩
  others _ hj := hm.get_ne hj
  sessions _ hj := hm.session_ne hj
  client d hd := by
    obtain rfl := Option.some_inj.1 (hm.get.symm.trans hd)
    rw [hm.get_self, hm.session_self, Client.after, if_neg hpc]
  stream := by rw [hm.session_self, session_eq hm.get, hstream]

/-- A thread that is not waiting makes its step. -/
theorem Alive.enabled (h : s.Alive build) (hget : s.clients.get? i = some c)
    (hrun : c.thread = .running) (hout : s.outside i c e = some (.ok (event, s')))
    (hstep : Session.step build c.session event = some u) :
    ∃ t, s.step (.thread i e) = some t ∧ s.Moves i e t c event s' u := by
  rw [← h.shared.build] at hstep
  refine ⟨_, ?_, hget, hrun, hout, hstep, rfl⟩
  rw [System.step, if_pos h.halted]
  simp only [threadStep, hget, if_pos hrun, hout, hstep, Option.map_some]

/-- What such steps keep true. -/
theorem Alive.working (h : s.Alive build) (hended : s.EndedOutside)
    (hrun : Machine.Reachable System.step Working s t) : t.Alive build ∧ t.EndedOutside := by
  refine hrun.invariant (P := fun s ↦ s.Alive build ∧ s.EndedOutside) ?_ ⟨h, hended⟩
  rintro s l t ⟨hs, hended⟩ ⟨hl, i, e, rfl⟩ hstep
  exact ⟨hs.step hl hstep, hended.step (l := .thread i e) hs.shared trivial hstep⟩

theorem Ready.advance (h : s.Ready build) (ha : s.Advance i t) (howed : t.NothingOwed) :
    t.Ready build where
  alive := (h.alive.working h.ended ha.reach).1
  ended := (h.alive.working h.ended ha.reach).2
  owed := howed
  storable hbuild j := by
    have hstream : (t.session j).stream = (s.session j).stream := by
      by_cases hj : j = i
      · rw [hj, ha.stream]
      · rw [ha.sessions j hj]
    rw [(h.alive.working h.ended ha.reach).1.shared.build] at hbuild
    rw [hstream]
    exact h.storable (h.alive.shared.build.trans hbuild) j

/-- A step of a thread, in a state in which the server can go on. -/
theorem Ready.proceed (h : s.Ready build) (hget : s.clients.get? i = some c)
    (hrun : c.thread = .running) (hout : s.outside i c e = some (.ok (event, s')))
    (hstep : Session.step build c.session event = some u) (hl : s.Spared (.thread i e))
    (hpc : u.pc ≠ .done) (hstream : u.stream = c.session.stream)
    (howed : ∀ t, s.Moves i e t c event s' u → t.NothingOwed) :
    ∃ t, s.Advance i t ∧ t.Ready build ∧ s.Moves i e t c event s' u := by
  obtain ⟨t, ht, hm⟩ := h.alive.enabled hget hrun hout hstep
  have ha := hm.advance hl ht hpc hstream
  exact ⟨t, ha, h.advance ha (howed t hm), hm⟩

/-! ## Replies end -/

/-- What a thread's step does to what is owed: nothing, if the store stays and its own client has
not closed its connection, or is owed nothing. -/
theorem NothingOwed.moves (h : s.NothingOwed) (hm : s.Moves i e t c event s' u)
    (hstore : t.store = s.store) (hself : c.hungUp = true → ¬ u.Owing s.store.content) :
    t.NothingOwed := by
  intro j d hd hup
  rw [hstore]
  by_cases hj : j = i
  · subst hj
    rw [hm.get_self, Option.some_inj] at hd
    subst hd
    rw [after_session]
    refine hself ?_
    rw [Client.after] at hup
    split at hup <;> exact hup
  · rw [hm.get_ne hj] at hd
    exact h j d hd hup

/-- **A step of a reply**: it leaves less to do, or the reply is over. -/
theorem Ready.reply_step (h : s.Ready build) (hget : s.clients.get? i = some c)
    (hrun : c.thread = .running) (hreading : c.session.pc.reading = true) :
    ∃ t, s.Advance i t ∧ t.Ready build ∧ t.store = s.store ∧
      (t.session i).bytesLeft = (s.session i).bytesLeft ∧
      ((t.session i).pc = .next ∨ (t.session i).pc.reading = true ∧
        (t.session i).replyWork s.store.content < (s.session i).replyWork s.store.content) := by
  have howed : c.hungUp = true → ¬ c.session.Owing s.store.content := h.owed i c hget
  -- a step, from what it does
  have key : ∀ (e : ThreadEvent) (event : Event) (s' : System) (u : Session),
      s.outside i c e = some (.ok (event, s')) → Session.step build c.session event = some u →
      s.Spared (.thread i e) → (∀ count ok f_pos, event ≠ .write count ok f_pos) →
      u.stream = c.session.stream → u.bytesLeft = c.session.bytesLeft →
      (c.hungUp = true → ¬ u.Owing s.store.content) →
      (u.pc = .next ∨ u.pc.reading = true ∧
        u.replyWork s.store.content < c.session.replyWork s.store.content) →
      ∃ t, s.Advance i t ∧ t.Ready build ∧ t.store = s.store ∧
        (t.session i).bytesLeft = (s.session i).bytesLeft ∧
        ((t.session i).pc = .next ∨ (t.session i).pc.reading = true ∧
          (t.session i).replyWork s.store.content < (s.session i).replyWork s.store.content) := by
    intro e event s' u hout hstep hl hne hstream hleft hnot hwork
    have hstore : ∀ t, s.Moves i e t c event s' u → t.store = s.store :=
      fun t hm ↦ hm.shared.1.trans (hm.effect.store_eq hne).1
    have hdone : u.pc ≠ .done := by
      rcases hwork with hnext | ⟨hread, -⟩
      · rw [hnext]
        simp
      · exact Pc.ne_done_of_reading hread
    obtain ⟨t, ha, hready, hm⟩ := h.proceed hget hrun hout hstep hl hdone hstream
      fun t hm ↦ h.owed.moves hm (hstore t hm) hnot
    rw [← hm.session_self, ← session_eq hget] at hwork
    exact ⟨t, ha, hready, hstore t hm, by rw [hm.session_self, session_eq hget, hleft], hwork⟩
  cases hpc : c.session.pc with
  | rdunlock =>
    refine key .rdunlock .rdunlock _ _ rfl (Session.step_eq_some.2 ⟨hpc, trivial, rfl⟩)
      (spared_thread trivial rfl trivial) (by simp) rfl rfl (fun _ hnot ↦ ?_)
      (Or.inl rfl)
    cases hnot.1
  | send =>
    have hup : c.hungUp = false := by
      by_contra hup
      exact howed (by simpa using hup) ⟨hreading, Or.inl hpc⟩
    refine key (.send c.session.buffer.length) (.send c.session.buffer.length) s _ ?_
      (Session.step_eq_some.2 ⟨hpc, le_rfl, rfl⟩)
      (spared_thread trivial rfl fun d hd ↦ ?_) (by simp) rfl rfl (fun hup' ↦ ?_)
      (Or.inr ⟨rfl, ?_⟩)
    · rw [outside, if_neg (by simp [hup])]
    · obtain rfl := Option.some_inj.1 (hget.symm.trans hd)
      exact hup
    · rw [hup] at hup'
      cases hup'
    · simp [Session.replyWork, Session.handle, hpc]
  | fread =>
    obtain ⟨pos, hpos, hfits⟩ := h.alive.shared.position i
    rw [session_eq hget] at hpos
    obtain ⟨data, heq, hprefix, hlen, hend, -⟩ :=
      Store.read_eq h.alive.shared.store hfits (show 0 < BUFFER_SIZE by decide)
    have hout : s.outside i c (.read BUFFER_SIZE)
        = some (.ok (.read data ((pos + data.length : ℕ) : ℤ), s)) := by
      rw [outside, if_pos ⟨by decide, le_rfl⟩, hpos, heq]
      rfl
    obtain ⟨u, hstep, hstream, hleft, howing, hwork⟩ :=
      Session.read_step hpc hpos hlen hprefix hend build
    exact key _ _ _ u hout hstep (spared_thread trivial rfl trivial) (by simp)
      hstream hleft (fun hup hnot ↦ howed hup (howing hnot)) (Or.inr hwork)
  | _ => rw [hpc] at hreading; cases hreading

/-- **A reply ends.** -/
theorem Ready.reply_ends (h : s.Ready build) (hget : s.clients.get? i = some c)
    (hrun : c.thread = .running) (hreading : c.session.pc.reading = true) :
    ∃ t, s.Advance i t ∧ t.Ready build ∧ (t.session i).bytesLeft = (s.session i).bytesLeft ∧
      (t.session i).pc = .next := by
  induction hn : (s.session i).replyWork s.store.content using Nat.strong_induction_on
    generalizing s c with
  | _ n ih =>
    obtain ⟨t, ha, hready, hstore, hleft, hwork⟩ := h.reply_step hget hrun hreading
    rcases hwork with hnext | ⟨hreading', hlt⟩
    · exact ⟨t, ha, hready, hleft, hnext⟩
    · rw [hn, ← hstore] at hlt
      obtain ⟨v, ha', hready', hleft', hnext⟩ :=
        ih _ hlt hready (ha.client c hget) hrun hreading' rfl
      exact ⟨v, ha.trans ha', hready', hleft'.trans hleft, hnext⟩

/-! ## Appends end -/

omit [Platform] in
theorem nothingOwed_of_not_reading (h : ∀ j, (s.session j).pc.reading = false) :
    s.NothingOwed := by
  intro j d hd _ howing
  have hnot := h j
  rw [session_eq hd, howing.1] at hnot
  cases hnot

/-- A packet of the log is one of a client's stream. -/
theorem Shared.mem_segments (h : s.Shared build) {p : List Byte} (hp : p ∈ s.logged) :
    ∃ j, p ∈ segments (s.session j).stream := by
  obtain ⟨⟨j, q⟩, hmem, rfl⟩ := List.mem_map.1 hp
  refine ⟨j, (h.packets j).subset ?_⟩
  have hlogged : q ∈ s.loggedBy j :=
    List.mem_map.2 ⟨(j, q), List.mem_filter.2 ⟨hmem, by simp⟩, rfl⟩
  have hfilter : q ∈ (s.session j).packets.filter isData := by
    rw [h.logged j]
    exact List.mem_append_left _ hlogged
  exact List.mem_of_mem_filter hfilter

/-- The rest of a packet can be written at once. -/
theorem Ready.write_ok (h : s.Ready build) (hget : s.clients.get? i = some c)
    (hpc : c.session.pc = .fwrite) : ∃ f_pos store,
      s.store.write c.session.f_pos c.session.rest .plain = .ok (true, f_pos, store) := by
  have hself := session_eq hget
  obtain ⟨-, kept, before, part, -, hl, -, hholds⟩ :=
    h.alive.stored.at_write h.alive.shared (i := i) (by rw [hself, hpc])
  rw [hself] at hl
  have hflat : c.session.FlatAt .fwrite := hpc ▸ (h.alive.shared.inv hget).flat
  obtain ⟨packet, -, -, hne, -⟩ := hflat
  refine Store.write_plain hholds hne (fun hbuild ↦ ?_) _
  obtain ⟨j, hj⟩ := h.alive.shared.mem_segments (p := part ++ c.session.rest) (by rw [hl]; simp)
  exact h.storable hbuild j _ hj

/-- **A step of an append**: it leaves less to do, or the append is over. -/
theorem Ready.append_step (h : s.Ready build) (hget : s.clients.get? i = some c)
    (hrun : c.thread = .running) (hwriting : c.session.pc.writing = true) :
    ∃ t, s.Advance i t ∧ t.Ready build ∧
      (t.session i).bytesLeft = (s.session i).bytesLeft ∧
      ((t.session i).pc = .rdlock ∨ (t.session i).pc.writing = true ∧
        (t.session i).appendWork < (s.session i).appendWork) := by
  have hself := session_eq hget
  -- nobody reads meanwhile
  have hnot : ∀ j, (s.session j).pc.reading = false := by
    intro j
    have hlock := (h.alive.shared.writing i).2 (by rw [hself, hwriting])
    by_contra hreading
    exact hlock.not_reading ((h.alive.shared.reading j).2 (by simpa using hreading))
  -- a step, from what it does
  have key : ∀ (e : ThreadEvent) (event : Event) (s' : System) (u : Session),
      s.outside i c e = some (.ok (event, s')) → Session.step build c.session event = some u →
      s.Spared (.thread i e) → u.stream = c.session.stream → u.bytesLeft = c.session.bytesLeft →
      (u.pc = .rdlock ∨ u.pc.writing = true ∧ u.appendWork < c.session.appendWork) →
      ∃ t, s.Advance i t ∧ t.Ready build ∧
        (t.session i).bytesLeft = (s.session i).bytesLeft ∧
        ((t.session i).pc = .rdlock ∨ (t.session i).pc.writing = true ∧
          (t.session i).appendWork < (s.session i).appendWork) := by
    intro e event s' u hout hstep hl hstream hleft hwork
    have hpc : u.pc ≠ .done ∧ u.pc.reading = false := by
      rcases hwork with hpc | ⟨hpc, -⟩
      · rw [hpc]
        exact ⟨by simp, rfl⟩
      · exact ⟨Pc.ne_done_of_writing hpc, Pc.writing_reading hpc⟩
    obtain ⟨t, ha, hready, hm⟩ := h.proceed hget hrun hout hstep hl hpc.1 hstream
      fun t hm ↦ nothingOwed_of_not_reading fun j ↦ by
        by_cases hj : j = i
        · rw [hj, hm.session_self]
          exact hpc.2
        · rw [hm.session_ne hj]
          exact hnot j
    rw [← hm.session_self, ← hself] at hwork
    exact ⟨t, ha, hready, by rw [hm.session_self, hself, hleft], hwork⟩
  have hflat := (h.alive.shared.inv hget).flat
  rw [Session.FlatInv] at hflat
  cases hpc : c.session.pc with
  | ioctl =>
    rw [hpc] at hflat
    obtain ⟨packet, -, hseek⟩ := hflat
    obtain ⟨seekto, hseek⟩ := Option.ne_none_iff_exists'.1 hseek
    obtain ⟨pos, hpos, hfits⟩ := h.alive.shared.position i
    rw [hself] at hpos
    obtain ⟨pos', heq, -⟩ := Store.ioctl_fits h.alive.shared.store hfits seekto
    refine key .ioctl (.ioctl pos') s _ ?_ (Session.step_eq_some.2 ⟨hpc, trivial, rfl⟩)
      (spared_thread trivial rfl trivial) rfl rfl (Or.inr ⟨rfl, ?_⟩)
    · simp only [outside, hseek, Option.map_some, hpos, heq, ok_bind]
    · simp [Session.appendWork, Session.handle, hpc]
  | fwrite =>
    obtain ⟨f_pos, store, hw⟩ := h.write_ok hget hpc
    rw [hpc] at hflat
    obtain ⟨packet, -, -, hne, -⟩ := hflat
    have htake : c.session.rest.take c.session.rest.length = c.session.rest := List.take_length
    refine key (.write c.session.rest.length .plain) (.write c.session.rest.length true f_pos)
      { s with
        store := store
        evicted := s.evicted ++ s.store.evicted c.session.rest .plain true } _
      (by simp only [outside, htake, hw, ok_bind])
      (Session.step_eq_some.2 ⟨hpc, ⟨List.length_pos_of_ne_nil hne, le_rfl⟩, rfl⟩)
      (spared_thread trivial ?_ trivial) rfl rfl (Or.inr ?_)
    · simp only [WritesOk, writesOk, hget, htake, hw]
    · simp only [Session.handle, if_true, List.drop_length, Session.settle_ok, Session.appendWork,
        hpc]
      rcases Session.afterWrite_nil build with heq | heq <;> rw [heq] <;> exact ⟨rfl, by decide⟩
  | fseek =>
    exact key .fseek .fseek s _ rfl (Session.step_eq_some.2 ⟨hpc, trivial, rfl⟩)
      (spared_thread trivial rfl trivial) rfl rfl
      (Or.inr ⟨rfl, by simp [Session.appendWork, Session.handle, hpc]⟩)
  | wrunlock =>
    rw [hpc] at hflat
    obtain ⟨packet, ⟨ptr, hptr, -⟩, -⟩ := hflat
    refine key .wrunlock .wrunlock _ { c.session with
        flats := c.session.flats.free ptr, flatData := none, seekto := none, pc := .rdlock } rfl
      (Session.step_eq_some.2 ⟨hpc, trivial, ?_⟩)
      (spared_thread trivial rfl trivial) rfl rfl (Or.inl rfl)
    rw [Session.handle, hptr]
    rfl
  | _ => rw [hpc] at hwriting; cases hwriting

/-- **An append ends.** -/
theorem Ready.append_ends (h : s.Ready build) (hget : s.clients.get? i = some c)
    (hrun : c.thread = .running) (hwriting : c.session.pc.writing = true) :
    ∃ t, s.Advance i t ∧ t.Ready build ∧ (t.session i).bytesLeft = (s.session i).bytesLeft ∧
      (t.session i).pc = .rdlock := by
  induction hn : (s.session i).appendWork using Nat.strong_induction_on generalizing s c with
  | _ n ih =>
    obtain ⟨t, ha, hready, hleft, hwork⟩ := h.append_step hget hrun hwriting
    rcases hwork with hpc | ⟨hwriting', hlt⟩
    · exact ⟨t, ha, hready, hleft, hpc⟩
    · rw [hn] at hlt
      obtain ⟨v, ha', hready', hleft', hpc⟩ := ih _ hlt hready (ha.client c hget) hrun hwriting' rfl
      exact ⟨v, ha.trans ha', hready', hleft'.trans hleft, hpc⟩

/-! ## The lock comes free -/

/-- The server goes on to a state in which nobody holds the lock, and nothing has become of those
who did not hold it. -/
def Frees (build : Build) (s t : System) : Prop :=
  Machine.Reachable step Working s t ∧ t.Ready build ∧ t.lock.writer = none ∧ t.lock.readers = [] ∧
    ∀ k, ¬ s.lock.Held k → t.clients.get? k = s.clients.get? k

/-- Who holds the lock after one of the holders has given it back. -/
theorem held_of_advance (h : s.Shared build) (h' : t.Shared build) (ha : s.Advance i t)
    (hpc : (t.session i).pc.writing = false ∧ (t.session i).pc.reading = false) {k : ℕ} :
    (t.lock.Writing k ↔ s.lock.Writing k ∧ k ≠ i) ∧
      (t.lock.Reading k ↔ s.lock.Reading k ∧ k ≠ i) := by
  rw [h'.writing, h'.reading, h.writing, h.reading]
  by_cases hk : k = i
  · subst hk
    simp [hpc.1, hpc.2]
  · simp [ha.sessions k hk, hk]

/-- **The replies end.** -/
theorem Ready.readers_end (h : s.Ready build) (hw : s.lock.writer = none) :
    ∃ t, s.Frees build t := by
  induction hn : s.lock.readers.length using Nat.strong_induction_on generalizing s with
  | _ n ih =>
    cases hr : s.lock.readers with
    | nil => exact ⟨s, .refl s, h, hw, hr, fun _ _ ↦ rfl⟩
    | cons i readers =>
      have hi : s.lock.Reading i := by rw [RwLock.Reading, hr]; exact List.mem_cons_self ..
      obtain ⟨c, hget, hrun⟩ :=
        h.ended.holder h.alive.shared h.alive.owning (Or.inl hi)
      have hreading : c.session.pc.reading = true :=
        session_eq hget ▸ (h.alive.shared.reading i).1 hi
      obtain ⟨t, ha, hready, -, hpc⟩ := h.reply_ends hget hrun hreading
      have hheld := fun k ↦ held_of_advance (k := k) h.alive.shared hready.alive.shared ha
        (by rw [hpc]; exact ⟨rfl, rfl⟩)
      have hw' : t.lock.writer = none := by
        cases hwriter : t.lock.writer with
        | none => rfl
        | some k =>
          have hk := ((hheld k).1.1 hwriter).1
          rw [RwLock.Writing, hw] at hk
          cases hk
      have hsub : t.lock.readers ⊆ s.lock.readers.erase i := by
        intro k hk
        obtain ⟨hk', hne⟩ := (hheld k).2.1 hk
        exact (List.Nodup.mem_erase_iff s.lock.nodup).2 ⟨hne, hk'⟩
      have hlt : t.lock.readers.length < n := by
        have hle := (t.lock.nodup.subperm hsub).length_le
        rw [List.length_erase_of_mem hi] at hle
        have hpos : 0 < s.lock.readers.length := List.length_pos_of_mem hi
        omega
      obtain ⟨v, hreach, hready', hwriter, hreaders, hkeep⟩ := ih _ hlt hready hw' rfl
      refine ⟨v, ha.reach.trans hreach, hready', hwriter, hreaders, fun k hk ↦ ?_⟩
      have hki : k ≠ i := fun hki ↦ hk (hki ▸ Or.inl hi)
      refine (hkeep k fun hheld' ↦ hk ?_).trans (ha.others k hki)
      exact hheld'.imp (fun hk' ↦ ((hheld k).2.1 hk').1) fun hk' ↦ ((hheld k).1.1 hk').1

/-- **The lock comes free.** -/
theorem Ready.lock_free (h : s.Ready build) : ∃ t, s.Frees build t := by
  cases hw : s.lock.writer with
  | none => exact h.readers_end hw
  | some i =>
    have hi : s.lock.Writing i := hw
    obtain ⟨c, hget, hrun⟩ :=
      h.ended.holder h.alive.shared h.alive.owning (Or.inr hi)
    have hwriting : c.session.pc.writing = true := session_eq hget ▸ (h.alive.shared.writing i).1 hi
    obtain ⟨t, ha, hready, -, hpc⟩ := h.append_ends hget hrun hwriting
    have hheld := fun k ↦ held_of_advance (k := k) h.alive.shared hready.alive.shared ha
      (by rw [hpc]; exact ⟨rfl, rfl⟩)
    refine ⟨t, ha.reach, hready, ?_, ?_, fun k hk ↦ ha.others k fun hki ↦ hk (hki ▸ Or.inr hi)⟩
    · cases hwriter : t.lock.writer with
      | none => rfl
      | some k =>
        obtain ⟨hk, hne⟩ := (hheld k).1.1 hwriter
        exact absurd (hk.unique hi) hne
    · refine List.eq_nil_iff_forall_not_mem.2 fun k hk ↦ ?_
      exact hi.not_reading ((hheld k).2.1 hk).1

/-! ## A turn ends -/

/-- **The server goes on to another such state**, and one client's thread with it, if at all. -/
structure Serves (build : Build) (i : ℕ) (s t : System) : Prop where
  /-- The run. -/
  reach : Machine.Reachable step Working s t
  /-- The threads can go on. -/
  ready : t.Ready build
  /-- Of the client it is only the session that changes. -/
  client : ∀ c, s.clients.get? i = some c →
    t.clients.get? i = some { c with session := t.session i }
  /-- Who has nothing to do stays. -/
  settled : ∀ j, j ≠ i → ∀ c, s.clients.get? j = some c → c.session.pc.settled = true →
    t.clients.get? j = some c
  /-- Nothing is received. -/
  stream : (t.session i).stream = (s.session i).stream

theorem Serves.trans (h : s.Serves build i t) (h' : t.Serves build i v) : s.Serves build i v where
  reach := h.reach.trans h'.reach
  ready := h'.ready
  client c hc := by
    have hmid := h'.client _ (h.client c hc)
    exact hmid
  settled j hj d hd hpc := h'.settled j hj d (h.settled j hj d hd hpc) hpc
  stream := h'.stream.trans h.stream

theorem Advance.serves (h : s.Advance i t) (hready : t.Ready build) : s.Serves build i t :=
  ⟨h.reach, hready, h.client, fun j hj _ hc _ ↦ (h.others j hj).trans hc, h.stream⟩

/-- Who has nothing to do does not hold the lock. -/
theorem Shared.not_held_of_settled (h : s.Shared build) (hget : s.clients.get? i = some c)
    (hpc : c.session.pc.settled = true) : ¬ s.lock.Held i := by
  rw [h.held_iff, session_eq hget]
  cases hc : c.session.pc <;> rw [hc] at hpc <;> first | cases hpc; done | decide

/-- Who waits for the lock sees it come free. -/
theorem Ready.wait (h : s.Ready build) (hget : s.clients.get? i = some c)
    (hpc : c.session.pc.writing = false ∧ c.session.pc.reading = false) : ∃ t, s.Serves build i t ∧
      t.clients.get? i = some c ∧ t.lock.writer = none ∧ t.lock.readers = [] := by
  obtain ⟨t, hreach, hready, hw, hr, hkeep⟩ := h.lock_free
  have hnot : ¬ s.lock.Held i := by
    rw [h.alive.shared.held_iff, session_eq hget, hpc.1, hpc.2]
    simp
  have hget' := (hkeep i hnot).trans hget
  refine ⟨t, ⟨hreach, hready, fun d hd ↦ ?_, fun j _ d hd hsettled ↦ ?_, ?_⟩, hget', hw, hr⟩
  · obtain rfl := Option.some_inj.1 (hget.symm.trans hd)
    rw [hget', session_eq hget']
  · exact (hkeep j (h.alive.shared.not_held_of_settled hd hsettled)).trans hd
  · rw [session_eq hget', session_eq hget]

/-- A step of a thread whose client has not closed its connection, other than a `write` call. -/
theorem Ready.proceed_own (h : s.Ready build) (hget : s.clients.get? i = some c)
    (hrun : c.thread = .running) (hup : c.hungUp = false)
    (hout : s.outside i c e = some (.ok (event, s')))
    (hstep : Session.step build c.session event = some u) (hl : s.Spared (.thread i e))
    (hne : ∀ count ok f_pos, event ≠ .write count ok f_pos) (hpc : u.pc ≠ .done)
    (hstream : u.stream = c.session.stream) : ∃ t, s.Serves build i t ∧ t.session i = u := by
  obtain ⟨t, ha, hready, hm⟩ := h.proceed hget hrun hout hstep hl hpc hstream fun t hm ↦
    h.owed.moves hm (hm.shared.1.trans (hm.effect.store_eq hne).1) fun hup' ↦ by
      rw [hup] at hup'
      cases hup'
  exact ⟨t, ha.serves hready, hm.session_self⟩

/-- **A step of a turn**: it leaves less to do, or nothing. -/
theorem Ready.turn_step (h : s.Ready build) (hget : s.clients.get? i = some c)
    (hrun : c.thread = .running) (hup : c.hungUp = false)
    (hsettled : c.session.pc.settled = false) : ∃ t, s.Serves build i t ∧
      ((t.session i).pc.settled = true ∨ (t.session i).work < (s.session i).work) := by
  have hself := session_eq hget
  have hinv := h.alive.shared.inv hget
  have hserved := h.alive.served i
  rw [hself] at hserved
  by_cases hwriting : c.session.pc.writing = true
  · obtain ⟨t, ha, hready, hleft, hpc⟩ := h.append_ends hget hrun hwriting
    refine ⟨t, ha.serves hready, Or.inr ?_⟩
    rw [Session.work, Session.work, hleft, hself, hpc]
    exact Nat.add_lt_add_left (Session.rank_of_writing hwriting) _
  by_cases hreading : c.session.pc.reading = true
  · obtain ⟨t, ha, hready, hleft, hpc⟩ := h.reply_ends hget hrun hreading
    refine ⟨t, ha.serves hready, Or.inr ?_⟩
    rw [Session.work, Session.work, hleft, hself, hpc]
    exact Nat.add_lt_add_left (Session.rank_of_reading hreading) _
  rw [hself]
  cases hpc : c.session.pc with
  | scan =>
    obtain ⟨u, hstep, hstream, hleft, hwork⟩ := Session.scan_step hinv hpc build
    have hdone : u.pc ≠ .done := by
      rcases hwork with hrecv | hwrlock <;> simp [*]
    obtain ⟨t, hs, rfl⟩ := h.proceed_own (e := .scan true) hget hrun hup rfl hstep
      (spared_thread rfl rfl trivial) (by simp) hdone hstream
    refine ⟨t, hs, ?_⟩
    rcases hwork with hrecv | hwrlock
    · exact Or.inl (by rw [hrecv]; rfl)
    · exact Or.inr (by simp [Session.work, Session.rank, hpc, hwrlock, hleft])
  | next =>
    obtain ⟨u, hstep, hstream, hscan, hleft⟩ :=
      Session.next_step hinv hserved.failures hpc build
    obtain ⟨t, hs, rfl⟩ := h.proceed_own (e := .next) hget hrun hup rfl hstep
      (spared_thread trivial rfl trivial) (by simp) (by simp [hscan]) hstream
    refine ⟨t, hs, Or.inr ?_⟩
    simp only [Session.work, Session.rank, hpc, hscan]
    omega
  | wrlock =>
    obtain ⟨v, hwait, hget', hw, hr⟩ := h.wait hget (by rw [hpc]; exact ⟨rfl, rfl⟩)
    obtain ⟨u, hstep, hstream, hleft, hbegun⟩ := Session.wrlock_step hinv hpc build
    have hwriting' : u.pc.writing = true := by
      rcases hbegun with hpc' | hpc' <;> rw [hpc'] <;> rfl
    have hlock : v.lock.wrlock i = some ⟨[], some i, fun _ ↦ rfl, List.nodup_nil⟩ := if_pos ⟨hw, hr⟩
    obtain ⟨t, hs, rfl⟩ := hwait.ready.proceed_own (e := .wrlock) hget' hrun hup
      (by rw [outside, hlock, Option.map_some]) hstep
      (spared_thread trivial rfl trivial) (by simp)
      (Pc.ne_done_of_writing hwriting') hstream
    refine ⟨t, hwait.trans hs, Or.inr ?_⟩
    rcases hbegun with hpc' | hpc' <;> simp [Session.work, Session.rank, hpc, hpc', hleft]
  | rdlock =>
    obtain ⟨v, hwait, hget', hw, hr⟩ := h.wait hget (by rw [hpc]; exact ⟨rfl, rfl⟩)
    obtain ⟨lock, hlock⟩ : ∃ lock, v.lock.rdlock i = some lock :=
      ⟨_, dif_pos ⟨hw, by rw [hr]; exact List.not_mem_nil⟩⟩
    have hstep : Session.step build c.session .rdlock
        = some { c.session with reply := [], passed := [], sent := [], pc := .fread } :=
      Session.step_eq_some.2 ⟨hpc, trivial, rfl⟩
    obtain ⟨t, hs, heq⟩ := hwait.ready.proceed_own (e := .rdlock) hget' hrun hup
      (by rw [outside, hlock, Option.map_some]) hstep
      (spared_thread trivial rfl trivial) (by simp) (by simp) rfl
    refine ⟨t, hwait.trans hs, Or.inr ?_⟩
    simp only [heq, Session.work, Session.rank, hpc]
    split <;> omega
  | fault bug => exact absurd hpc (hinv.no_fault hserved.failures bug)
  | _ =>
    rw [hpc] at hsettled hwriting hreading
    first | cases hsettled; done | exact absurd rfl hwriting | exact absurd rfl hreading

/-- **The server comes to deal with all that it has received** from a client that stays
connected. -/
theorem Ready.settles (h : s.Ready build) (hget : s.clients.get? i = some c)
    (hrun : c.thread = .running) (hup : c.hungUp = false) :
    ∃ t, s.Serves build i t ∧ (t.session i).pc.settled = true := by
  induction hn : (s.session i).work using Nat.strong_induction_on generalizing s c with
  | _ n ih =>
    cases hsettled : c.session.pc.settled with
    | true => exact ⟨s, (Advance.refl s i).serves h, by rw [session_eq hget, hsettled]⟩
    | false =>
      obtain ⟨t, hs, hwork⟩ := h.turn_step hget hrun hup hsettled
      rcases hwork with hsettled' | hlt
      · exact ⟨t, hs, hsettled'⟩
      · rw [hn] at hlt
        obtain ⟨v, hs', hsettled'⟩ := ih _ hlt hs.ready (hs.client c hget) hrun hup rfl
        exact ⟨v, hs.trans hs', hsettled'⟩

/-! ## What the clients can rely on -/

/-- **The server serves its clients.** -/
structure Serving (s : System) : Prop where
  /-- The process runs, and no assertion has failed. -/
  halted : s.halted = none
  /-- The main thread goes on until a signal comes. -/
  main : s.running = true → s.main.stopping = false
  /-- What a client has completed was stored, in order. -/
  stored : ∀ i, (s.session i).pc.settled = true →
    s.loggedBy i = (segments (s.session i).stream).filter isData
  /-- And each packet was answered. -/
  answered : ∀ i, (s.session i).pc.settled = true →
    (s.session i).replies.length = (segments (s.session i).stream).length
  /-- A reply is the content to its end, and all of it was given to `send`. -/
  reply : ∀ i, (s.session i).pc = .rdunlock → (s.session i).passed = (s.session i).reply ∧
    ∃ pos, (s.session i).reply = s.store.content.drop pos
  /-- The content is what was stored. -/
  content : s.lock.writer = none → s.store.content = s.kept.flatten
  /-- If no client that has closed its connection is owed more of a reply, and the device has room,
  the server can go on until a client that stays connected is answered. -/
  settles : s.running = true → s.NothingOwed → s.Storable → ∀ (i : ℕ) (c : Client),
    s.clients.get? i = some c → c.thread = .running → c.hungUp = false →
    ∃ t, Machine.Reachable step Spared s t ∧ (t.session i).stream = (s.session i).stream ∧
      (t.session i).pc.settled = true

theorem Alive.serving (h : s.Alive build) : s.Serving where
  halted := h.halted
  main hrun := (h.unstopped hrun).main
  stored i hi := by
    have hwaiting : (s.session i).waiting = [] := by
      refine Session.waiting_of_ne fun hpc ↦ ?_
      rw [hpc] at hi
      cases hi
    have hlogged := h.shared.logged i
    rw [hwaiting, List.append_nil, (h.served i).packets hi] at hlogged
    exact hlogged.symm
  answered i hi := by
    have hreplies := (h.served i).replies
    have hawaited : (s.session i).pc.awaited = false := by
      cases hpc : (s.session i).pc <;> first | rfl | (rw [hpc] at hi; cases hi)
    rw [hawaited, (h.served i).packets hi] at hreplies
    simpa using hreplies
  reply i hi := by
    obtain ⟨pos, hpos⟩ := h.replying i (by rw [hi]; rfl)
    obtain ⟨hreply, hpassed⟩ := hpos.complete (h.shared.drained i) hi
    exact ⟨hpassed, pos, hreply⟩
  content hw := h.stored.stored.content h.shared hw
  settles hrun howed hroom i c hget hthread hup := by
    have hready : s.Ready build := ⟨h, (h.unstopped hrun).ended, howed, hroom⟩
    obtain ⟨t, hs, hsettled⟩ := hready.settles hget hthread hup
    exact ⟨t, hs.reach.mono fun _ _ hl ↦ hl.1, hs.stream, hsettled⟩

/-- Every other `send` ends the process. -/
theorem sigpipe_of_not_sendOk (h : s.Shared build) (hl : ¬ s.SendOk l) (hstep : s.step l = some t) :
    t.halted = some .sigpipe := by
  unfold SendOk at hl
  split at hl
  swap
  · exact absurd trivial hl
  rename_i i count
  obtain ⟨c, event, s', u, hm⟩ := h.thread_moves hstep
  have hup : c.hungUp = true := by
    by_contra hup
    refine hl fun d hd ↦ ?_
    obtain rfl := Option.some_inj.1 (hm.get.symm.trans hd)
    simpa using hup
  have hout := hm.outside
  rw [outside, if_pos hup] at hout
  cases hout
  obtain ⟨-, -, rfl⟩ := Session.step_eq_some.1 hm.step
  rw [hm.eq]
  rfl

end Progress

end System

end Aesd
