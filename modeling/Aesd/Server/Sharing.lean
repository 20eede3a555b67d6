import Aesd.Server.Packets
import Aesd.Server.Steps

/-!
# What the sessions share

The invariant of the whole server as far as the lock, the store and the log are concerned:
`System.Shared`.  It says who holds the lock, which is told by what the sessions do next, and which
packets are in the log, namely those that the sessions have flattened and that are not seek
commands.  `System.Shared.step` proves it of every step, with whatever failures and cancellations.
-/

set_option autoImplicit false

namespace Aesd

/-- A packet that is to be stored: no seek command. -/
def isData (packet : List Byte) : Bool := (seekCommand packet).isNone

/-- The packet of a session that waits for the lock to store it. -/
def Session.waiting (t : Session) : List (List Byte) :=
  if t.pc = .wrlock ∧ t.seekto = none then t.packet.toList else []

theorem Session.waiting_of_ne {t : Session} (h : t.pc ≠ .wrlock) : t.waiting = [] :=
  if_neg fun hw ↦ h hw.1

namespace System

/-- A client's packets in the log. -/
def loggedBy (s : System) (i : ℕ) : List (List Byte) :=
  (s.log.filter (·.1 = i)).map Prod.snd

variable [Platform]

/-- **What the sessions keep true together.** -/
structure Shared (build : Build) (s : System) : Prop where
  /-- No client is freed twice. -/
  clients : s.clients.Sound
  /-- The store is what the driver, or the file system, keeps it. -/
  store : s.store.Sound
  /-- And of the kind the server was built for. -/
  build : s.store.build = build
  /-- The invariant of the clients in memory. -/
  live : ∀ i c, s.clients.get? i = some c → c.session.FrameInv
  /-- What of it survives the client. -/
  flat : ∀ i, (s.session i).FlatInv
  /-- The packets are segments of the client's stream, in order. -/
  packets : ∀ i, (s.session i).packets.Sublist (segments (s.session i).stream)
  /-- A file's position is in range. -/
  position : ∀ i, ∃ pos : ℕ, (s.session i).f_pos = pos ∧ s.store.Fits pos
  /-- Nothing is read ahead outside a reply. -/
  drained : ∀ i, (s.session i).Drained
  /-- Who holds the lock for writing. -/
  writing : ∀ i, s.lock.Writing i ↔ (s.session i).pc.writing = true
  /-- Who holds the lock for reading. -/
  reading : ∀ i, s.lock.Reading i ↔ (s.session i).pc.reading = true
  /-- The log has each client's packets, in order. -/
  logged : ∀ i, (s.session i).packets.filter isData = s.loggedBy i ++ (s.session i).waiting

variable {build : Build} {s s' t : System} {i j : ℕ} {c : Client} {e : ThreadEvent} {event : Event}
  {u : Session} {l : Label}

omit [Platform] in
theorem session_init (b : Build) (i : ℕ) : (init b).session i = .init := rfl

theorem shared_init (b : Build) : (init b).Shared b where
  clients := Heap.sound_empty
  store := Store.sound_init b
  build := Store.build_init b
  live := fun i c h ↦ by simp [init, Heap.get?, Heap.empty] at h
  flat := fun _ ↦ Session.inv_init.flat
  packets := fun _ ↦ List.Sublist.refl _
  position := fun _ ↦ ⟨0, rfl, by cases b <;> first | exact Nat.zero_le _ | trivial⟩
  drained := fun _ _ _ ↦ rfl
  writing := fun i ↦ iff_of_false RwLock.not_writing_free (by rw [session_init]; decide)
  reading := fun i ↦ iff_of_false RwLock.not_reading_free (by rw [session_init]; decide)
  logged := fun _ ↦ rfl

/-! ## The lock -/

/-- A step changes nothing about another session's hold of the lock. -/
theorem Effect.lock_ne (h : s.Effect i c event s') (hj : j ≠ i) :
    (s'.lock.Writing j ↔ s.lock.Writing j) ∧ (s'.lock.Reading j ↔ s.lock.Reading j) := by
  cases h with
  | wrlock h =>
    obtain ⟨h1, h2, h3, h4⟩ := RwLock.wrlock_eq_some h
    simp [RwLock.Writing, RwLock.Reading, h1, h2, h3, h4, hj.symm]
  | rdlock h =>
    obtain ⟨h1, h2, h3⟩ := RwLock.rdlock_eq_some h
    simp [RwLock.Writing, h1, h2, h3, hj]
  | wrunlock => simp [RwLock.writing_unlock, RwLock.reading_unlock, hj]
  | rdunlock => simp [RwLock.writing_unlock, RwLock.reading_unlock, hj]
  | own he hstore hlock => rw [hlock]; exact ⟨Iff.rfl, Iff.rfl⟩
  | _ => exact ⟨Iff.rfl, Iff.rfl⟩

/-- The session's own hold follows its event. -/
theorem Effect.lock_self (h : s.Effect i c event s')
    (hw : s.lock.Writing i ↔ event.pc.writing = true)
    (hr : s.lock.Reading i ↔ event.pc.reading = true) :
    (s'.lock.Writing i ↔ event.writing event.pc.writing = true) ∧
      (s'.lock.Reading i ↔ event.reading event.pc.reading = true) := by
  cases h with
  | wrlock h =>
    obtain ⟨-, -, h3, h4⟩ := RwLock.wrlock_eq_some h
    simp [RwLock.Writing, RwLock.Reading, h3, h4, Event.writing, Event.reading, Event.pc,
      Pc.reading]
  | rdlock h =>
    obtain ⟨-, h2, h3⟩ := RwLock.rdlock_eq_some h
    simp [RwLock.Writing, h2, h3, Event.writing, Event.reading, Event.pc, Pc.writing]
  | wrunlock =>
    simp [RwLock.writing_unlock, RwLock.reading_unlock, Event.writing, Event.reading, Event.pc,
      Pc.reading]
  | rdunlock =>
    simp [RwLock.writing_unlock, RwLock.reading_unlock, Event.writing, Event.reading, Event.pc,
      Pc.writing]
  | own he hstore hlock =>
    rw [hlock]
    cases event <;> first | exact ⟨hw, hr⟩ | exact absurd he (by decide)
  | _ => exact ⟨hw, hr⟩

/-! ## The store -/

theorem fits_congr {store store' : Store} (h : store'.build = store.build) {pos : ℕ} :
    store'.Fits pos ↔ store.Fits pos := by
  cases store <;> cases store' <;> first | exact Iff.rfl | simp [Store.build] at h

/-- What a step does to the store keeps it sound. -/
theorem Effect.store (h : s.Effect i c event s') (hstore : s.store.Sound) {pos : ℕ}
    (hpos : c.session.f_pos = pos) (hfits : s.store.Fits pos) :
    s'.store.Sound ∧ s'.store.build = s.store.build := by
  cases h with
  | write h =>
    obtain ⟨ok, store', p, heq, hsound, hbuild, -⟩ := Store.write_sound hstore hfits _ _
    rw [hpos, heq] at h
    cases h
    exact ⟨hsound, hbuild⟩
  | own he h =>
    rw [h]
    exact ⟨hstore, rfl⟩
  | _ => exact ⟨hstore, rfl⟩

theorem effect_read_position {bytes : List Byte} {f_pos : ℤ}
    (h : s.Effect i c (.read bytes f_pos) s') (hstore : s.store.Sound) {pos : ℕ}
    (hpos : c.session.f_pos = pos) (hfits : s.store.Fits pos) :
    ∃ p : ℕ, f_pos = p ∧ s.store.Fits p := by
  obtain ⟨-, count, hcount, h⟩ := effect_read h
  obtain ⟨data, heq, -, -, -, hp⟩ := Store.read_eq hstore hfits hcount
  rw [hpos, heq] at h
  cases h
  exact ⟨_, rfl, hp⟩

/-- And it keeps the file's position in range. -/
theorem Effect.position (h : s.Effect i c event s') (turn : c.session.Turn build event u)
    (hstore : s.store.Sound) {pos : ℕ} (hpos : c.session.f_pos = pos) (hfits : s.store.Fits pos) :
    ∃ p : ℕ, u.f_pos = p ∧ s.store.Fits p := by
  cases turn with
  | idle he hpc hpc' kept => exact ⟨pos, kept.f_pos.trans hpos, hfits⟩
  | lost hpc hpc' packet seekto kept => exact ⟨pos, kept.f_pos.trans hpos, hfits⟩
  | found packet hpc hpc' hpacket seekto kept => exact ⟨pos, kept.f_pos.trans hpos, hfits⟩
  | fseek => exact ⟨0, rfl, by cases s.store <;> first | exact Nat.zero_le _ | trivial⟩
  | ioctl f_pos =>
    obtain ⟨-, seekto, -, h⟩ := effect_ioctl h
    obtain ⟨p, heq, hp⟩ := Store.ioctl_fits hstore hfits seekto
    rw [hpos, heq] at h
    cases h
    exact ⟨p, rfl, hp⟩
  | write count ok f_pos =>
    obtain ⟨o, store, h, -⟩ := effect_write h
    obtain ⟨ok, store', p, heq, -, hbuild, hp⟩ := Store.write_sound hstore hfits _ o
    rw [hpos, heq] at h
    cases h
    exact ⟨p, rfl, (fits_congr hbuild).1 hp⟩
  | read bytes f_pos => exact effect_read_position h hstore hpos hfits
  | last f_pos => exact effect_read_position h hstore hpos hfits
  | stop f_pos => exact effect_read_position h hstore hpos hfits
  | _ => exact ⟨pos, hpos, hfits⟩

/-! ## The log -/

omit [Platform] in
theorem toStore_filter_ne (t : Session) (hj : j ≠ i) : (toStore i t).filter (·.1 = j) = [] := by
  rw [toStore]
  split
  · simp [hj.symm]
  · rfl

omit [Platform] in
theorem toStore_filter_self {t : Session} (hpc : t.pc = .wrlock) :
    ((toStore i t).filter (·.1 = i)).map Prod.snd = t.waiting := by
  rw [toStore, Session.waiting]
  split
  · rename_i packet hseek hpacket
    rw [if_pos ⟨hpc, hseek⟩, hpacket]
    simp
  · rename_i hne
    split
    · rename_i h
      cases hpacket : t.packet with
      | none => rfl
      | some packet => exact absurd hpacket (hne packet h.2)
    · rfl

theorem Effect.log (h : s.Effect i c event s') : s'.log = s.log ∧ event ≠ .wrlock ∨
    s'.log = s.log ++ toStore i c.session ∧ event = .wrlock := by
  cases h with
  | wrlock h => exact Or.inr ⟨rfl, rfl⟩
  | own he hstore hlock hlog =>
    refine Or.inl ⟨hlog, ?_⟩
    rintro rfl
    cases he
  | _ => exact Or.inl ⟨rfl, by simp⟩

omit [Platform] in
/-- A packet waits from the moment it is flattened until the lock is granted. -/
theorem turn_waiting {s : Session} (turn : s.Turn build event u) :
    event ≠ .wrlock ∧ (∃ new, u.packets.filter isData = s.packets.filter isData ++ new ∧
      u.waiting = s.waiting ++ new) ∨
    event = .wrlock ∧ s.pc = .wrlock ∧ u.packets = s.packets ∧ u.waiting = [] := by
  have hsame : event ≠ .wrlock → s.pc ≠ .wrlock → u.pc ≠ .wrlock → u.packets = s.packets →
      event ≠ .wrlock ∧ ∃ new, u.packets.filter isData = s.packets.filter isData ++ new ∧
        u.waiting = s.waiting ++ new := fun h1 h2 h3 h4 ↦
    ⟨h1, [], by rw [h4, List.append_nil], by
      rw [Session.waiting_of_ne h2, Session.waiting_of_ne h3]; rfl⟩
  have hidle : ∀ pc : Pc, pc.idle = true → pc ≠ .wrlock := by rintro pc h rfl; cases h
  cases turn with
  | idle he hpc hpc' kept packets =>
    exact Or.inl (hsame (by rintro rfl; cases he) (hidle _ hpc) (hidle _ hpc') packets)
  | lost hpc hpc' packet seekto kept packets =>
    exact Or.inl (hsame (by simp) (by simp [hpc]) (by simp [hpc']) packets)
  | found packet hpc hpc' hpacket seekto kept packets =>
    refine Or.inl ⟨by simp, if isData packet then [packet] else [], ?_, ?_⟩
    · rw [packets, List.filter_append]
      simp [List.filter_cons]
    · rw [Session.waiting_of_ne (t := s) (by simp [hpc]), Session.waiting, hpc', seekto, hpacket]
      simp [isData]
  | append packet hpc => exact Or.inr ⟨rfl, hpc, rfl, Session.waiting_of_ne (by simp)⟩
  | seek hpc => exact Or.inr ⟨rfl, hpc, rfl, Session.waiting_of_ne (by simp)⟩
  | write count ok f_pos packet hpc =>
    refine Or.inl (hsame (by simp) (by simp [hpc]) ?_ rfl)
    have hw := Session.afterWrite_writing build (if ok then s.rest.drop count else [])
    intro hpc'
    rw [show Session.afterWrite _ _ = Pc.wrlock from hpc'] at hw
    cases hw
  | read bytes f_pos hpc hbytes hpc' =>
    refine Or.inl (hsame (by simp) (by simp [hpc]) ?_ rfl)
    rcases hpc' with ⟨rfl, -⟩ | ⟨rfl, -⟩ <;> simp
  | _ => exact Or.inl (hsame (by simp) (by simp [*]) (by simp) rfl)

/-! ## Every step -/

theorem Shared.inv (h : s.Shared build) (hget : s.clients.get? i = some c) : c.session.Inv :=
  ⟨h.live i c hget, session_eq hget ▸ h.flat i⟩

theorem Shared.turn (h : s.Shared build) (hm : s.Moves i e t c event s' u) :
    c.session.Turn build event u := by
  have hstep := hm.step
  rw [h.build] at hstep
  exact Session.step_turn (h.inv hm.get).flat hstep

theorem Shared.quiet (h : s.Shared build) (hq : s.Quiet t) : t.Shared build := by
  have hpc : ∀ i, (t.session i).pc = (s.session i).pc := by
    intro i
    obtain ⟨mem, heq⟩ := hq.session i
    rw [heq]
  refine ⟨hq.sound, hq.store ▸ h.store, hq.store ▸ h.build, fun i c hget ↦ ?_, fun i ↦ ?_,
    fun i ↦ ?_, fun i ↦ ?_, fun i ↦ ?_, fun i ↦ ?_, fun i ↦ ?_, fun i ↦ ?_⟩
  · rcases hq.live i c hget with hinit | ⟨c', hget', heq⟩
    · rw [hinit]
      exact Session.inv_init.frame
    · rw [heq]
      exact h.live i c' hget'
  · obtain ⟨mem, heq⟩ := hq.session i
    rw [heq]
    exact h.flat i
  · obtain ⟨mem, heq⟩ := hq.session i
    rw [heq]
    exact h.packets i
  · obtain ⟨mem, heq⟩ := hq.session i
    rw [heq, hq.store]
    exact h.position i
  · obtain ⟨mem, heq⟩ := hq.session i
    rw [heq]
    exact h.drained i
  · rw [hq.lock, hpc]
    exact h.writing i
  · rw [hq.lock, hpc]
    exact h.reading i
  · obtain ⟨mem, heq⟩ := hq.session i
    rw [heq, loggedBy, hq.log]
    exact h.logged i

theorem Shared.moves (h : s.Shared build) (hm : s.Moves i e t c event s' u) : t.Shared build := by
  have turn := h.turn hm
  have effect := hm.effect
  have hself := session_eq hm.get
  obtain ⟨hstore, hlock, hlog, -⟩ := hm.shared
  obtain ⟨pos, hpos, hfits⟩ := h.position i
  rw [hself] at hpos
  obtain ⟨hsound, hbuild⟩ := effect.store h.store hpos hfits
  have hinv : u.Inv := (h.inv hm.get).step hm.step
  have hpc := hm.pc_eq.1
  -- every session but one is as it was
  have hcases : ∀ P : ℕ → Session → Prop, P i u → (∀ j, j ≠ i → P j (s.session j)) →
      ∀ j, P j (t.session j) := by
    intro P hi hne j
    by_cases hj : j = i
    · rw [hj, hm.session_self]
      exact hi
    · rw [hm.session_ne hj]
      exact hne j hj
  refine ⟨hm.clients ▸ h.clients.set i _, hstore ▸ hsound, hstore ▸ hbuild.trans h.build,
    fun j d hd ↦ ?_, hcases (fun _ x ↦ x.FlatInv) hinv.flat fun j _ ↦ h.flat j,
    hcases (fun _ x ↦ x.packets.Sublist (segments x.stream)) hinv.packets_sublist
      fun j _ ↦ h.packets j,
    hcases (fun _ x ↦ ∃ pos : ℕ, x.f_pos = pos ∧ t.store.Fits pos) ?_ fun j _ ↦ ?_,
    hcases (fun _ x ↦ x.Drained) (turn.drained (hself ▸ h.drained i)) fun j _ ↦ h.drained j,
    hcases (fun j x ↦ t.lock.Writing j ↔ x.pc.writing = true) ?_ fun j hj ↦ ?_,
    hcases (fun j x ↦ t.lock.Reading j ↔ x.pc.reading = true) ?_ fun j hj ↦ ?_,
    hcases (fun j x ↦ x.packets.filter isData = t.loggedBy j ++ x.waiting) ?_ fun j hj ↦ ?_⟩
  · by_cases hj : j = i
    · subst hj
      obtain rfl := Option.some_inj.1 (hm.get_self.symm.trans hd)
      rw [after_session]
      exact hinv.frame
    · rw [hm.get_ne hj] at hd
      exact h.live j d hd
  · obtain ⟨p, hp, hp'⟩ := effect.position turn h.store hpos hfits
    exact ⟨p, hp, hstore ▸ (fits_congr hbuild).2 hp'⟩
  · obtain ⟨p, hp, hp'⟩ := h.position j
    exact ⟨p, hp, hstore ▸ (fits_congr hbuild).2 hp'⟩
  · have hw := h.writing i
    have hr := h.reading i
    rw [hself, hpc] at hw hr
    rw [hlock, turn.writing, hpc]
    exact (effect.lock_self hw hr).1
  · rw [hlock, (effect.lock_ne hj).1]
    exact h.writing j
  · have hw := h.writing i
    have hr := h.reading i
    rw [hself, hpc] at hw hr
    rw [hlock, turn.reading, hpc]
    exact (effect.lock_self hw hr).2
  · rw [hlock, (effect.lock_ne hj).2]
    exact h.reading j
  · have hl := h.logged i
    rw [hself] at hl
    rw [loggedBy, hlog]
    rcases effect.log with ⟨heq, hne⟩ | ⟨heq, hev⟩
    · rw [heq]
      rcases turn_waiting turn with ⟨-, new, h1, h2⟩ | ⟨hev, -⟩
      · rw [h1, h2, hl, List.append_assoc, loggedBy]
      · exact absurd hev hne
    · rcases turn_waiting turn with ⟨hne, -⟩ | ⟨-, hpc', h1, h2⟩
      · exact absurd hev hne
      · rw [heq, h1, h2, List.filter_append, List.map_append, toStore_filter_self hpc',
          List.append_nil, hl, loggedBy]
  · have hl := h.logged j
    rw [loggedBy, hlog]
    rcases effect.log with ⟨heq, -⟩ | ⟨heq, -⟩
    · rw [heq]
      exact hl
    · rw [heq, List.filter_append, toStore_filter_ne _ hj, List.append_nil]
      exact hl

/-- **Every step of the server keeps the invariant.** -/
theorem Shared.step (h : s.Shared build) (hs : s.step l = some t) : t.Shared build := by
  rcases step_cases h.clients hs with hq | ⟨i, e, c, event, s', u, rfl, hm⟩
  · exact h.quiet hq
  · exact h.moves hm

/-- It holds in every state of every run. -/
theorem shared_reachable {ok : System → Label → Prop}
    (h : Machine.Reachable step ok (init build) s) : s.Shared build :=
  h.invariant (fun _ _ _ hs _ hstep ↦ hs.step hstep) (shared_init build)

/-- The store's calls do nothing that must not happen. -/
theorem Shared.outside_ne_error (h : s.Shared build) (hget : s.clients.get? i = some c)
    {bug : Bug} : s.outside i c e ≠ some (.error bug) := by
  obtain ⟨pos, hpos, hfits⟩ := h.position i
  rw [session_eq hget] at hpos
  intro hout
  cases e with
  | wrlock =>
    obtain ⟨lock, -, hout⟩ := Option.map_eq_some_iff.1 hout
    cases hout
  | rdlock =>
    obtain ⟨lock, -, hout⟩ := Option.map_eq_some_iff.1 hout
    cases hout
  | ioctl =>
    obtain ⟨seekto, -, hout⟩ := Option.map_eq_some_iff.1 hout
    obtain ⟨p, heq, -⟩ := Store.ioctl_fits h.store hfits seekto
    rw [hpos, heq] at hout
    cases hout
  | write count o =>
    obtain ⟨ok, store, p, heq, -⟩ :=
      Store.write_sound h.store hfits (c.session.rest.take count) o
    simp only [outside, hpos, heq, ok_bind] at hout
    cases hout
  | read count =>
    rw [outside] at hout
    split at hout
    · rename_i hcount
      obtain ⟨data, heq, -⟩ := Store.read_eq h.store hfits hcount.1
      rw [hpos, heq] at hout
      cases hout
    · cases hout
  | send count =>
    rw [outside] at hout
    split at hout <;> cases hout
  | close =>
    rw [outside] at hout
    split at hout <;> cases hout
  | _ => cases hout

/-- A thread's step is one that its session makes. -/
theorem Shared.thread_moves (h : s.Shared build) (hs : s.step (.thread i e) = some t) :
    ∃ c event s' u, s.Moves i e t c event s' u := by
  cases (step_transition hs).2 with
  | thread hm => exact ⟨_, _, _, _, hm⟩
  | bug hget hout => exact absurd hout (h.outside_ne_error hget)

end System

end Aesd
