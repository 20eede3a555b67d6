import Aesd.Server.Reply
import Aesd.Server.Service

/-!
# The server gives the service

Each turn of a client thread has two parts that the others see at once or not at all: the packet is
dealt with under the lock for writing, and answered under the lock for reading.
`System.transactions` lists them as they come in a run, a packet when its lock is granted and a
reply when its lock is given back.  In every run in which no `write` call fails, whatever the
interleaving, these are transactions of `Service`, one after the other
(`System.refines_service`); so what is said about the service holds of the server
(`System.file_replies`, `System.device_replies`).

`System.Provides` is the simulation relation: the packets are those of the log, and each session's
file is where the service has its client, but for the time in which the lock is held.
-/

set_option autoImplicit false

namespace Aesd

/-- The packet of a session that waits for the lock. -/
def Session.queued (t : Session) : List (List Byte) :=
  if t.pc = .wrlock then t.packet.toList else []

theorem Session.queued_of_ne {t : Session} (h : t.pc ≠ .wrlock) : t.queued = [] := if_neg h

section Placed

variable [Platform]

/-- **Where a session's file is**, for a client that the service has at `pos`.  With the lock for
writing it is on the way there. -/
def Session.Placed (store : Store) (pos : ℕ) (t : Session) : Prop :=
  match t.pc with
  | .ioctl => ∀ seekto, t.seekto = some seekto → store.ioctl t.f_pos seekto = .ok (pos : ℤ)
  | .fwrite => if store.build = .device then t.f_pos = pos else pos = 0
  | .fseek => pos = 0
  | .fread | .send | .rdunlock => t.Replying store.content pos
  | _ => t.f_pos = pos

namespace Session

variable {store store' : Store} {pos : ℕ} {s t : Session}

/-- Without the lock. -/
theorem placed_resting (hw : t.pc.writing = false) (hr : t.pc.reading = false) :
    t.Placed store pos ↔ t.f_pos = pos := by
  unfold Placed
  cases hpc : t.pc <;> rw [hpc] at hw hr <;>
    first | exact Iff.rfl | exact absurd hw (by decide) | exact absurd hr (by decide)

theorem placed_reading (h : t.pc.reading = true) :
    t.Placed store pos ↔ t.Replying store.content pos := by
  unfold Placed
  cases hpc : t.pc <;> first | exact Iff.rfl | (rw [hpc] at h; cases h)

/-- Only the lock's holders look at the store. -/
theorem Placed.congr (h : t.Placed store pos) (hw : t.pc.writing = false)
    (hr : t.pc.reading = false) : t.Placed store' pos := by
  rw [placed_resting hw hr] at h ⊢
  exact h

/-- The fragments do not matter. -/
theorem Placed.mem (h : t.Placed store pos) (mem : Fragments) :
    ({ t with mem := mem } : Session).Placed store pos := by
  by_cases hr : t.pc.reading = true
  · rw [placed_reading hr] at h
    exact (placed_reading (t := { t with mem := mem }) hr).2
      ⟨h.reading, h.position, h.isPrefix, h.passed, h.last⟩
  · unfold Placed at h ⊢
    cases hpc : t.pc <;> rw [hpc] at h hr <;> first | exact h | exact absurd rfl hr

end Session

/-- A `write` call to the device leaves the position. -/
theorem Store.write_position {store store' : Store} {f_pos f_pos' : ℤ} {bytes : List Byte}
    {o : WriteOutcome} {ok : Bool} (hdevice : store.build = .device)
    (h : store.write f_pos bytes o = .ok (ok, f_pos', store')) : f_pos' = f_pos := by
  obtain ⟨d, rfl⟩ := Store.eq_device hdevice
  obtain ⟨⟨retval, d'⟩, -, h⟩ := bind_eq_ok.1 h
  cases h
  rfl

/-- Where a seek leads in a store that holds some packets. -/
theorem Store.ioctl_holds {store : Store} {packets : List (List Byte)}
    (h : store.Holds packets []) (pos : ℕ) (position : ℕ → ℕ) (seekto : AesdSeekto) :
    store.ioctl pos seekto
      = .ok ((Service.seek store.build ⟨packets, position⟩ pos seekto : ℕ) : ℤ) := by
  cases store with
  | file bytes => rfl
  | device d =>
    have hrep : d.Represents ⟨packets.rtake 10, []⟩ := h
    rw [Store.ioctl, Driver.aesdIoctl_eq hrep.toStores, ok_bind, CommandLog.ioctl]
    simp only [if_true, Bool.not_true, Bool.or_self, Bool.false_eq_true, if_false, Store.build,
      Service.seek]
    cases CommandLog.seekOffset ⟨packets.rtake 10, []⟩ seekto.writeCmd.toNat
      seekto.writeCmdOffset.toNat <;> rfl

end Placed

namespace System

section Refinement

variable [Platform]

omit [Platform] in
/-- What a step is to the service. -/
def transaction (s : System) : Label → Option Transaction
  | .thread i .wrlock => (s.session i).packet.map (.packet i)
  | .thread i .rdunlock => some (.reply i (s.session i).reply)
  | _ => none

omit [Platform] in
theorem transaction_of_ne {s : System} {l : Label} (h : ¬ ∃ i e, l = .thread i e) :
    s.transaction l = none := by
  cases l <;> first | rfl | exact absurd ⟨_, _, rfl⟩ h

/-- The transactions of a run. -/
def transactions (build : Build) (ls : List Label) : List Transaction :=
  Machine.observed step transaction (init build) ls

/-- **The server is where the service is.** -/
structure Provides (s : System) (a : Service) : Prop where
  /-- The same packets were stored. -/
  packets : a.packets = s.logged
  /-- The files are where the clients are. -/
  placed : ∀ i, (s.session i).Placed s.store (a.position i)

variable {build : Build} {s s' t : System} {a : Service} {i j : ℕ} {c : Client} {e : ThreadEvent}
  {event : Event} {u : Session} {l : Label} {ls : List Label}

theorem provides_init (build : Build) : (init build).Provides .init where
  packets := rfl
  placed _ := rfl

/-- The bytes that can be read while nobody writes. -/
theorem Provides.content (h : s.Provides a) (hinv : s.Shared build) (hstored : s.Stored)
    (hw : s.lock.writer = none) : s.store.content = a.content build := by
  rw [hstored.content hinv hw, kept, hinv.build]
  cases build <;> rw [← h.packets] <;> rfl

/-- What a thread's step is to the service. -/
theorem Moves.transaction_eq (hm : s.Moves i e t c event s' u) :
    s.transaction (.thread i e) = match event with
      | .wrlock => c.session.packet.map (.packet i)
      | .rdunlock => some (.reply i c.session.reply)
      | _ => none := by
  have hself := session_eq hm.get
  have hown : ∀ {e : ThreadEvent} {event : Event}, event.own = true → event.pc = e.pc →
      s.transaction (.thread i e) = none ∧ event ≠ .wrlock ∧ event ≠ .rdunlock := by
    intro e event ho hpc
    cases event <;> cases ho <;> cases e <;> cases hpc <;> exact ⟨rfl, by simp, by simp⟩
  cases outside_meets hm.outside with
  | own ho hpc hne =>
    obtain ⟨hnone, h1, h2⟩ := hown ho hpc
    rw [hnone]
    cases event <;> first | rfl | exact absurd rfl h1 | exact absurd rfl h2
  | wrlock => rw [transaction, hself]
  | rdunlock => rw [transaction, hself]
  | _ => rfl

/-- A step that is no transaction. -/
theorem Provides.moves_none (h : s.Provides a) (hinv : s.Shared build)
    (hm : s.Moves i e t c event s' u) (hlog : t.log = s.log)
    (hself : u.Placed t.store (a.position i)) : t.Provides a where
  packets := by rw [h.packets, logged, logged, hlog]
  placed j := by
    by_cases hj : j = i
    · rw [hj, hm.session_self]
      exact hself
    · rw [hm.session_ne hj]
      by_cases hwrite : ∃ count ok f_pos, event = .write count ok f_pos
      · -- the others are outside
        obtain ⟨count, ok, f_pos, rfl⟩ := hwrite
        have hi : (s.session i).pc.writing = true := by rw [session_eq hm.get, hm.pc_eq.1]; rfl
        refine (h.placed j).congr ?_ ?_
        · by_contra hw
          exact hj (hinv.writer_unique (by simpa using hw) hi)
        · by_contra hr
          have := hinv.not_writing_of_reading (by simpa using hr) i
          rw [hi] at this
          cases this
      · rw [hm.shared.1, (hm.effect.store_eq fun _ _ _ h ↦ hwrite ⟨_, _, _, h⟩).1]
        exact h.placed j

/-- A step of a reply, but for its end. -/
theorem Provides.replying (h : s.Provides a) (hinv : s.Shared build)
    (hm : s.Moves i e t c event s' u) (hlog : t.log = s.log)
    (hreading : c.session.pc.reading = true) (he : event ≠ .rdunlock) : t.Provides a := by
  have hself := session_eq hm.get
  have hplaced := h.placed i
  rw [hself, Session.placed_reading hreading] at hplaced
  have hne : e ≠ .rdunlock := by
    rintro rfl
    have hpc := hm.pc_eq.2
    cases event <;> first | exact he rfl | cases hpc
  have hreplying := replying_self hinv hm hne hplaced
  have hstore : t.store = s.store := by
    refine hm.shared.1.trans (hm.effect.store_eq ?_).1
    rintro count ok f_pos rfl
    rw [hm.pc_eq.1] at hreading
    cases hreading
  refine h.moves_none hinv hm hlog ?_
  rw [hstore, Session.placed_reading hreplying.reading]
  exact hreplying

/-- The end of a reply is a reply of the service. -/
theorem Provides.rdunlock (h : s.Provides a) (hinv : s.Shared build) (hstored : s.Stored)
    (hm : s.Moves i e t c .rdunlock s' u) :
    ∃ b, a.step build (.reply i c.session.reply) = some b ∧ t.Provides b := by
  have hself := session_eq hm.get
  have hpc := hm.pc_eq.1
  have hplaced := h.placed i
  have hreading : c.session.pc.reading = true := by rw [hpc]; rfl
  rw [hself, Session.placed_reading hreading] at hplaced
  have hdrained := hinv.drained i
  rw [hself] at hdrained
  obtain ⟨hreply, -⟩ := hplaced.complete hdrained hpc
  have hlock := ((hinv.reading i).2 (hself ▸ hreading)).writer_eq
  have hcontent := h.content hinv hstored hlock
  rw [hcontent] at hreply
  refine ⟨_, by rw [Service.step, if_pos hreply], ?_, fun j ↦ ?_⟩
  · rw [Service.packets_place, h.packets, logged, logged, hm.shared.2.2.1]
    rcases hm.effect.log with ⟨hlog, -⟩ | ⟨-, hev⟩
    · rw [hlog]
    · cases hev
  · have hstore : t.store = s.store :=
      hm.shared.1.trans (hm.effect.store_eq fun _ _ _ h ↦ by cases h).1
    rw [hstore]
    by_cases hj : j = i
    · subst hj
      rw [hm.session_self, Service.position_place_self]
      cases hinv.turn hm with
      | rdunlock =>
        show c.session.f_pos = _
        rw [hplaced.position, hreply, List.length_drop]
        congr 1
        omega
      | idle he => cases he
    · rw [hm.session_ne hj, Service.position_place_ne _ _ hj]
      exact h.placed j

/-- The grant of the lock for writing is a packet of the service. -/
theorem Provides.wrlock (h : s.Provides a) (hinv : s.Shared build) (hstored : s.Stored)
    (hm : s.Moves i e t c .wrlock s' u) : ∃ packet b, c.session.packet = some packet ∧
      a.step build (.packet i packet) = some b ∧ t.Provides b := by
  have hself := session_eq hm.get
  have hpc := hm.pc_eq.1
  have hflat := (hinv.inv hm.get).flat
  rw [Session.FlatInv, hpc] at hflat
  obtain ⟨packet, -, ⟨hpacket, -⟩, -, hseekto⟩ := hflat
  have hplaced : c.session.f_pos = a.position i := by
    have := h.placed i
    rwa [hself, Session.Placed, hpc] at this
  obtain ⟨lock, hlock, rfl⟩ := effect_wrlock hm.effect
  have hholds := hstored.holds hinv (RwLock.wrlock_eq_some hlock).1
  have hstore : t.store = s.store := hm.shared.1
  have hlogged : t.logged = s.logged ++ (toStore i c.session).map Prod.snd := by
    rw [logged, hm.shared.2.2.1, logged, ← List.map_append]
  have hothers : ∀ j, j ≠ i → ∀ b : Service, b.position j = a.position j →
      (t.session j).Placed t.store (b.position j) := by
    intro j hj b hb
    rw [hm.session_ne hj, hstore, hb]
    exact h.placed j
  refine ⟨packet, ?_⟩
  cases hinv.turn hm with
  | idle he => cases he
  | append p _ _ hnone =>
    rw [hnone] at hseekto
    refine ⟨a.store build i packet, hpacket, by rw [Service.step, ← hseekto], ?_, fun j ↦ ?_⟩
    · rw [Service.packets_store, h.packets, hlogged, toStore, hnone, hpacket]
      rfl
    · by_cases hj : j = i
      · subst hj
        rw [hm.session_self, hstore]
        show if s.store.build = .device then _ else _
        rw [hinv.build]
        cases build with
        | device => exact hplaced
        | file => exact Service.position_place_self _ _ _
      · refine hothers j hj _ ?_
        cases build with
        | device => rfl
        | file => exact Service.position_place_ne _ _ hj
  | seek _ hsome =>
    obtain ⟨seekto, hseek⟩ := Option.ne_none_iff_exists'.1 hsome
    rw [hseek] at hseekto
    refine ⟨a.place i (a.seek build (a.position i) seekto), hpacket,
      by rw [Service.step, ← hseekto], ?_, fun j ↦ ?_⟩
    · rw [Service.packets_place, h.packets, hlogged, toStore, hseek]
      simp
    · by_cases hj : j = i
      · subst hj
        rw [hm.session_self, hstore, Service.position_place_self]
        intro seekto' hseek'
        obtain rfl : seekto = seekto' := Option.some_inj.1 (hseek.symm.trans hseek')
        show s.store.ioctl c.session.f_pos seekto = _
        rw [hplaced, Store.ioctl_holds hholds _ a.position, hinv.build, ← h.packets]
      · exact hothers j hj _ (Service.position_place_ne _ _ hj)

/-- The other steps of a session. -/
theorem Provides.moves (h : s.Provides a) (hinv : s.Shared build) (hm : s.Moves i e t c event s' u)
    (hw : event ≠ .wrlock) (hr : event ≠ .rdunlock) : t.Provides a := by
  have hlog : t.log = s.log := by
    rcases hm.effect.log with ⟨hlog, -⟩ | ⟨-, hev⟩
    · rw [hm.shared.2.2.1, hlog]
    · exact absurd hev hw
  by_cases hreading : c.session.pc.reading = true
  · exact h.replying hinv hm hlog hreading hr
  have hplaced := h.placed i
  rw [session_eq hm.get] at hplaced
  refine h.moves_none hinv hm hlog ?_
  cases hinv.turn hm with
  | idle he hpc hpc' kept =>
    rw [Session.placed_resting (Pc.idle_writing hpc) (Pc.idle_reading hpc)] at hplaced
    rw [Session.placed_resting (Pc.idle_writing hpc') (Pc.idle_reading hpc'), kept.f_pos, hplaced]
  | lost hpc hpc' packet seekto kept =>
    rw [Session.placed_resting (by rw [hpc]; rfl) (by rw [hpc]; rfl)] at hplaced
    rw [Session.placed_resting (by rw [hpc']; rfl) (by rw [hpc']; rfl), kept.f_pos, hplaced]
  | found packet hpc hpc' hpacket seekto kept =>
    rw [Session.placed_resting (by rw [hpc]; rfl) (by rw [hpc]; rfl)] at hplaced
    rw [Session.placed_resting (by rw [hpc']; rfl) (by rw [hpc']; rfl), kept.f_pos, hplaced]
  | append => exact absurd rfl hw
  | seek => exact absurd rfl hw
  | ioctl f_pos hpc =>
    rw [Session.Placed, hpc] at hplaced
    obtain ⟨-, seekto, hseek, hioctl⟩ := effect_ioctl hm.effect
    rw [hplaced seekto hseek] at hioctl
    exact (Except.ok.inj hioctl).symm
  | write count ok f_pos packet hpc =>
    obtain ⟨o, store, hwrite, -⟩ := effect_write hm.effect
    have hbuild := (hinv.moves hm).build
    rw [Session.Placed, hpc, hinv.build] at hplaced
    have hdevice : build = .device → f_pos = a.position i := by
      intro hb
      rw [Store.write_position (hinv.build.trans hb) hwrite]
      rwa [if_pos hb] at hplaced
    have hfile : build = .file → a.position i = 0 := by
      rintro rfl
      exact hplaced
    rcases Session.afterWrite_cases build (if ok then c.session.rest.drop count else []) with
      heq | ⟨hb, heq⟩ | ⟨hb, heq⟩ <;> rw [Session.Placed] <;> simp only [heq]
    · rw [hbuild]
      split
      · exact hdevice ‹_›
      · exact hfile (by cases build <;> first | rfl | contradiction)
    · exact hdevice hb
    · exact hfile hb
  | fseek hpc =>
    rw [Session.Placed, hpc] at hplaced
    show (0 : ℤ) = _
    rw [hplaced]
    rfl
  | wrunlock ptr hpc =>
    rw [Session.Placed, hpc] at hplaced
    exact hplaced
  | rdlock hpc =>
    rw [Session.Placed, hpc] at hplaced
    have hd := hinv.drained i
    rw [session_eq hm.get] at hd
    exact Session.replying_rdlock hd hpc hplaced _
  | read bytes f_pos hpc => exact absurd (by rw [hpc]; rfl) hreading
  | last f_pos hpc => exact absurd (by rw [hpc]; rfl) hreading
  | stop f_pos hpc => exact absurd (by rw [hpc]; rfl) hreading
  | send count hpc => exact absurd (by rw [hpc]; rfl) hreading
  | rdunlock => exact absurd rfl hr

theorem Provides.quiet (h : s.Provides a) (hq : s.Quiet t) : t.Provides a where
  packets := by rw [h.packets, logged, logged, hq.log]
  placed i := by
    obtain ⟨mem, heq⟩ := hq.session i
    rw [heq, hq.store]
    exact (h.placed i).mem mem

/-- **Every step of the server** is a transaction of the service, or is not seen. -/
theorem Provides.step (h : s.Provides a) (hinv : s.Shared build) (hstored : s.Stored)
    (hs : s.step l = some t) :
    ∃ b, Machine.exec (Service.step build) a (s.transaction l).toList = some b ∧ t.Provides b := by
  by_cases hthread : ∃ i e, l = .thread i e
  swap
  · rw [transaction_of_ne hthread]
    rcases step_cases hinv.clients hs with hq | ⟨i, e, -, -, -, -, rfl, -⟩
    · exact ⟨a, rfl, h.quiet hq⟩
    · exact absurd ⟨_, _, rfl⟩ hthread
  obtain ⟨i, e, rfl⟩ := hthread
  obtain ⟨c, event, s', u, hm⟩ := hinv.thread_moves hs
  rw [hm.transaction_eq]
  by_cases hr : event = .rdunlock
  · subst hr
    obtain ⟨b, hb, hprovides⟩ := h.rdunlock hinv hstored hm
    exact ⟨b, Machine.exec_singleton.trans hb, hprovides⟩
  by_cases hw : event = .wrlock
  · subst hw
    obtain ⟨packet, b, hpacket, hb, hprovides⟩ := h.wrlock hinv hstored hm
    refine ⟨b, ?_, hprovides⟩
    simp only [hpacket]
    exact Machine.exec_singleton.trans hb
  · refine ⟨a, ?_, h.moves hinv hm hw hr⟩
    cases event <;> first | rfl | exact absurd rfl hr | exact absurd rfl hw

/-! ## What each session has of it -/

omit [Platform] in
/-- A packet waits for the lock from the moment it is flattened. -/
theorem turn_queued {s : Session} (turn : s.Turn build event u) :
    event ≠ .wrlock ∧ (∃ new, u.packets = s.packets ++ new ∧ u.queued = s.queued ++ new) ∨
    event = .wrlock ∧ u.packets = s.packets ∧ u.queued = [] ∧ s.queued = s.packet.toList := by
  have hsame : event ≠ .wrlock → s.pc ≠ .wrlock → u.pc ≠ .wrlock → u.packets = s.packets →
      event ≠ .wrlock ∧ ∃ new, u.packets = s.packets ++ new ∧ u.queued = s.queued ++ new :=
    fun h1 h2 h3 h4 ↦ ⟨h1, [], by rw [h4, List.append_nil], by
      rw [Session.queued_of_ne h2, Session.queued_of_ne h3]; rfl⟩
  have hidle : ∀ pc : Pc, pc.idle = true → pc ≠ .wrlock := by rintro pc h rfl; cases h
  cases turn with
  | idle he hpc hpc' kept packets =>
    exact Or.inl (hsame (by rintro rfl; cases he) (hidle _ hpc) (hidle _ hpc') packets)
  | lost hpc hpc' packet seekto kept packets =>
    exact Or.inl (hsame (by simp) (by simp [hpc]) (by simp [hpc']) packets)
  | found packet hpc hpc' hpacket seekto kept packets =>
    refine Or.inl ⟨by simp, [packet], packets, ?_⟩
    rw [Session.queued_of_ne (t := s) (by simp [hpc]), Session.queued, if_pos hpc', hpacket]
    rfl
  | append packet hpc =>
    exact Or.inr ⟨rfl, rfl, Session.queued_of_ne (by simp), if_pos hpc⟩
  | seek hpc => exact Or.inr ⟨rfl, rfl, Session.queued_of_ne (by simp), if_pos hpc⟩
  | write count ok f_pos packet hpc =>
    refine Or.inl (hsame (by simp) (by simp [hpc]) ?_ rfl)
    have hw := Session.afterWrite_writing build (if ok then s.rest.drop count else [])
    intro hpc'
    rw [show Session.afterWrite _ _ = Pc.wrlock from hpc'] at hw
    cases hw
  | read bytes f_pos hpc hbytes hpc' =>
    refine Or.inl (hsame (by simp) (by simp [hpc]) ?_ rfl)
    rcases hpc' with ⟨rfl, -⟩ | ⟨rfl, -⟩ <;> simp
  | _ => exact Or.inl (hsame (by simp) (by simp [*]) (by simp) rfl)

omit [Platform] in
/-- A reply is over when its lock is given back. -/
theorem turn_replies {s : Session} (turn : s.Turn build event u) :
    event ≠ .rdunlock ∧ u.replies = s.replies ∨
    event = .rdunlock ∧ u.replies = s.replies ++ [s.reply] := by
  cases turn with
  | idle he hpc hpc' kept => exact Or.inl ⟨by rintro rfl; exact absurd he (by decide), kept.replies⟩
  | lost hpc hpc' packet seekto kept => exact Or.inl ⟨by simp, kept.replies⟩
  | found packet hpc hpc' hpacket seekto kept => exact Or.inl ⟨by simp, kept.replies⟩
  | rdunlock => exact Or.inr ⟨rfl, rfl⟩
  | _ => exact Or.inl ⟨by simp, rfl⟩

/-- The transactions have each session's packets and replies. -/
structure Recorded (s : System) (trs : List Transaction) : Prop where
  /-- The replies. -/
  told : ∀ i, trs.flatMap (Transaction.told i) = (s.session i).replies
  /-- The packets, but for one that waits. -/
  asked : ∀ i, trs.flatMap (Transaction.asked i) ++ (s.session i).queued = (s.session i).packets

omit [Platform] in
theorem recorded_init (build : Build) : (init build).Recorded [] := ⟨fun _ ↦ rfl, fun _ ↦ rfl⟩

omit [Platform] in
theorem transaction_client {tr : Transaction} (h : s.transaction (.thread i e) = some tr) :
    tr.client = i := by
  cases e with
  | wrlock =>
    obtain ⟨packet, -, rfl⟩ := Option.map_eq_some_iff.1 h
    rfl
  | rdunlock => cases h; rfl
  | _ => cases h

theorem Recorded.moves {trs : List Transaction} (h : s.Recorded trs) (hinv : s.Shared build)
    (hm : s.Moves i e t c event s' u) :
    t.Recorded (trs ++ (s.transaction (.thread i e)).toList) := by
  have hself := session_eq hm.get
  have hturn := hinv.turn hm
  have hne : ∀ j, j ≠ i → ∀ tr ∈ (s.transaction (.thread i e)).toList, tr.client ≠ j := by
    intro j hj tr htr
    rw [transaction_client (Option.mem_toList.1 htr)]
    exact hj.symm
  refine ⟨fun j ↦ ?_, fun j ↦ ?_⟩ <;> rw [List.flatMap_append] <;> by_cases hj : j = i
  · rw [hj, h.told, hself, hm.session_self, hm.transaction_eq]
    rcases turn_replies hturn with ⟨hev, heq⟩ | ⟨rfl, heq⟩ <;> rw [heq]
    · cases event <;> cases c.session.packet <;>
        first | exact absurd rfl hev | simp [Transaction.told]
    · simp [Transaction.told]
  · have hnil : (s.transaction (.thread i e)).toList.flatMap (Transaction.told j) = [] :=
      List.flatMap_eq_nil_iff.2 fun tr htr ↦ Transaction.told_of_ne (hne j hj tr htr)
    rw [hm.session_ne hj, hnil, List.append_nil, h.told]
  · rw [hj, hm.session_self, hm.transaction_eq]
    have hasked := h.asked i
    rw [hself] at hasked
    rcases turn_queued hturn with ⟨hev, new, hpackets, hqueued⟩ | ⟨rfl, hpackets, hqueued, hwas⟩
    · rw [hpackets, hqueued, ← hasked]
      cases event <;> first | exact absurd rfl hev | simp [Transaction.asked]
    · rw [hpackets, hqueued, ← hasked, hwas]
      cases c.session.packet <;> simp [Transaction.asked]
  · have hnil : (s.transaction (.thread i e)).toList.flatMap (Transaction.asked j) = [] :=
      List.flatMap_eq_nil_iff.2 fun tr htr ↦ Transaction.asked_of_ne (hne j hj tr htr)
    rw [hm.session_ne hj, hnil, List.append_nil, h.asked]

theorem Recorded.step {trs : List Transaction} (h : s.Recorded trs) (hinv : s.Shared build)
    (hs : s.step l = some t) : t.Recorded (trs ++ (s.transaction l).toList) := by
  by_cases hthread : ∃ i e, l = .thread i e
  · obtain ⟨i, e, rfl⟩ := hthread
    obtain ⟨c, event, s', u, hm⟩ := hinv.thread_moves hs
    exact h.moves hinv hm
  rw [transaction_of_ne hthread, Option.toList_none, List.append_nil]
  rcases step_cases hinv.clients hs with hq | ⟨i, e, -, -, -, -, rfl, -⟩
  · refine ⟨fun i ↦ ?_, fun i ↦ ?_⟩ <;> obtain ⟨mem, heq⟩ := hq.session i <;> rw [heq]
    · exact h.told i
    · exact h.asked i
  · exact absurd ⟨_, _, rfl⟩ hthread

/-! ## Whole runs -/

theorem stored_step (hinv : s.Shared build) (h : s.StoredAs Eq) (hok : s.WritesOk l)
    (hs : s.step l = some t) : t.StoredAs Eq := by
  refine h.step hinv (fun a b p hab ↦ by rw [hab]) (fun i e c count f_pos s' u hl hm ↦ ?_) hs
  subst hl
  exact absurd (hok.eq_true hm) (by simp)

/-- The simulation, over a whole run. -/
theorem run_provides (h : Machine.Run step WritesOk (init build) ls s) :
    ∃ a, Machine.exec (Service.step build) .init (transactions build ls) = some a ∧
      s.Shared build ∧ s.Stored ∧ s.Provides a := by
  obtain ⟨a, ha, hinv, hstored, hprovides⟩ := h.simulates
    (R := fun s a ↦ s.Shared build ∧ s.StoredAs Eq ∧ s.Provides a) (f := transaction)
    (fun s l t a ⟨hinv, hstored, hprovides⟩ hok hs ↦ by
      obtain ⟨b, hb, hprovides⟩ := hprovides.step hinv hstored.stored hs
      exact ⟨b, hb, hinv.step hs, stored_step hinv hstored hok hs, hprovides⟩)
    ⟨shared_init build, storedAs_init build rfl, provides_init build⟩
  exact ⟨a, ha, hinv, hstored.stored, hprovides⟩

theorem run_recorded {ok : System → Label → Prop} (h : Machine.Run step ok (init build) ls s) :
    s.Recorded (transactions build ls) := by
  have hrecorded := h.records
    (R := fun s trs ↦ s.Shared build ∧ s.Recorded trs) (f := transaction)
    (fun s l t trs ⟨hinv, hrecorded⟩ _ hs ↦ ⟨hinv.step hs, hrecorded.step hinv hs⟩)
    ⟨shared_init build, recorded_init build⟩
  exact hrecorded.2

/-- What was given to `send` in each of a client's finished replies. -/
def given (build : Build) (i : ℕ) (ls : List Label) : List (List Byte) :=
  Machine.observed step
    (fun s l ↦ if l = .thread i .rdunlock then some (s.session i).passed else none) (init build) ls

/-- Where a reply ends, all that was read for it was given to `send`. -/
theorem Provides.passed (h : s.Provides a) (hinv : s.Shared build)
    (hpc : (s.session i).pc = .rdunlock) : (s.session i).passed = (s.session i).reply := by
  have hplaced := (Session.placed_reading (by rw [hpc]; rfl)).1 (h.placed i)
  exact (hplaced.complete (hinv.drained i) hpc).2

/-- What a step tells a client was given to `send`, in the reply that the step ends. -/
theorem Provides.told (h : s.Provides a) (hinv : s.Shared build) (hs : s.step l = some t) :
    (s.transaction l).toList.flatMap (Transaction.told i)
      = (if l = .thread i .rdunlock then some (s.session i).passed else none).toList := by
  by_cases hend : ∃ j, l = .thread j .rdunlock
  · obtain ⟨j, rfl⟩ := hend
    by_cases hj : j = i
    · subst hj
      obtain ⟨c, event, s', u, hm⟩ := hinv.thread_moves hs
      have hpc : (s.session j).pc = .rdunlock := by
        rw [session_eq hm.get, hm.pc_eq.1, hm.pc_eq.2]
        rfl
      rw [if_pos rfl, h.passed hinv hpc]
      simp [transaction, Transaction.told]
    · simp [transaction, Transaction.told, hj]
  -- nothing else that a step does tells anything
  rw [if_neg fun hl ↦ hend ⟨i, hl⟩]
  cases l with
  | thread j e =>
    cases e with
    | rdunlock => exact absurd ⟨j, rfl⟩ hend
    | wrlock =>
      cases hpacket : (s.session j).packet <;> simp [transaction, Transaction.told, hpacket]
    | _ => rfl
  | _ => rfl

/-- What is given to `send` in the finished replies is what is read for them. -/
theorem run_given (h : Machine.Run step WritesOk (init build) ls s) (i : ℕ) :
    given build i ls = (s.session i).replies := by
  obtain ⟨-, -, -, trs, hrecorded, hgiven⟩ := h.records
    (R := fun s given ↦ s.Shared build ∧ s.StoredAs Eq ∧ (∃ a, s.Provides a) ∧
      ∃ trs, s.Recorded trs ∧ given = trs.flatMap (Transaction.told i))
    (fun s l t given ⟨hinv, hstored, ⟨a, hprovides⟩, trs, hrecorded, hgiven⟩ hok hs ↦ by
      obtain ⟨b, -, hb⟩ := hprovides.step hinv hstored.stored hs
      refine ⟨hinv.step hs, stored_step hinv hstored hok hs, ⟨b, hb⟩, _, hrecorded.step hinv hs, ?_⟩
      rw [List.flatMap_append, hprovides.told hinv hs, hgiven])
    ⟨shared_init build, storedAs_init build rfl, ⟨_, provides_init build⟩, _, recorded_init build,
      rfl⟩
  exact hgiven.trans (hrecorded.told i)

/-- The transactions store what the log has. -/
theorem Provides.logged {trs : List Transaction} (h : s.Provides a)
    (ha : Machine.exec (Service.step build) .init trs = some a) :
    trs.flatMap Transaction.stored = s.logged :=
  (Service.exec_packets ha).symm.trans h.packets

/-- **The server gives the service.**  In every run in which no `write` call fails, whatever the
interleaving and whatever else fails, the packets and replies are transactions of the service in
some order, one after the other, and all of them are right.  The service has the packets of the log
in the end; while nobody writes the store has the bytes that the service has; and it has each client
where its file is, while the client's thread is outside the lock. -/
theorem refines_service (h : Machine.Run step WritesOk (init build) ls s) :
    ∃ a, Machine.exec (Service.step build) .init (transactions build ls) = some a ∧
      a.packets = s.logged ∧
      (s.lock.writer = none → s.store.content = a.content build) ∧
      (∀ i, (s.session i).pc.writing = false → (s.session i).pc.reading = false →
        (s.session i).f_pos = a.position i) ∧
      ∀ i, (transactions build ls).flatMap (Transaction.told i) = (s.session i).replies ∧
        (transactions build ls).flatMap (Transaction.asked i) ++ (s.session i).queued
          = (s.session i).packets := by
  obtain ⟨a, ha, hinv, hstored, hprovides⟩ := run_provides h
  have hrecorded := run_recorded h
  exact ⟨a, ha, hprovides.packets, hprovides.content hinv hstored,
    fun i hw hr ↦ (Session.placed_resting hw hr).1 (hprovides.placed i),
    fun i ↦ ⟨hrecorded.told i, hrecorded.asked i⟩⟩

/-- **The order in which the lock is granted decides it all.**  Two runs in which no `write` call
fails, with the same packets and replies in the same order, but whatever else is different in them,
how the packets arrive, how they are written, read and sent, what fails and who is cancelled: the
same packets are stored; in each finished reply of each client the same bytes are read, and given to
`send`; and while nobody writes the stores have the same bytes. -/
theorem order_decides {ls' : List Label} (h : Machine.Run step WritesOk (init build) ls s)
    (h' : Machine.Run step WritesOk (init build) ls' t)
    (horder : (transactions build ls).map Transaction.request
      = (transactions build ls').map Transaction.request) :
    s.logged = t.logged ∧
      (∀ i, (s.session i).replies = (t.session i).replies ∧
        given build i ls = given build i ls') ∧
      (s.lock.writer = none → t.lock.writer = none → s.store.content = t.store.content) := by
  obtain ⟨a, ha, hinv, hstored, hprovides⟩ := run_provides h
  obtain ⟨a', ha', hinv', hstored', hprovides'⟩ := run_provides h'
  obtain ⟨htr, rfl⟩ := Service.exec_determined ha ha' horder
  have hreplies : ∀ i, (s.session i).replies = (t.session i).replies := fun i ↦ by
    rw [← (run_recorded h).told, ← (run_recorded h').told, htr]
  refine ⟨hprovides.packets.symm.trans hprovides'.packets, fun i ↦ ⟨hreplies i, ?_⟩,
    fun hw hw' ↦ ?_⟩
  · rw [run_given h, run_given h', hreplies]
  · rw [hprovides.content hinv hstored hw, hprovides'.content hinv' hstored' hw']

/-- **A reply of the file build** to a packet that was stored: all that was stored before the reply,
by whomever, and in order.  What is stored later comes after it, and while nobody writes that is
what the file has. -/
theorem file_replies {before between later : List Transaction} {p x : List Byte}
    (h : Machine.Run step WritesOk (init .file) ls s)
    (htr : transactions .file ls = before ++ .packet i p :: (between ++ .reply i x :: later))
    (hp : isData p = true) (hbetween : ∀ tr ∈ between, tr.client ≠ i) :
    x = ((before ++ .packet i p :: between).flatMap Transaction.stored).flatten ∧
      s.logged.flatten = x ++ (later.flatMap Transaction.stored).flatten ∧
      (s.lock.writer = none →
        s.store.content = x ++ (later.flatMap Transaction.stored).flatten) := by
  obtain ⟨a, ha, hinv, hstored, hprovides⟩ := run_provides h
  have hlogged := hprovides.logged ha
  have hsplit : before ++ .packet i p :: (between ++ .reply i x :: later)
      = (before ++ .packet i p :: (between ++ [.reply i x])) ++ later := by simp
  rw [htr, hsplit] at ha hlogged
  obtain ⟨b, hb, -⟩ := Machine.exec_append.1 ha
  have hx := Service.reply_complete hp hbetween hb
  have hflat : s.logged.flatten = x ++ (later.flatMap Transaction.stored).flatten := by
    rw [← hlogged, hx]
    simp [Transaction.stored]
  refine ⟨hx, hflat, fun hw ↦ ?_⟩
  rw [hprovides.content hinv hstored hw, ← hflat, ← hprovides.packets]
  rfl

/-- **The replies of the device build** to a client that never seeks: no byte that was stored is
told twice or out of order.  While not more than ten packets were stored, none is left out either;
after each reply it was told all that is stored. -/
theorem device_replies (h : Machine.Run step WritesOk (init .device) ls s)
    (hdata : ∀ p ∈ (s.session i).packets, isData p = true) :
    (s.session i).replies.flatten.Sublist s.logged.flatten ∧
      (s.logged.length ≤ 10 → (s.session i).replies.flatten <+: s.logged.flatten ∧
        ∀ t, s.step (.thread i .rdunlock) = some t →
          (t.session i).replies.flatten = s.logged.flatten) := by
  obtain ⟨a, ha, -, -, hprovides⟩ := run_provides h
  have hdata' : ∀ p ∈ (transactions .device ls).flatMap (Transaction.asked i), isData p = true :=
    fun p hp ↦ hdata p ((run_recorded h).asked i ▸ List.mem_append_left _ hp)
  rw [← (run_recorded h).told, ← hprovides.logged ha]
  refine ⟨Service.replies_sublist ha hdata', fun hlen ↦
    ⟨Service.replies_isPrefix ha hdata' hlen, fun t ht ↦ ?_⟩⟩
  -- the run and this step
  have hrun : Machine.Run step WritesOk (init .device) (ls ++ [.thread i .rdunlock]) t :=
    h.append (.single rfl ht)
  have htr : transactions .device (ls ++ [.thread i .rdunlock])
      = transactions .device ls ++ [.reply i (s.session i).reply] := by
    rw [transactions, h.observed_append, Machine.observed_cons ht]
    rfl
  obtain ⟨b, hb, -⟩ := run_provides hrun
  rw [← (run_recorded hrun).told, htr]
  rw [htr] at hb
  exact Service.replies_eq hb hdata' hlen

/-- **The two builds agree.**  Two runs in which no `write` call fails, one of the device build and
one of the file build, with the same packets and replies in the same order, store the same packets.
While not more than ten are stored, and for a client that never seeks: if its last reply of the file
build is to a packet that was stored, that reply is all that it is told in the device build, one
reply after the other. -/
theorem builds_agree {ls' : List Label} (h : Machine.Run step WritesOk (init .device) ls s)
    (h' : Machine.Run step WritesOk (init .file) ls' t)
    (horder : (transactions .device ls).map Transaction.request
      = (transactions .file ls').map Transaction.request) :
    s.logged = t.logged ∧
      ∀ (i : ℕ) (before between later : List Transaction) (p x : List Byte),
        transactions .file ls' = before ++ .packet i p :: (between ++ .reply i x :: later) →
        (∀ tr ∈ between, tr.client ≠ i) → (∀ y, .reply i y ∉ later) →
        (∀ p ∈ (s.session i).packets, isData p = true) → s.logged.length ≤ 10 →
        (s.session i).replies.flatten = x := by
  obtain ⟨a, ha, -, -, hprovides⟩ := run_provides h
  obtain ⟨a', ha', -, -, hprovides'⟩ := run_provides h'
  have hstored := Transaction.stored_congr horder
  refine ⟨?_, fun i before between later p x htr hbetween hlater hdata hlen ↦ ?_⟩
  · rw [← hprovides.logged ha, ← hprovides'.logged ha', hstored]
  have hasked : ∀ p ∈ (transactions .device ls).flatMap (Transaction.asked i), isData p = true :=
    fun p hp ↦ hdata p ((run_recorded h).asked i ▸ List.mem_append_left _ hp)
  rw [← hprovides.logged ha] at hlen
  rw [← (run_recorded h).told]
  -- the device's transactions have the same reply, and no later one either
  rw [htr, ← List.cons_append, ← List.append_assoc, List.map_append] at horder
  obtain ⟨trs, rest, heq, hfirst, hrest⟩ := List.map_eq_append_iff.1 horder
  obtain ⟨tr, more, rfl, htr', hmore⟩ := List.map_eq_cons_iff.1 hrest
  obtain ⟨y, rfl⟩ := Transaction.request_eq_reply htr'
  have hnone : more.flatMap (Transaction.told i) = [] := Transaction.told_of_request hmore hlater
  have hsplit : trs ++ .reply i y :: more = (trs ++ [.reply i y]) ++ more := by simp
  have hsplit' : before ++ .packet i p :: (between ++ .reply i x :: later)
      = (before ++ .packet i p :: (between ++ [.reply i x])) ++ later := by simp
  rw [heq, hsplit] at ha hasked hlen ⊢
  rw [htr, hsplit'] at ha'
  obtain ⟨b, hb, -⟩ := Machine.exec_append.1 ha
  obtain ⟨b', hb', -⟩ := Machine.exec_append.1 ha'
  have hasked' : ∀ p ∈ trs.flatMap (Transaction.asked i), isData p = true := fun p hp ↦ by
    refine hasked p ?_
    rw [List.flatMap_append, List.flatMap_append]
    exact List.mem_append_left _ (List.mem_append_left _ hp)
  have hlen' : (trs.flatMap Transaction.stored).length ≤ 10 := by
    rw [List.flatMap_append, List.flatMap_append, List.length_append, List.length_append] at hlen
    omega
  rw [List.flatMap_append, hnone, List.append_nil]
  exact Service.replies_eq_reply hb hb' hfirst hbetween hasked' hlen'

end Refinement

/-- Two clients, whose packets are stored one after the other before each of them gets a reply. -/
def bothAnswered (b : Build) : List Label :=
  Label.connect 1 ++ Label.connect 2 ++
    Label.steps 0 [.start true, .recv (.data [97, 98, 10]), .scan true, .wrlock] ++
    Label.steps 1 [.start true, .recv (.data [99, 10]), .scan true] ++
    Label.steps 0 ([.write 3 .plain] ++ seekBack ++ [.wrunlock]) ++
    Label.steps 1 ([.wrlock, .write 2 .plain] ++ seekBack ++ [.wrunlock]) ++
    Label.steps 0 [.rdlock, .read 3] ++ Label.steps 1 [.rdlock] ++
    Label.steps 0 [.read 2, .read 4096, .send 5, .read 4096, .rdunlock] ++
    Label.steps 1 [.read 3, .read 2, .read 4096, .send 5, .read 4096]
where
  /-- The `fseek` of the file build. -/
  seekBack : List ThreadEvent :=
    match b with
    | .device => []
    | .file => [.fseek]

/-- The same packets and replies in the same order, but otherwise another run: the second client's
packet comes first and in two parts, everything is written and read in other parts, and `send` takes
one byte only. -/
def bothAnsweredInParts : List Label :=
  Label.connect 1 ++ Label.connect 2 ++
    Label.steps 1 [.start true, .recv (.data [99]), .scan true, .recv (.data [10]), .scan true] ++
    Label.steps 0 [.start true, .recv (.data [97, 98, 10]), .scan true, .wrlock, .write 1 .plain,
      .write 2 .plain, .wrunlock] ++
    Label.steps 1 [.wrlock, .write 1 .plain, .write 1 .plain, .wrunlock, .rdlock] ++
    Label.steps 0 [.rdlock, .read 1, .read 1, .read 1, .read 2, .read 4096, .send 1,
      .read 4096, .rdunlock]

attribute [local instance] linux64 in
theorem refines_service_both :
    ∃ a, Machine.exec (Service.step .device) .init
        [.packet 0 [97, 98, 10], .packet 1 [99, 10], .reply 0 [97, 98, 10, 99, 10]] = some a ∧
      a.packets = [[97, 98, 10], [99, 10]] := by
  have h : Machine.Run step WritesOk (init .device) (bothAnswered .device)
      (after .device (bothAnswered .device)) := run_after (by decide +kernel)
  have htr : transactions .device (bothAnswered .device)
      = [.packet 0 [97, 98, 10], .packet 1 [99, 10], .reply 0 [97, 98, 10, 99, 10]] := by
    decide +kernel
  have hlogged : (after .device (bothAnswered .device)).logged = [[97, 98, 10], [99, 10]] := by
    decide +kernel
  obtain ⟨a, ha, hpackets, -⟩ := refines_service h
  rw [htr] at ha
  exact ⟨a, ha, hpackets.trans hlogged⟩

attribute [local instance] linux64 in
theorem order_decides_both :
    given .device 0 (bothAnswered .device) = given .device 0 bothAnsweredInParts ∧
    ((after .device (bothAnswered .device)).session 0).replies
      = ((after .device bothAnsweredInParts).session 0).replies ∧
    (after .device (bothAnswered .device)).store.content
      = (after .device bothAnsweredInParts).store.content := by
  have h : Machine.Run step WritesOk (init .device) (bothAnswered .device)
      (after .device (bothAnswered .device)) := run_after (by decide +kernel)
  have h' : Machine.Run step WritesOk (init .device) bothAnsweredInParts
      (after .device bothAnsweredInParts) := run_after (by decide +kernel)
  obtain ⟨-, hreplies, hcontent⟩ := order_decides h h' (by decide +kernel)
  exact ⟨(hreplies 0).2, (hreplies 0).1, hcontent (by decide +kernel) (by decide +kernel)⟩

attribute [local instance] linux64 in
theorem file_replies_both :
    transactions .file (bothAnswered .file) = [.packet 0 [97, 98, 10], .packet 1 [99, 10],
      .reply 0 [97, 98, 10, 99, 10]] ∧
    (after .file (bothAnswered .file)).store.content = [97, 98, 10, 99, 10] := by
  have h : Machine.Run step WritesOk (init .file) (bothAnswered .file)
      (after .file (bothAnswered .file)) := run_after (by decide +kernel)
  have htr : transactions .file (bothAnswered .file)
      = [] ++ .packet 0 [97, 98, 10] :: ([.packet 1 [99, 10]] ++
        .reply 0 [97, 98, 10, 99, 10] :: []) := by decide +kernel
  obtain ⟨-, -, hcontent⟩ := file_replies h htr (by decide +kernel) (by decide)
  exact ⟨htr, hcontent (by decide +kernel)⟩

attribute [local instance] linux64 in
theorem device_replies_both :
    (∃ t, (after .device (bothAnswered .device)).step (.thread 1 .rdunlock) = some t ∧
      (t.session 1).replies.flatten = [97, 98, 10, 99, 10]) ∧
    (after .device (bothAnswered .device)).logged.length = 2 := by
  have h : Machine.Run step WritesOk (init .device) (bothAnswered .device)
      (after .device (bothAnswered .device)) := run_after (by decide +kernel)
  have hlogged : (after .device (bothAnswered .device)).logged = [[97, 98, 10], [99, 10]] := by
    decide +kernel
  have hstep : ((after .device (bothAnswered .device)).step (.thread 1 .rdunlock)).isSome := by
    decide +kernel
  obtain ⟨t, ht⟩ := Option.isSome_iff_exists.1 hstep
  obtain ⟨-, hwhole⟩ := device_replies (i := 1) h (by decide +kernel)
  obtain ⟨-, hend⟩ := hwhole (by rw [hlogged]; decide)
  exact ⟨⟨t, ht, (hend t ht).trans (by rw [hlogged]; rfl)⟩, by rw [hlogged]; rfl⟩

attribute [local instance] linux64 in
theorem builds_agree_both :
    (after .device (bothAnswered .device)).logged = (after .file (bothAnswered .file)).logged ∧
    ((after .device (bothAnswered .device)).session 0).replies.flatten = [97, 98, 10, 99, 10] := by
  have h : Machine.Run step WritesOk (init .device) (bothAnswered .device)
      (after .device (bothAnswered .device)) := run_after (by decide +kernel)
  have h' : Machine.Run step WritesOk (init .file) (bothAnswered .file)
      (after .file (bothAnswered .file)) := run_after (by decide +kernel)
  have htr : transactions .file (bothAnswered .file)
      = [] ++ .packet 0 [97, 98, 10] :: ([.packet 1 [99, 10]] ++
        .reply 0 [97, 98, 10, 99, 10] :: []) := by decide +kernel
  obtain ⟨hlogged, hlast⟩ := builds_agree h h' (by decide +kernel)
  exact ⟨hlogged, hlast 0 _ _ _ _ _ htr (by decide) (by simp) (by decide +kernel)
    (by decide +kernel)⟩

end System

end Aesd
